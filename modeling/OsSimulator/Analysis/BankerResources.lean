import OsSimulator.Analysis.BankerRequests
import OsSimulator.Library.EventRun

/-!
# The resources of the banker

What claims and requests do to the amounts in the bank.  A request moves resources between
`Available` and a process and keeps the account of every resource; a claim takes the new
allocation of the process out of `Available` without putting the old one back, and changes the
account by the old one.  So the resources are conserved exactly as long as every claim is that
of a process with nothing allocated (`resources_conserved_iff`).

The two checks of a request are upper bounds.  A request that takes more out of an allocation
than is there, or gives back more than was taken, passes them, and the bounds of the amounts
are kept exactly as long as no such request is granted (`bounds_kept_iff`).
-/

set_option autoImplicit false

namespace OsSimulator.Analysis

open Library Model Model.BankersState

variable {n m : ℕ}

/-! ## One call -/

/-- What a call can do. -/
inductive BankerEffect (b : BankersState n m) : BankerCall n m → BankersState n m → Prop where
  | claimed (procIdx : Fin n) (maxClaim currentAlloc : Fin m → Int64) :
      BankerEffect b (.claim procIdx maxClaim currentAlloc)
        (b.setProcessClaim procIdx maxClaim currentAlloc)
  | granted (procIdx : Fin n) (request : Fin m → Int64) (h : Grantable b procIdx request) :
      BankerEffect b (.request procIdx request) (moved b procIdx request)
  | refused (procIdx : Fin n) (request : Fin m → Int64) (h : ¬ Grantable b procIdx request) :
      BankerEffect b (.request procIdx request) b

theorem call_bankerEffect (b : BankersState n m) (c : BankerCall n m) :
    ∃ b', b.call c = some b' ∧ BankerEffect b c b' := by
  cases c with
  | claim procIdx maxClaim currentAlloc =>
    exact ⟨_, rfl, .claimed procIdx maxClaim currentAlloc⟩
  | request procIdx request =>
    obtain ⟨r, hr, hanswered⟩ := requestResources_answered b procIdx request
    refine ⟨r.state, by simp only [call, hr, Option.map_some], ?_⟩
    cases hgranted : r.granted with
    | true =>
      rw [hanswered.granted_state hgranted]
      exact .granted procIdx request (hanswered.granted_iff.mp hgranted)
    | false =>
      rw [hanswered.refused_state hgranted]
      refine .refused procIdx request fun h => ?_
      rw [hanswered.granted_iff.mpr h] at hgranted
      cases hgranted

theorem bankerRun_concat {b b' : BankersState n m} {calls : List (BankerCall n m)}
    (hrun : b.run calls = some b') (c : BankerCall n m) : b.run (calls ++ [c]) = b'.call c := by
  unfold BankersState.run at hrun ⊢
  rw [List.foldlM_append, hrun]
  simp

/-- What holds at the start and is kept by every call holds after every run, which always
comes to an end. -/
theorem bankerRun_induction {P : BankersState n m → Prop} {b : BankersState n m} (hb : P b)
    (hcall : ∀ b c b', P b → BankerEffect b c b' → P b') (calls : List (BankerCall n m)) :
    ∃ b', b.run calls = some b' ∧ P b' := by
  induction calls using List.reverseRecOn with
  | nil => exact ⟨b, rfl, hb⟩
  | append_singleton calls c ih =>
    obtain ⟨mid, hrun, hmid⟩ := ih
    obtain ⟨b', hcall', heff⟩ := call_bankerEffect mid c
    exact ⟨b', (bankerRun_concat hrun c).trans hcall', hcall mid c b' hmid heff⟩

/-! ## The account of a resource -/

/-- `Available[j]` plus all allocations of the resource, as sums of machine integers. -/
def accounted (b : BankersState n m) (j : Fin m) : Int64 :=
  (List.finRange n).foldl (fun sum i => sum + b.allocation i j) (b.available j)

theorem foldl_add_shift {ι : Type} (f : ι → Int64) (l : List ι) (a d : Int64) :
    l.foldl (fun sum i => sum + f i) (a + d) = l.foldl (fun sum i => sum + f i) a + d := by
  induction l generalizing a with
  | nil => rfl
  | cons i l ih =>
    have hcomm : a + d + f i = a + f i + d := by grind
    rw [List.foldl_cons, List.foldl_cons, hcomm, ih]

/-- A sum in which one term has changed. -/
theorem foldl_add_changed {ι : Type} {f g : ι → Int64} {p : ι} (hsame : ∀ i, i ≠ p → g i = f i)
    {l : List ι} (hnodup : l.Nodup) (hp : p ∈ l) (a : Int64) :
    l.foldl (fun sum i => sum + g i) a = l.foldl (fun sum i => sum + f i) a + (g p - f p) := by
  obtain ⟨before, after, rfl⟩ := List.append_of_mem hp
  have hsplit := List.nodup_append.mp hnodup
  have hbefore : ∀ i ∈ before, i ≠ p := fun i hi => hsplit.2.2 i hi p List.mem_cons_self
  have hafter : ∀ i ∈ after, i ≠ p := by
    rintro i hi rfl
    exact (List.nodup_cons.mp hsplit.2.1).1 hi
  have hkeep : ∀ (part : List ι) (x : Int64), (∀ i ∈ part, i ≠ p) →
      part.foldl (fun sum i => sum + g i) x = part.foldl (fun sum i => sum + f i) x := by
    intro part x hpart
    exact List.foldl_ext _ _ x fun sum i hi => by rw [hsame i (hpart i hi)]
  rw [List.foldl_append, List.foldl_append, List.foldl_cons, List.foldl_cons,
    hkeep before a hbefore, hkeep after _ hafter, ← foldl_add_shift f after]
  congr 1
  grind

/-- A request moves resources and keeps the account. -/
theorem accounted_moved (b : BankersState n m) (procIdx : Fin n) (request : Fin m → Int64)
    (j : Fin m) : accounted (moved b procIdx request) j = accounted b j := by
  have hother : ∀ i, i ≠ procIdx →
      (moved b procIdx request).allocation i j = b.allocation i j := fun i hi => if_neg hi
  have hself : (moved b procIdx request).allocation procIdx j =
      b.allocation procIdx j + request j := if_pos rfl
  unfold accounted
  rw [foldl_add_changed hother (List.nodup_finRange n) (List.mem_finRange procIdx),
    ← foldl_add_shift, hself]
  congr 1
  change b.available j - request j + (b.allocation procIdx j + request j - b.allocation procIdx j) =
    b.available j
  grind

/-- A claim does not put the old allocation back. -/
theorem accounted_setProcessClaim (b : BankersState n m) (procIdx : Fin n)
    (maxClaim currentAlloc : Fin m → Int64) (j : Fin m) :
    accounted (b.setProcessClaim procIdx maxClaim currentAlloc) j + b.allocation procIdx j =
      accounted b j := by
  have hother : ∀ i, i ≠ procIdx →
      (b.setProcessClaim procIdx maxClaim currentAlloc).allocation i j = b.allocation i j := by
    intro i hi
    exact congrFun (Function.update_of_ne hi ..) j
  have hself : (b.setProcessClaim procIdx maxClaim currentAlloc).allocation procIdx j =
      currentAlloc j := congrFun (Function.update_self ..) j
  unfold accounted
  rw [foldl_add_changed hother (List.nodup_finRange n) (List.mem_finRange procIdx),
    ← foldl_add_shift, ← foldl_add_shift, hself]
  congr 1
  change b.available j - currentAlloc j + (currentAlloc j - b.allocation procIdx j) +
    b.allocation procIdx j = b.available j
  grind

theorem accounted_new (procCount : ℕ) (resNames : List String) (totalResources : List Int64)
    (j : Fin resNames.length) :
    accounted (newBankersState procCount resNames totalResources) j = totalResources.getD j 0 := by
  have hzero : ∀ (l : List (Fin procCount)) (a : Int64),
      l.foldl (fun sum _ => sum + (0 : Int64)) a = a := by
    intro l a
    induction l with
    | nil => rfl
    | cons i l ih => rw [List.foldl_cons, Int64.add_zero, ih]
  exact hzero _ _

/-- Every resource is accounted for. -/
def Conserved (total : Fin m → Int64) (b : BankersState n m) : Prop :=
  ∀ j, accounted b j = total j

/-- A claim is that of a process with nothing allocated. -/
def CleanClaim (start : BankersState n m) (done : List (BankerCall n m)) :
    BankerCall n m → Prop
  | .claim procIdx _ _ => ∃ b, start.run done = some b ∧ ∀ j, b.allocation procIdx j = 0
  | .request _ _ => True

theorem conserved_effect_iff {total : Fin m → Int64} {start b b' : BankersState n m}
    {done : List (BankerCall n m)} {c : BankerCall n m} (hrun : start.run done = some b)
    (hb : Conserved total b) (heff : BankerEffect b c b') :
    Conserved total b' ↔ CleanClaim start done c := by
  cases heff with
  | claimed procIdx maxClaim currentAlloc =>
    unfold CleanClaim Conserved
    simp only [hrun, Option.some.injEq, exists_eq_left']
    refine forall_congr' fun j => ?_
    rw [← hb j, ← accounted_setProcessClaim b procIdx maxClaim currentAlloc j]
    grind
  | granted procIdx request h =>
    exact iff_of_true (fun j => (accounted_moved b procIdx request j).trans (hb j)) trivial
  | refused => exact iff_of_true hb trivial

/-- `Need` is `Max` less `Allocation`. -/
def NeedOk (b : BankersState n m) : Prop :=
  ∀ i j, b.need i j = b.max i j - b.allocation i j

theorem NeedOk.effect {b b' : BankersState n m} {c : BankerCall n m} (h : NeedOk b)
    (heff : BankerEffect b c b') : NeedOk b' := by
  cases heff with
  | claimed procIdx maxClaim currentAlloc =>
    intro i j
    unfold setProcessClaim
    dsimp only
    by_cases hi : i = procIdx
    · subst hi
      simp only [Function.update_self]
    · simp only [Function.update_of_ne hi]
      exact h i j
  | granted procIdx request _ =>
    intro i j
    have hij := h i j
    unfold moved
    dsimp only
    split_ifs with hi <;> grind
  | refused => exact h

/-- **The resources are conserved exactly as long as claims are those of processes with nothing
allocated.**  From a new state, `Need` is `Max` less `Allocation` after every run of claims and
requests.  `Available` and the allocations add up to the total of every resource throughout
the run exactly when no claim is made for a process that holds something: the claim overwrites
its allocation, which is then nowhere.  The sums are those of machine integers. -/
theorem resources_conserved_iff (procCount : ℕ) (resNames : List String)
    (totalResources : List Int64) (calls : List (BankerCall procCount resNames.length)) :
    let start := newBankersState procCount resNames totalResources
    (∃ b, start.run calls = some b ∧ NeedOk b) ∧
      ((∀ done, done <+: calls →
          ∃ b, start.run done = some b ∧ Conserved (fun j => totalResources.getD j 0) b) ↔
        ∀ done c, done ++ [c] <+: calls → CleanClaim start done c) := by
  intro start
  constructor
  · refine bankerRun_induction (fun i j => ?_) (fun b c b' hb heff => hb.effect heff) calls
    exact (Int64.sub_zero 0).symm
  · refine always_iff_clean _ (CleanClaim start) ⟨start, rfl, accounted_new _ _ _⟩ ?_ calls
    rintro done c ⟨b, hrun, hb⟩
    obtain ⟨b', hcall, heff⟩ := call_bankerEffect b c
    rw [bankerRun_concat hrun c, hcall, ← conserved_effect_iff hrun hb heff]
    simp

/-- A process that holds one unit claims it again, and the unit is gone. -/
theorem resources_lost :
    let claim : BankerCall 1 1 := .claim 0 (fun _ => 1) (fun _ => 1)
    ((newBankersState 1 ["R"] [3]).run [claim, claim]).map (fun b => accounted b 0) = some 2 := by
  decide

/-! ## The bounds of the amounts -/

/-- No process holds less than nothing or more than its claim, and no less than nothing and no
more than the total is available. -/
structure WithinBounds (total : Fin m → Int64) (b : BankersState n m) : Prop where
  allocation : ∀ i j, 0 ≤ b.allocation i j ∧ b.allocation i j ≤ b.max i j
  need : NeedOk b
  available : ∀ j, 0 ≤ b.available j ∧ b.available j ≤ total j

/-- As unbounded numbers, the request takes no more out of the allocation than is there, and
gives back no more than is missing from the total. -/
def Moderate (total : Fin m → Int64) (b : BankersState n m) (procIdx : Fin n)
    (request : Fin m → Int64) : Prop :=
  ∀ j, -(b.allocation procIdx j).toInt ≤ (request j).toInt ∧
    (b.available j).toInt - (total j).toInt ≤ (request j).toInt

section Words

variable {x y : Int64}

theorem toInt_add_of_fits (hlo : -2 ^ 63 ≤ x.toInt + y.toInt) (hhi : x.toInt + y.toInt < 2 ^ 63) :
    (x + y).toInt = x.toInt + y.toInt := by
  rw [Int64.toInt_add]
  exact Int.bmod_eq_of_le (by omega) (by omega)

theorem toInt_sub_of_fits (hlo : -2 ^ 63 ≤ x.toInt - y.toInt) (hhi : x.toInt - y.toInt < 2 ^ 63) :
    (x - y).toInt = x.toInt - y.toInt := by
  rw [Int64.toInt_sub]
  exact Int.bmod_eq_of_le (by omega) (by omega)

/-- A difference that is too large becomes negative. -/
theorem toInt_sub_neg (hlo : 2 ^ 63 ≤ x.toInt - y.toInt) : (x - y).toInt < 0 := by
  have hx := x.toInt_lt
  have hy := y.le_toInt
  rw [Int64.toInt_sub, Int.bmod_def]
  split <;> omega

/-- An allocation after a request within the need. -/
theorem allocation_bounds_iff {allocation max request : Int64} (hzero : 0 ≤ allocation)
    (hmax : allocation ≤ max) (hneed : request ≤ max - allocation) :
    (0 ≤ allocation + request ∧ allocation + request ≤ max) ↔
      -allocation.toInt ≤ request.toInt := by
  have hrequest := request.le_toInt
  have hlt := max.toInt_lt
  rw [Int64.le_iff_toInt_le] at hzero hmax hneed
  rw [Int64.toInt_zero] at hzero
  have hdiff : (max - allocation).toInt = max.toInt - allocation.toInt :=
    toInt_sub_of_fits (by omega) (by omega)
  have hsum : (allocation + request).toInt = allocation.toInt + request.toInt :=
    toInt_add_of_fits (by omega) (by omega)
  rw [Int64.le_iff_toInt_le, Int64.le_iff_toInt_le, hsum, Int64.toInt_zero]
  omega

/-- What is available after a request within it. -/
theorem available_bounds_iff (total : Int64) {available request : Int64}
    (havailable : request ≤ available) :
    (0 ≤ available - request ∧ available - request ≤ total) ↔
      available.toInt - total.toInt ≤ request.toInt := by
  have hrequest := request.le_toInt
  have hlt := total.toInt_lt
  rw [Int64.le_iff_toInt_le] at havailable
  rw [Int64.le_iff_toInt_le, Int64.le_iff_toInt_le, Int64.toInt_zero]
  by_cases hfits : available.toInt - request.toInt < 2 ^ 63
  · rw [toInt_sub_of_fits (by omega) hfits]
    omega
  · -- too much is given back, and the result wraps around
    have hneg := toInt_sub_neg (Int.not_lt.mp hfits)
    omega

end Words

/-- A granted request keeps the bounds exactly when it is moderate. -/
theorem withinBounds_moved_iff {total : Fin m → Int64} {b : BankersState n m} {procIdx : Fin n}
    {request : Fin m → Int64} (hb : WithinBounds total b) (h : Grantable b procIdx request) :
    WithinBounds total (moved b procIdx request) ↔ Moderate total b procIdx request := by
  have hneed := hb.need.effect (.granted procIdx request h)
  have hallocation : ∀ j, (0 ≤ b.allocation procIdx j + request j ∧
      b.allocation procIdx j + request j ≤ b.max procIdx j) ↔
        -(b.allocation procIdx j).toInt ≤ (request j).toInt := by
    intro j
    obtain ⟨hzero, hmax⟩ := hb.allocation procIdx j
    exact allocation_bounds_iff hzero hmax (hb.need procIdx j ▸ h.1 j)
  have havailable := fun j => available_bounds_iff (total j) (h.2.1 j)
  constructor
  · intro hmoved j
    have hself := hmoved.allocation procIdx j
    rw [show (moved b procIdx request).allocation procIdx j =
      b.allocation procIdx j + request j from if_pos rfl] at hself
    exact ⟨(hallocation j).mp hself, (havailable j).mp (hmoved.available j)⟩
  · intro hmoderate
    refine ⟨fun i j => ?_, hneed, fun j => (havailable j).mpr (hmoderate j).2⟩
    by_cases hi : i = procIdx
    · subst hi
      rw [show (moved b i request).allocation i j = b.allocation i j + request j from if_pos rfl]
      exact (hallocation j).mpr (hmoderate j).1
    · rw [show (moved b procIdx request).allocation i j = b.allocation i j from if_neg hi]
      exact hb.allocation i j

/-- The requests of a run are calls of it. -/
theorem afterRequests_eq_run (b : BankersState n m) (calls : List (Fin n × (Fin m → Int64))) :
    afterRequests b calls = b.run (calls.map fun c => .request c.1 c.2) := by
  unfold afterRequests BankersState.run
  rw [List.foldlM_map]
  rfl

/-- **The bounds are kept exactly as long as every granted request is moderate.**  From a state
within its bounds, all states that a run of requests goes through are within them exactly when
every request of the run that is granted takes no more out of an allocation than is there and
gives back no more than is missing from the total.  Neither is checked: a negative request
passes both tests of the code. -/
theorem bounds_kept_iff (total : Fin m → Int64) (b : BankersState n m) (hb : WithinBounds total b)
    (calls : List (Fin n × (Fin m → Int64))) :
    (∀ done, done <+: calls → ∃ b', afterRequests b done = some b' ∧ WithinBounds total b') ↔
      ∀ done c, done ++ [c] <+: calls → ∀ b', afterRequests b done = some b' →
        Grantable b' c.1 c.2 → Moderate total b' c.1 c.2 := by
  refine always_iff_clean _ (fun done c => ∀ b', afterRequests b done = some b' →
    Grantable b' c.1 c.2 → Moderate total b' c.1 c.2) ⟨b, rfl, hb⟩ ?_ calls
  rintro done ⟨procIdx, request⟩ ⟨mid, hrun, hmid⟩
  rw [afterRequests_eq_run] at hrun ⊢
  obtain ⟨b', hcall, heff⟩ := call_bankerEffect mid (.request procIdx request)
  have hnext : b.run ((done ++ [(procIdx, request)]).map fun c => .request c.1 c.2) = some b' := by
    rw [List.map_append, List.map_singleton, bankerRun_concat hrun, hcall]
  simp only [hnext, afterRequests_eq_run, hrun, Option.some.injEq, exists_eq_left', forall_eq']
  cases heff with
  | granted _ _ h => rw [withinBounds_moved_iff hmid h, imp_iff_right h]
  | refused _ _ h => exact iff_of_true hmid fun hgrant => absurd hgrant h

/-- One process and one resource, of which there are three: the process claims them all and
holds none. -/
def claimedState : BankersState 1 1 where
  resourceNames := fun _ => "R"
  available := fun _ => 3
  max := fun _ _ => 3
  allocation := fun _ _ => 0
  need := fun _ _ => 3

theorem withinBounds_claimedState : WithinBounds (fun _ => 3) claimedState where
  allocation := by decide
  need := by
    unfold NeedOk
    decide
  available := by decide

theorem bounds_kept_iff_claimedState :
    WithinBounds (fun _ => 3) claimedState ∧
      ∀ done, done <+: [((0 : Fin 1), fun _ : Fin 1 => (2 : Int64))] →
        ∃ b', afterRequests claimedState done = some b' ∧ WithinBounds (fun _ => 3) b' := by
  refine ⟨withinBounds_claimedState,
    (bounds_kept_iff (fun _ => 3) claimedState withinBounds_claimedState _).mpr ?_⟩
  intro done c hpre b' hrun _ j
  cases done with
  | nil =>
    obtain ⟨rfl, -⟩ := List.cons_prefix_cons.mp hpre
    obtain rfl := Option.some.inj hrun
    exact ⟨by decide +revert, by decide +revert⟩
  | cons d done =>
    have hlen := hpre.length_le
    simp at hlen

/-- A request for minus one unit is granted, and four of three units are available. -/
theorem bounds_exceeded :
    (afterRequests claimedState [(0, fun _ => -1)]).map (fun b => b.available 0) = some 4 ∧
      ¬ (4 : Int64) ≤ 3 := by
  exact ⟨by decide, by decide⟩

end OsSimulator.Analysis
