import OsSimulator.Analysis.BankerSafety

/-!
# Requests to the banker

`RequestResources` grants a request exactly when it is within the need of the process and the
available resources and the state with the request moved is safe; otherwise the state is as
before, also where the request was already moved and is rolled back.  All sums are those of
machine integers, and the rollback undoes them exactly even where they wrap around.

* `checkSafeState_stops`: the safety check stops on every state, with or without overflow.
* `request_atomic`: one request, and the safety of every state that requests lead to.
-/

set_option autoImplicit false

namespace OsSimulator.Analysis

open Model Model.BankersState

variable {n m : ℕ}

/-! ## The specification -/

/-- `CheckSafeState` answers `true`. -/
def IsSafe (b : BankersState n m) : Prop := ∃ r, b.checkSafeState = some r ∧ r.isSafe = true

/-- The state with the request moved from `Available` and from the need of the process to its
allocation. -/
def moved (b : BankersState n m) (procIdx : Fin n) (request : Fin m → Int64) : BankersState n m :=
  { b with
    available := fun j => b.available j - request j
    allocation := fun i j => if i = procIdx then b.allocation i j + request j else b.allocation i j
    need := fun i j => if i = procIdx then b.need i j - request j else b.need i j }

/-- When a request is granted. -/
def Grantable (b : BankersState n m) (procIdx : Fin n) (request : Fin m → Int64) : Prop :=
  (∀ j, request j ≤ b.need procIdx j) ∧ (∀ j, request j ≤ b.available j) ∧
    IsSafe (moved b procIdx request)

/-- A request is granted when it can be, with the moved state; otherwise nothing changes. -/
structure Answered (b : BankersState n m) (procIdx : Fin n) (request : Fin m → Int64)
    (r : RequestResult n m) : Prop where
  granted_iff : r.granted = true ↔ Grantable b procIdx request
  granted_state : r.granted = true → r.state = moved b procIdx request
  refused_state : r.granted = false → r.state = b

/-- The state after a sequence of requests. -/
def afterRequests (b : BankersState n m) (calls : List (Fin n × (Fin m → Int64))) :
    Option (BankersState n m) :=
  calls.foldlM (fun b c => (b.requestResources c.1 c.2).map RequestResult.state) b

/-! ## The safety check stops -/

/-- With a round of fuel for every missing process and one more the loop stops, on any state. -/
theorem safetyLoop_stops (b : BankersState n m) (fuel : ℕ) (s : Safety n m)
    (hfinish : ∀ i, i ∈ s.safeSeq → s.finish i = true) (hnodup : s.safeSeq.Nodup)
    (hfuel : n < fuel + s.safeSeq.length) : ∃ r, b.safetyLoop fuel s = some r := by
  induction fuel generalizing s with
  | zero =>
    have hlen := hnodup.length_le_card
    rw [Fintype.card_fin] at hlen
    omega
  | succ fuel ih =>
    unfold safetyLoop
    by_cases hlt : s.safeSeq.length < n
    · rw [if_pos hlt]
      cases hfirst : b.firstRunnable s with
      | none => exact ⟨_, rfl⟩
      | some i =>
        have hnew := List.find?_some hfirst
        simp only [Bool.and_eq_true, Bool.not_eq_true'] at hnew
        have hi : i ∉ s.safeSeq := by
          intro hmem
          rw [hfinish i hmem] at hnew
          cases hnew.1
        refine ih (b.release s i) ?_ ?_ ?_
        · intro k hk
          show Function.update s.finish i true k = true
          by_cases hki : k = i
          · rw [hki, Function.update_self]
          · rw [Function.update_of_ne hki]
            rcases List.mem_append.mp hk with hk | hk
            · exact hfinish k hk
            · exact absurd (List.mem_singleton.mp hk) hki
        · exact List.nodup_append.mpr ⟨hnodup, List.nodup_singleton i, by
            rintro x hx y hy rfl
            exact hi (List.mem_singleton.mp hy ▸ hx)⟩
        · show n < fuel + (s.safeSeq ++ [i]).length
          rw [List.length_append, List.length_singleton]
          omega
    · rw [if_neg hlt]
      exact ⟨_, rfl⟩

/-- **`CheckSafeState` stops on every state.** -/
theorem checkSafeState_stops (b : BankersState n m) : ∃ r, b.checkSafeState = some r :=
  safetyLoop_stops b (n + 1) b.initialSafety (fun i hi => by cases hi) List.nodup_nil (by omega)

/-! ## One request -/

theorem exceeds_eq_false_iff {request limit : Fin m → Int64} :
    exceeds request limit = false ↔ ∀ j, request j ≤ limit j := by
  unfold exceeds
  rw [List.any_eq_false]
  simp only [List.mem_finRange, true_implies, decide_eq_true_eq, gt_iff_lt, Int64.not_lt]

theorem update_row (M : Fin n → Fin m → Int64) (procIdx : Fin n) (v : Fin m → Int64) :
    Function.update M procIdx v = fun i j => if i = procIdx then v j else M i j := by
  funext i j
  by_cases hi : i = procIdx
  · rw [hi, Function.update_self, if_pos rfl]
  · rw [Function.update_of_ne hi, if_neg hi]

variable (b : BankersState n m) (procIdx : Fin n) (request : Fin m → Int64)

theorem allocate_eq_moved : b.allocate procIdx request = moved b procIdx request := by
  have hrow : ∀ (M : Fin n → Fin m → Int64) (f : Int64 → Int64 → Int64) i j,
      (if i = procIdx then f (M procIdx j) (request j) else M i j) =
        if i = procIdx then f (M i j) (request j) else M i j := by
    intro M f i j
    split_ifs with hi
    · rw [hi]
    · rfl
  unfold allocate moved
  rw [update_row, update_row]
  simp only [hrow b.allocation (· + ·), hrow b.need (· - ·)]

/-- **The rollback is exact**, also where the sums wrap around. -/
theorem rollback_allocate : (b.allocate procIdx request).rollback procIdx request = b := by
  unfold allocate rollback
  dsimp only
  simp only [Function.update_self, Function.update_idem, Int64.sub_add_cancel, Int64.add_sub_cancel,
    Function.update_eq_self]

theorem requestResources_answered :
    ∃ r, b.requestResources procIdx request = some r ∧ Answered b procIdx request r := by
  have hrefused : ∀ message, ¬ Grantable b procIdx request →
      Answered b procIdx request ⟨false, message, b⟩ := fun message hno =>
    ⟨iff_of_false Bool.false_ne_true hno, fun h => absurd h Bool.false_ne_true, fun _ => rfl⟩
  unfold requestResources
  cases hneed : exceeds request (b.need procIdx) with
  | true =>
    rw [if_pos rfl]
    refine ⟨_, rfl, hrefused _ fun h => ?_⟩
    rw [exceeds_eq_false_iff.mpr h.1] at hneed
    cases hneed
  | false =>
    rw [if_neg Bool.false_ne_true]
    cases havailable : exceeds request b.available with
    | true =>
      rw [if_pos rfl]
      refine ⟨_, rfl, hrefused _ fun h => ?_⟩
      rw [exceeds_eq_false_iff.mpr h.2.1] at havailable
      cases havailable
    | false =>
      rw [if_neg Bool.false_ne_true]
      obtain ⟨r, hr⟩ := checkSafeState_stops (b.allocate procIdx request)
      have hsafe : IsSafe (moved b procIdx request) ↔ r.isSafe = true := by
        rw [IsSafe, ← allocate_eq_moved, hr]
        constructor
        · rintro ⟨r', hr', h⟩
          rwa [Option.some.inj hr']
        · exact fun h => ⟨r, rfl, h⟩
      have hgrant : Grantable b procIdx request ↔ r.isSafe = true := by
        unfold Grantable
        rw [hsafe, and_iff_right (exceeds_eq_false_iff.mp hneed),
          and_iff_right (exceeds_eq_false_iff.mp havailable)]
      rw [hr, Option.map_some]
      refine ⟨_, rfl, ?_⟩
      cases hverdict : r.isSafe with
      | false =>
        rw [rollback_allocate]
        exact hrefused _ (by rw [hgrant, hverdict]; exact Bool.false_ne_true)
      | true =>
        exact ⟨iff_of_true rfl (hgrant.mpr hverdict), fun _ => allocate_eq_moved ..,
          fun h => absurd h (by simp)⟩

/-! ## Sequences of requests -/

/-- A request keeps the state safe. -/
theorem Answered.isSafe {b : BankersState n m} {procIdx : Fin n} {request : Fin m → Int64}
    {r : RequestResult n m} (h : Answered b procIdx request r) (hb : IsSafe b) : IsSafe r.state := by
  cases hgranted : r.granted with
  | true =>
    rw [h.granted_state hgranted]
    exact (h.granted_iff.mp hgranted).2.2
  | false =>
    rw [h.refused_state hgranted]
    exact hb

theorem afterRequests_isSafe {b : BankersState n m} (hb : IsSafe b)
    (calls : List (Fin n × (Fin m → Int64))) :
    ∃ b', afterRequests b calls = some b' ∧ IsSafe b' := by
  induction calls generalizing b with
  | nil => exact ⟨b, rfl, hb⟩
  | cons c calls ih =>
    obtain ⟨r, hr, hanswered⟩ := requestResources_answered b c.1 c.2
    obtain ⟨b', hrun, hsafe⟩ := ih (hanswered.isSafe hb)
    refine ⟨b', ?_, hsafe⟩
    unfold afterRequests
    rw [List.foldlM_cons, hr]
    exact hrun

/-- **Requests are atomic and keep the system safe.**
SOURCE: pkg/concurrency/deadlock_banker.go:110-145 -/
theorem request_atomic (b : BankersState n m) :
    (∀ procIdx request, ∃ r, b.requestResources procIdx request = some r ∧
      Answered b procIdx request r) ∧
    (IsSafe b → ∀ calls, ∃ b', afterRequests b calls = some b' ∧ IsSafe b') :=
  ⟨requestResources_answered b, fun hb calls => afterRequests_isSafe hb calls⟩

/-- The textbook state is safe, and stays so when process `1` asks for `(1, 0, 2)` and process `0`
for `(0, 2, 0)`.
SOURCE: pkg/concurrency/deadlock_test.go:33-37 -/
theorem request_atomic_textbookState :
    IsSafe textbookState ∧
      ∃ b', afterRequests textbookState [(1, ![1, 0, 2]), (0, ![0, 2, 0])] = some b' ∧ IsSafe b' := by
  have hsafe : textbookState.checkSafeState.map SafetyResult.isSafe = some true := by decide
  obtain ⟨r, hr, htrue⟩ := Option.map_eq_some_iff.mp hsafe
  exact ⟨⟨r, hr, htrue⟩, (request_atomic textbookState).2 ⟨r, hr, htrue⟩ _⟩

end OsSimulator.Analysis
