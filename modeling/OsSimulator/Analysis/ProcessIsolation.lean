import OsSimulator.Analysis.ProcessLifecycle
import Mathlib.Data.Int.ModEq

/-!
# Memory isolation between processes

The physical base of a child is the base of its parent plus `0x10000` times the child's PID,
and every address space has `0x10000` bytes.  So physical memory is cut into slots, and the
slot of a process is 16 plus the sum of the PIDs along the chain of forks that leads to it
(`forkSum`).  Two processes share their memory exactly when these sums agree modulo `2 ^ 48`
(`spacesDisjoint_iff`), as `2 + 3` and `5` do.

A page table has at most one valid entry, mapped by `Exec` to frame `20 * pid` and moved on by
`10 * pid` with every fork.  A tenth of the frame number is again a sum of PIDs (`imageSum`),
and two processes share a frame exactly when these sums agree modulo `2 ^ 63`
(`framesDisjoint_iff`).
-/

set_option autoImplicit false

namespace OsSimulator.Analysis

open Model Interface

/-! ## What a process inherits -/

section Inherited

variable {α : Type} (start : α) (onFork onExec : ℤ → α → α)

/-- One call's part in `inherited`: a child gets its value from the value of its parent. -/
def inheritStep (pm : ProcessManager) (c : ProcCall) (value : ℤ → α) : ℤ → α :=
  match c with
  | .fork parentPID => Function.update value pm.nextPID (onFork pm.nextPID (value parentPID))
  | .exec pid _ _ => Function.update value pid (onExec pid (value pid))
  | .exit _ _ => value
  | .wait _ => value

/-- A value that init starts with, that is passed on to every child and changed by `Exec`:
it depends on the calls only. -/
def inherited (calls : List ProcCall) : ℤ → α :=
  (calls.foldl (fun s c => ((s.1.call c).2, inheritStep onFork onExec s.1 c s.2))
    (newProcessManager, fun _ => start)).2

theorem foldl_inherit_fst (calls : List ProcCall) (pm : ProcessManager) (value : ℤ → α) :
    (calls.foldl (fun s c => ((s.1.call c).2, inheritStep onFork onExec s.1 c s.2))
      (pm, value)).1 = (pm.runCalls calls).2 := by
  induction calls generalizing pm value with
  | nil => rfl
  | cons c calls ih => exact ih (pm.call c).2 _

theorem inherited_concat (calls : List ProcCall) (c : ProcCall) :
    inherited start onFork onExec (calls ++ [c]) =
      inheritStep onFork onExec (newProcessManager.runCalls calls).2 c
        (inherited start onFork onExec calls) := by
  unfold inherited
  rw [List.foldl_append, List.foldl_cons, List.foldl_nil, foldl_inherit_fst]

variable {start onFork onExec}

/-- **The rule for inherited values**: a relation between the value and the PCB that holds of
init and is kept by `Fork` and `Exec` holds of every live process after every run. -/
theorem inherited_run {R : α → UnixProcess → Prop} (hinit : R start initProc)
    (hfork : ∀ a childPID parentPID parent parentAS, R a parent →
      parent.addressSpace = some parentAS →
        R (onFork childPID a) (childOf childPID parentPID parent parentAS))
    (hexec : ∀ a pid binaryName args proc oldAS, R a proc → proc.addressSpace = some oldAS →
      R (onExec pid a) (execedProc pid binaryName args proc oldAS))
    (hbody : ∀ a p q, SameBody p q → R a p → R a q) (calls : List ProcCall) :
    ∀ pid p, (newProcessManager.runCalls calls).2.processes pid = some p → p.state ≠ .zombie →
      R (inherited start onFork onExec calls pid) p := by
  refine (runCalls_induction (P := fun calls _ pm => ∀ pid p, pm.processes pid = some p →
    p.state ≠ .zombie → R (inherited start onFork onExec calls pid) p) ?_ ?_ calls).2
  · intro pid p hp _
    rw [processes_new] at hp
    split at hp
    · obtain rfl := Option.some.inj hp
      exact hinit
    · cases hp
  · intro calls outs pm c o pm' hrun hpm hR heffect x q hx hlive
    rw [inherited_concat, hrun]
    cases procChange_of_effect hpm heffect hx with
    | kept hp hsame hc =>
      rename_i p
      have hvalue : inheritStep onFork onExec pm c (inherited start onFork onExec calls) x =
          inherited start onFork onExec calls x := by
        have hxn : x ≠ pm.nextPID := (hpm.procs x p hp).lt_next.ne
        cases c with
        | fork parentPID => simp [inheritStep, hxn]
        | exec pid binaryName args =>
          have hxp : x ≠ pid := fun heq => hc binaryName args (heq ▸ rfl)
          simp [inheritStep, hxp]
        | exit pid exitCode => rfl
        | wait parentPID => rfl
      rw [hvalue]
      exact hbody _ p q hsame (hR x p hp (hsame.state ▸ hlive))
    | forked hc hx hp has hq =>
      subst hc hx hq
      have hparent := hR _ _ hp (hpm.live_of_space hp has)
      simpa [inheritStep] using hfork _ pm.nextPID _ _ _ hparent has
    | execed hc hp has hq =>
      subst hc hq
      have hproc := hR x _ hp (hpm.live_of_space hp has)
      simpa [inheritStep] using hexec _ x _ _ _ _ hproc has
    | dead hz => exact absurd hz hlive

end Inherited

/-! ## Words -/

theorem ofInt_eq_ofInt_iff (x y : ℤ) :
    UInt64.ofInt x = UInt64.ofInt y ↔ x ≡ y [ZMOD 2 ^ 64] := by
  rw [← UInt64.toNat_inj]
  simp only [UInt64.ofInt, UInt64.toNat_ofNat', Int.ModEq]
  omega

theorem ofInt_add_word (x : ℤ) (v : UInt64) :
    UInt64.ofInt x + v = UInt64.ofInt (x + v.toNat) := by
  have hv := v.toNat_lt
  rw [UInt64.ofInt_add]
  congr 1
  rw [← UInt64.toNat_inj]
  simp only [UInt64.ofInt, UInt64.toNat_ofNat']
  omega

/-- Two slots of `0x10000` bytes meet only when they are the same slot. -/
theorem slots_meet_iff (s t : ℤ) :
    (∃ v w : UInt64, v < 0x10000 ∧ w < 0x10000 ∧
      UInt64.ofInt (0x10000 * (16 + s)) + v = UInt64.ofInt (0x10000 * (16 + t)) + w) ↔
        s ≡ t [ZMOD 2 ^ 48] := by
  constructor
  · rintro ⟨v, w, hv, hw, heq⟩
    have hv' : v.toNat < 65536 := hv
    have hw' : w.toNat < 65536 := hw
    rw [ofInt_add_word, ofInt_add_word, ofInt_eq_ofInt_iff] at heq
    unfold Int.ModEq at heq ⊢
    omega
  · intro h
    refine ⟨0, 0, by decide, by decide, ?_⟩
    rw [ofInt_add_word, ofInt_add_word, ofInt_eq_ofInt_iff]
    unfold Int.ModEq at h ⊢
    simp only [UInt64.toNat_zero]
    omega

/-- Frames of different images are different frames: 10 is twice an odd number. -/
theorem frames_eq_iff (s t : ℤ) :
    UInt64.ofInt (10 * s) = UInt64.ofInt (10 * t) ↔ s ≡ t [ZMOD 2 ^ 63] := by
  rw [ofInt_eq_ofInt_iff]
  constructor
  · intro h
    exact Int.ModEq.cancel_left_div_gcd (by decide) h
  · intro h
    have htwice : 2 * s ≡ 2 * t [ZMOD 2 * 2 ^ 63] := h.mul_left'
    have htimes := htwice.mul_left 5
    rwa [← Int.mul_assoc, ← Int.mul_assoc] at htimes

/-! ## Base and bounds -/

/-- No two live processes translate to the same physical address. -/
def SpacesDisjoint (pm : ProcessManager) : Prop :=
  ∀ pid qid p q, pid ≠ qid → Live pm pid p → Live pm qid q →
    ∀ as bs, p.addressSpace = some as → q.addressSpace = some bs →
      ∀ v w a b, as.translateBaseAndBounds v = .ok a → bs.translateBaseAndBounds w = .ok b → a ≠ b

/-- The sum of the PIDs along the chain of forks that has led to a process: its own PID and
those of its ancestors, init left out. -/
def forkSum (calls : List ProcCall) : ℤ → ℤ :=
  inherited 0 (fun childPID sum => sum + childPID) (fun _ sum => sum) calls

/-- The address space fills the slot that belongs to the sum. -/
def FillsSlot (sum : ℤ) (p : UnixProcess) : Prop :=
  ∀ as, p.addressSpace = some as →
    as.totalSize = 0x10000 ∧ as.physicalBase = UInt64.ofInt (0x10000 * (16 + sum))

theorem fillsSlot_run (calls : List ProcCall) (pid : ℤ) (p : UnixProcess)
    (hp : Live (newProcessManager.runCalls calls).2 pid p) : FillsSlot (forkSum calls pid) p := by
  refine inherited_run (R := FillsSlot) ?_ ?_ ?_ ?_ calls pid p hp.1 hp.2
  · rintro as ⟨⟩
    exact ⟨by decide, by decide⟩
  · rintro sum childPID parentPID parent parentAS hparent has as ⟨⟩
    obtain ⟨hsize, hbase⟩ := hparent parentAS has
    refine ⟨by simp [newAddressSpace, hsize], ?_⟩
    simp only [newAddressSpace, hbase, ← UInt64.ofInt_add]
    congr 1
    omega
  · rintro sum pid binaryName args proc oldAS hproc has as ⟨⟩
    exact ⟨rfl, (hproc oldAS has).2⟩
  · intro sum p q hsame hfills as has
    exact hfills as (hsame.addressSpace ▸ has)

theorem translate_ok_iff {as : AddressSpace} {v a : UInt64} :
    as.translateBaseAndBounds v = .ok a ↔ v < as.totalSize ∧ as.physicalBase + v = a := by
  unfold AddressSpace.translateBaseAndBounds
  split
  · rename_i h
    simp [UInt64.not_lt.mpr h]
  · rename_i h
    simp [UInt64.not_le.mp h]

/-- **When address spaces are isolated**: after a run, no two live processes share a physical
address exactly when no two of them have the same sum of PIDs along their forks, modulo
`2 ^ 48`. -/
theorem spacesDisjoint_iff (calls : List ProcCall) :
    SpacesDisjoint (newProcessManager.runCalls calls).2 ↔
      ∀ pid qid p q, pid ≠ qid → Live (newProcessManager.runCalls calls).2 pid p →
        Live (newProcessManager.runCalls calls).2 qid q →
          ¬ forkSum calls pid ≡ forkSum calls qid [ZMOD 2 ^ 48] := by
  have hpm := tableOk_run calls
  have hspace : ∀ pid p, Live (newProcessManager.runCalls calls).2 pid p →
      ∃ as, p.addressSpace = some as := by
    intro pid p hp
    rw [← Option.ne_none_iff_exists', Ne, (hpm.procs pid p hp.1).space]
    exact hp.2
  constructor
  · intro hdisjoint pid qid p q hne hp hq hsum
    obtain ⟨as, has⟩ := hspace pid p hp
    obtain ⟨bs, hbs⟩ := hspace qid q hq
    obtain ⟨hsize, hbase⟩ := fillsSlot_run calls pid p hp as has
    obtain ⟨hsize', hbase'⟩ := fillsSlot_run calls qid q hq bs hbs
    obtain ⟨v, w, hv, hw, heq⟩ := (slots_meet_iff _ _).mpr hsum
    refine hdisjoint pid qid p q hne hp hq as bs has hbs v w _ _
      (translate_ok_iff.mpr ⟨hsize ▸ hv, rfl⟩) (translate_ok_iff.mpr ⟨hsize' ▸ hw, rfl⟩) ?_
    rw [hbase, hbase', heq]
  · intro hsums pid qid p q hne hp hq as bs has hbs v w a b ha hb hab
    obtain ⟨hsize, hbase⟩ := fillsSlot_run calls pid p hp as has
    obtain ⟨hsize', hbase'⟩ := fillsSlot_run calls qid q hq bs hbs
    obtain ⟨hv, rfl⟩ := translate_ok_iff.mp ha
    obtain ⟨hw, rfl⟩ := translate_ok_iff.mp hb
    refine hsums pid qid p q hne hp hq ((slots_meet_iff _ _).mp ⟨v, w, hsize ▸ hv, hsize' ▸ hw, ?_⟩)
    rw [← hbase, ← hbase', hab]

/-- Process 3 is a child of process 2, process 5 a child of init: both start at `0x150000`. -/
theorem spacesDisjoint_fails_grandchild :
    ¬ SpacesDisjoint (newProcessManager.runCalls [.fork 1, .fork 2, .fork 1, .fork 1]).2 := by
  intro h
  exact h 3 5 _ _ (by decide) ⟨rfl, by decide⟩ ⟨rfl, by decide⟩ _ _ rfl rfl 0 0 0x150000 0x150000
    (by rfl) (by rfl) rfl

/-! ## Page tables -/

/-- No two live processes map the same frame. -/
def FramesDisjoint (pm : ProcessManager) : Prop :=
  ∀ pid qid p q, pid ≠ qid → Live pm pid p → Live pm qid q →
    ∀ e ∈ p.pageTable.entries, e.valid = true →
      ∀ f ∈ q.pageTable.entries, f.valid = true → e.pfn ≠ f.pfn

/-- Twice the PID of the process that made the image by `Exec`, plus the PIDs of the processes
it was forked to since then; `none` for an image that nobody has executed. -/
def imageSum (calls : List ProcCall) : ℤ → Option ℤ :=
  inherited none (fun childPID sum => sum.map (· + childPID)) (fun pid _ => some (2 * pid)) calls

/-- The page table maps the one frame that belongs to the sum. -/
def MapsImage (sum : Option ℤ) (p : UnixProcess) : Prop :=
  p.pageTable.entries = match sum with
    | none => List.replicate 16 {}
    | some sum =>
      { valid := true, present := true, readWrite := true, pfn := UInt64.ofInt (10 * sum) } ::
        List.replicate 15 {}

theorem mapsImage_run (calls : List ProcCall) (pid : ℤ) (p : UnixProcess)
    (hp : Live (newProcessManager.runCalls calls).2 pid p) : MapsImage (imageSum calls pid) p := by
  refine inherited_run (R := MapsImage) ?_ ?_ ?_ ?_ calls pid p hp.1 hp.2
  · exact (rfl : initProc.pageTable.entries = List.replicate 16 {})
  · intro sum childPID parentPID parent parentAS hparent _
    unfold MapsImage at hparent ⊢
    cases sum with
    | none => simp [childOf, ProcessManager.forkedChild, hparent, cloneEntry]
    | some sum =>
      have hpfn : UInt64.ofInt (10 * sum) + UInt64.ofInt (childPID * 10) =
          UInt64.ofInt (10 * (sum + childPID)) := by
        rw [← UInt64.ofInt_add]
        congr 1
        omega
      simp only [childOf, ProcessManager.forkedChild, hparent, List.map_cons, List.map_replicate,
        cloneEntry, if_true, hpfn, Option.map_some]
      rfl
  · intro sum pid binaryName args proc oldAS _ _
    have hpid : pid * 20 = 10 * (2 * pid) := by omega
    simp [MapsImage, execedProc, hpid]
  · intro sum p q hsame hmaps
    unfold MapsImage at hmaps ⊢
    rw [hsame.pageTable, hmaps]

/-- The valid entries of such a page table. -/
theorem MapsImage.valid_iff {sum : Option ℤ} {p : UnixProcess} (h : MapsImage sum p)
    (pfn : UInt64) :
    (∃ e ∈ p.pageTable.entries, e.valid = true ∧ e.pfn = pfn) ↔
      ∃ a, sum = some a ∧ UInt64.ofInt (10 * a) = pfn := by
  unfold MapsImage at h
  rw [h]
  cases sum <;> simp

/-- **When page tables are isolated**: after a run, no two live processes map the same frame
exactly when no two of them have images with the same sum, modulo `2 ^ 63`. -/
theorem framesDisjoint_iff (calls : List ProcCall) :
    FramesDisjoint (newProcessManager.runCalls calls).2 ↔
      ∀ pid qid p q, pid ≠ qid → Live (newProcessManager.runCalls calls).2 pid p →
        Live (newProcessManager.runCalls calls).2 qid q →
          ∀ a b, imageSum calls pid = some a → imageSum calls qid = some b →
            ¬ a ≡ b [ZMOD 2 ^ 63] := by
  constructor
  · intro hdisjoint pid qid p q hne hp hq a b ha hb hab
    obtain ⟨e, he, hev, hepfn⟩ :=
      ((mapsImage_run calls pid p hp).valid_iff _).mpr ⟨a, ha, rfl⟩
    obtain ⟨f, hf, hfv, hfpfn⟩ :=
      ((mapsImage_run calls qid q hq).valid_iff _).mpr ⟨b, hb, rfl⟩
    refine hdisjoint pid qid p q hne hp hq e he hev f hf hfv ?_
    rw [hepfn, hfpfn]
    exact (frames_eq_iff a b).mpr hab
  · intro hsums pid qid p q hne hp hq e he hev f hf hfv hef
    obtain ⟨a, ha, hae⟩ := ((mapsImage_run calls pid p hp).valid_iff e.pfn).mp ⟨e, he, hev, rfl⟩
    obtain ⟨b, hb, hbf⟩ := ((mapsImage_run calls qid q hq).valid_iff f.pfn).mp ⟨f, hf, hfv, rfl⟩
    refine hsums pid qid p q hne hp hq a b ha hb ((frames_eq_iff a b).mp ?_)
    rw [hae, hbf, hef]

/-- Init executes a program and forks process 4, which gets frame `20 + 40`; process 3 executes
one itself and gets frame `60`. -/
theorem framesDisjoint_fails_exec :
    ¬ FramesDisjoint (newProcessManager.runCalls
      [.exec 1 "sh" [], .fork 1, .fork 1, .fork 1, .exec 3 "ls" []]).2 := by
  intro h
  exact h 4 3 _ _ (by decide) ⟨rfl, by decide⟩ ⟨rfl, by decide⟩ _ List.mem_cons_self rfl _
    List.mem_cons_self rfl rfl

end OsSimulator.Analysis
