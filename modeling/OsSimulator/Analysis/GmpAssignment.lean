import OsSimulator.Analysis.GmpThreads

/-!
# The assignment fields of goroutines

`AssignedM` and `AssignedP` are entered when a goroutine is dispatched, and nothing clears them
again.  Before its first dispatch a goroutine has the fields of a new one, and while it runs
they name its thread and its processor; in a system call, after it and when it is done, they
still name those of the last dispatch (`AssignInv`).  So the fields tell the truth exactly as
long as every goroutine runs or waits for its first dispatch (`assignment_truthful_iff`).
-/

set_option autoImplicit false

namespace OsSimulator.Analysis

open Model Interface Library

/-! ## What the fields should say -/

/-- The goroutine runs at the thread with MID `m`, which is bound to the processor with
PID `p`. -/
def RunsAt (rt : GMPRuntime) (g m p : ℕ) : Prop :=
  (rt.gs g).status = .running ∧ ∃ i < rt.numMs, ∃ j < rt.numPs, (rt.ms i).mid = m ∧
    (rt.ms i).curG = some g ∧ (rt.ms i).boundP = some j ∧ (rt.ps j).pid = p

structure Truthful (rt : GMPRuntime) : Prop where
  assigned_iff : ∀ g < rt.gCount, ∀ m p : ℕ,
    (rt.gs g).assignedM = m ∧ (rt.gs g).assignedP = p ↔ RunsAt rt g m p
  unassigned : ∀ g < rt.gCount, (rt.gs g).status ≠ .running →
    (rt.gs g).assignedM = -1 ∧ (rt.gs g).assignedP = -1

/-- The goroutine waits for its first dispatch: a goroutine comes back to a queue only from its
system call, which has taken three ticks. -/
def Fresh (g : Goroutine) : Prop := g.status = .runnable ∧ g.syscallTicks = 0

/-! ## What they say -/

/-- The fields name the thread `m` and the processor `p`. -/
def Names (g : Goroutine) (m p : ℕ) : Prop := g.assignedM = m ∧ g.assignedP = p

structure AssignInv (rt : GMPRuntime) : Prop where
  mid_eq : ∀ m < rt.numMs, (rt.ms m).mid = m
  fresh : ∀ g < rt.gCount, Fresh (rt.gs g) →
    (rt.gs g).assignedM = -1 ∧ (rt.gs g).assignedP = -1
  used : ∀ g < rt.gCount, ¬ Fresh (rt.gs g) → ∃ m p, Names (rt.gs g) m p
  running : ∀ m p g, (rt.ms m).curG = some g → (rt.ms m).boundP = some p →
    Names (rt.gs g) m p

/-- The goroutine has the same fields and is fresh or not as before. -/
structure SameFields (x y : Goroutine) : Prop where
  assignedM_eq : y.assignedM = x.assignedM
  assignedP_eq : y.assignedP = x.assignedP
  fresh_iff : Fresh y ↔ Fresh x

theorem SameFields.refl (x : Goroutine) : SameFields x x := ⟨rfl, rfl, .rfl⟩

theorem not_fresh (status : GoroutineStatus) {x : Goroutine} (h : x.status = status)
    (hne : status ≠ .runnable) : ¬ Fresh x :=
  fun hfresh => hne (h.symm.trans hfresh.1)

theorem SameFields.of_used {x y : Goroutine} (hM : y.assignedM = x.assignedM)
    (hP : y.assignedP = x.assignedP) (hx : ¬ Fresh x) (hy : ¬ Fresh y) : SameFields x y :=
  ⟨hM, hP, iff_of_false hy hx⟩

section Moves

variable {rt rt' : GMPRuntime} {p m g : ℕ}

/-- The invariant where no goroutine is dispatched. -/
theorem AssignInv.kept (h : AssignInv rt) (hgCount : rt'.gCount = rt.gCount)
    (hfields : ∀ x, SameFields (rt.gs x) (rt'.gs x)) (hmid : ∀ n < rt'.numMs, (rt'.ms n).mid = n)
    (hcur : ∀ n x q, (rt'.ms n).curG = some x → (rt'.ms n).boundP = some q →
      (rt.ms n).curG = some x ∧ (rt.ms n).boundP = some q) : AssignInv rt' := by
  refine ⟨hmid, ?_, ?_, ?_⟩
  · intro x hx hfresh
    rw [(hfields x).assignedM_eq, (hfields x).assignedP_eq]
    exact h.fresh x (hgCount ▸ hx) ((hfields x).fresh_iff.mp hfresh)
  · intro x hx hused
    obtain ⟨m, p, hm, hp⟩ := h.used x (hgCount ▸ hx) (mt (hfields x).fresh_iff.mpr hused)
    exact ⟨m, p, (hfields x).assignedM_eq.trans hm, (hfields x).assignedP_eq.trans hp⟩
  · intro n q x hx hq
    obtain ⟨hx, hq⟩ := hcur n x q hx hq
    obtain ⟨hm, hp⟩ := h.running n q x hx hq
    exact ⟨(hfields x).assignedM_eq.trans hm, (hfields x).assignedP_eq.trans hp⟩

/-- A turn in which the goroutine keeps its fields and the thread takes none. -/
theorem AssignInv.turn {newG : Goroutine} {newM : OSThread} (h : AssignInv rt)
    (hturn : Turn rt rt' g newG m newM) (hfields : SameFields (rt.gs g) newG)
    (hmid : newM.mid = (rt.ms m).mid)
    (hcur : ∀ x, newM.curG = some x → (rt.ms m).curG = some x) : AssignInv rt' := by
  refine h.kept hturn.gCount_eq (fun x => ?_) (fun n hn => ?_) (fun n x q hx hq => ?_)
  · rw [hturn.gs_eq]
    by_cases hx : x = g
    · rw [hx, Function.update_self]
      exact hfields
    · rw [Function.update_of_ne hx]
      exact SameFields.refl _
  · rw [hturn.numMs_eq] at hn
    rw [hturn.ms_eq]
    by_cases hnm : n = m
    · rw [hnm, Function.update_self, hmid]
      exact h.mid_eq m (hnm ▸ hn)
    · rw [Function.update_of_ne hnm]
      exact h.mid_eq n hn
  · rw [hturn.boundP_eq] at hq
    rw [hturn.ms_eq] at hx
    refine ⟨?_, hq⟩
    by_cases hnm : n = m
    · rw [hnm, Function.update_self] at hx
      rw [hnm]
      exact hcur x hx
    · rwa [Function.update_of_ne hnm] at hx

/-- A dispatch enters the thread and the processor. -/
theorem AssignInv.dispatched (h : AssignInv rt) (hm : m < rt.numMs) (hpid : (rt.ps p).pid = p)
    (hbound : (rt.ms m).boundP = some p) (hqueued : ∀ n, (rt.ms n).curG ≠ some g)
    (hturn : Turn rt rt' g
      { rt.gs g with
        status := .running
        assignedM := (rt.ms m).mid
        assignedP := (rt.ps p).pid }
      m { rt.ms m with curG := some g }) : AssignInv rt' := by
  have hself : Names (rt'.gs g) m p := by
    rw [hturn.gs_eq, Function.update_self]
    exact ⟨congrArg Nat.cast (h.mid_eq m hm), congrArg Nat.cast hpid⟩
  have hused : ¬ Fresh (rt'.gs g) := by
    rw [hturn.gs_eq, Function.update_self]
    exact not_fresh .running rfl (by decide)
  have hother : ∀ x, x ≠ g → rt'.gs x = rt.gs x := fun x hx => by
    rw [hturn.gs_eq, Function.update_of_ne hx]
  refine ⟨fun n hn => ?_, fun x hx hfresh => ?_, fun x hx hused => ?_, fun n q x hx hq => ?_⟩
  · rw [hturn.numMs_eq] at hn
    rw [hturn.ms_eq]
    by_cases hnm : n = m
    · rw [hnm, Function.update_self]
      exact h.mid_eq m hm
    · rw [Function.update_of_ne hnm]
      exact h.mid_eq n hn
  · have hxg : x ≠ g := fun heq => hused (heq ▸ hfresh)
    rw [hother x hxg] at hfresh ⊢
    exact h.fresh x (hturn.gCount_eq ▸ hx) hfresh
  · by_cases hxg : x = g
    · exact ⟨m, p, hxg ▸ hself⟩
    · rw [hother x hxg] at hused ⊢
      exact h.used x (hturn.gCount_eq ▸ hx) hused
  · rw [hturn.boundP_eq] at hq
    rw [hturn.ms_eq] at hx
    by_cases hnm : n = m
    · rw [hnm, Function.update_self] at hx
      obtain rfl := Option.some.inj hx
      rw [hnm, hbound] at hq
      obtain rfl := Option.some.inj hq
      exact hnm ▸ hself
    · -- the goroutines of the other threads are others
      rw [Function.update_of_ne hnm] at hx
      have hxg : x ≠ g := fun heq => hqueued n (heq ▸ hx)
      rw [hother x hxg]
      exact h.running n q x hx hq

theorem AssignInv.calm (h : AssignInv rt) (hmove : CalmMove rt rt') : AssignInv rt' := by
  cases hmove with
  | queues hsame =>
    refine h.kept hsame.gCount_eq (fun x => ?_) (fun n hn => ?_) (fun n x q hx hq => ?_)
    · rw [hsame.gs_eq]
      exact SameFields.refl _
    · rw [hsame.ms_eq]
      exact h.mid_eq n (hsame.numMs_eq ▸ hn)
    · rw [hsame.ms_eq] at hx hq
      exact ⟨hx, hq⟩
  | dispatched hm hpid hbound hlt hqueued hturn => exact h.dispatched hm hpid hbound hqueued hturn
  | worked hbound hcur hstatus hturn =>
    exact h.turn hturn ⟨rfl, rfl, .rfl⟩ rfl fun x hx => hx
  | finished hbound hcur hstatus hturn =>
    refine h.turn hturn (.of_used rfl rfl (not_fresh _ hstatus (by decide)) ?_) rfl
      fun x hx => by cases hx
    exact not_fresh .dead rfl (by decide)

/-- A goroutine that makes its system call keeps the fields. -/
theorem AssignInv.handedOff (h : AssignInv rt) (hrt : GmpInv rt)
    (hmp : (rt.ms m).boundP = some p) (hcur : (rt.ms m).curG = some g)
    (hoff : HandedOff rt p m g rt') : AssignInv rt' := by
  have hrunning := (hrt.running hmp hcur).1
  refine h.kept hoff.gCount_eq (fun x => ?_) (fun n hn => ?_) (fun n x q hx hq => ?_)
  · rw [hoff.gs_eq]
    by_cases hx : x = g
    · rw [hx, Function.update_self]
      exact .of_used rfl rfl (not_fresh _ hrunning (by decide))
        (not_fresh .syscall rfl (by decide))
    · rw [Function.update_of_ne hx]
      exact SameFields.refl _
  · rw [hoff.numMs_eq] at hn
    by_cases hnm : n = m
    · rw [hnm, hoff.old_thread]
      exact h.mid_eq m (hrt.bound m p hmp).1
    · by_cases hnN : n = rt.numMs
      · rw [hnN, hoff.new_thread]
      · rw [hoff.other_threads n hnm hnN]
        exact h.mid_eq n (by omega)
  · by_cases hnm : n = m
    · rw [hnm, hoff.old_thread] at hq
      cases hq
    · by_cases hnN : n = rt.numMs
      · rw [hnN, hoff.new_thread] at hx
        cases hx
      · rw [hoff.other_threads n hnm hnN] at hx hq
        exact ⟨hx, hq⟩

theorem AssignInv.stepP (h : AssignInv rt) (hrt : GmpInv rt) (hp : p < rt.numPs) (tick : ℤ) :
    AssignInv (GMPRuntime.stepP tick rt p) := by
  rcases stepP_cases hrt hp tick with ⟨-, hcalm⟩ | ⟨-, rt₀, m, g, hstill, hinv, -, hmp, hcur, hoff⟩
  · generalize GMPRuntime.stepP tick rt p = rt' at hcalm
    induction hcalm with
    | refl => exact h
    | tail _ hmove ih => exact ih.calm hmove
  · exact (h.calm (.queues hstill.toSameThreads)).handedOff hinv hmp hcur hoff

theorem AssignInv.wake (h : AssignInv rt) (hrt : GmpInv rt) (m : ℕ) : AssignInv (rt.wake m) := by
  cases wake_cases hrt m with
  | idle heq => rwa [heq]
  | waited hblocked hcur _ hturn =>
    have hstatus := (hrt.blocked hblocked hcur).1
    refine h.turn hturn (.of_used rfl rfl (not_fresh _ hstatus (by decide)) ?_) rfl
      fun x hx => hx
    exact not_fresh _ hstatus (by decide)
  | woken hblocked hcur hturn =>
    -- three ticks have passed, so it does not look like a new one
    have hstatus := (hrt.blocked hblocked hcur).1
    refine h.turn hturn (.of_used rfl rfl (not_fresh _ hstatus (by decide)) ?_) rfl
      fun x hx => by cases hx
    exact fun hfresh => Nat.succ_ne_zero 2 hfresh.2

end Moves

/-! ## All runs -/

section Runs

variable {rt : GMPRuntime}

theorem assignInv_new (gomaxprocs : ℤ) (rng : Rand) : AssignInv (newGMPRuntime gomaxprocs rng) := by
  obtain ⟨hinv, -, hnone⟩ := gmpInv_new gomaxprocs rng
  refine ⟨fun m hm => ?_, fun g hg => ?_, fun g hg => ?_, fun m p g hcur hbound => ?_⟩
  · rw [(threads_new gomaxprocs rng).2 m hm]
  · rw [hnone] at hg
    exact absurd hg (Nat.not_lt_zero g)
  · rw [hnone] at hg
    exact absurd hg (Nat.not_lt_zero g)
  · have hlt := hinv.lt_gCount hcur
    rw [hnone] at hlt
    exact absurd hlt (Nat.not_lt_zero g)

/-- A new goroutine has no thread and no processor. -/
theorem AssignInv.enters {rt' : GMPRuntime} {newG : Goroutine} (h : AssignInv rt) (hrt : GmpInv rt)
    (hfresh : Fresh newG) (hM : newG.assignedM = -1) (hP : newG.assignedP = -1)
    (hgs : rt'.gs = Function.update rt.gs rt.gCount newG) (hgCount : rt'.gCount = rt.gCount + 1)
    (hms : rt'.ms = rt.ms) (hnumMs : rt'.numMs = rt.numMs) : AssignInv rt' := by
  have hself : rt'.gs rt.gCount = newG := by rw [hgs, Function.update_self]
  have hother : ∀ x, x ≠ rt.gCount → rt'.gs x = rt.gs x := fun x hx => by
    rw [hgs, Function.update_of_ne hx]
  refine ⟨fun m hm => ?_, fun x hx hnew => ?_, fun x hx hused => ?_, fun m p x hcur hbound => ?_⟩
  · rw [hms]
    exact h.mid_eq m (hnumMs ▸ hm)
  · by_cases hxg : x = rt.gCount
    · rw [hxg, hself]
      exact ⟨hM, hP⟩
    · rw [hother x hxg] at hnew ⊢
      exact h.fresh x (by omega) hnew
  · have hxg : x ≠ rt.gCount := by
      rintro rfl
      exact hused (hself ▸ hfresh)
    rw [hother x hxg] at hused ⊢
    exact h.used x (by omega) hused
  · rw [hms] at hcur hbound
    rw [hother x (hrt.lt_gCount hcur).ne]
    exact h.running m p x hcur hbound

theorem AssignInv.spawnGoroutine (h : AssignInv rt) (hrt : GmpInv rt) (name : String)
    (workUnits : Int64) (isSyscall : Bool) :
    AssignInv (rt.spawnGoroutine name workUnits isSyscall).2 := by
  unfold GMPRuntime.spawnGoroutine
  dsimp only
  split_ifs
  · exact h.enters hrt ⟨rfl, rfl⟩ rfl rfl rfl rfl rfl rfl
  · exact h.enters hrt ⟨rfl, rfl⟩ rfl rfl rfl rfl rfl rfl

/-- The loop over the processors. -/
theorem assignInv_stepPs (tick : ℤ) {procs : List ℕ} (h : AssignInv rt) (hrt : GmpInv rt)
    (hprocs : ∀ p ∈ procs, p < rt.numPs) :
    AssignInv (procs.foldl (GMPRuntime.stepP tick) rt) := by
  induction procs generalizing rt with
  | nil => exact h
  | cons p procs ih =>
    have hp := hprocs p List.mem_cons_self
    obtain ⟨hinv, hround, -⟩ := stepP_spec hrt hp tick
    refine ih (h.stepP hrt hp tick) hinv fun q hq => ?_
    rw [(Round.sameCounts hround).numPs_eq]
    exact hprocs q (List.mem_cons_of_mem p hq)

/-- The loop over the threads. -/
theorem assignInv_wakes {threads : List ℕ} (h : AssignInv rt) (hrt : GmpInv rt) :
    AssignInv (threads.foldl GMPRuntime.wake rt) := by
  induction threads generalizing rt with
  | nil => exact h
  | cons m threads ih =>
    have hwake : GmpInv ([m].foldl GMPRuntime.wake rt) := (gmpInv_wakes hrt).1
    exact ih (h.wake hrt m) hwake

theorem AssignInv.call (h : AssignInv rt) (hrt : GmpReady rt) (c : GmpCall) :
    AssignInv (rt.call c) := by
  cases c with
  | spawnGoroutine name workUnits isSyscall =>
    exact h.spawnGoroutine hrt.1 name workUnits isSyscall
  | step tick =>
    have hprocs : ∀ p ∈ List.range rt.numPs, p < rt.numPs := fun p hp => List.mem_range.mp hp
    obtain ⟨hinv, -⟩ := gmpInv_stepPs tick hrt.1 hprocs
    exact assignInv_wakes (assignInv_stepPs tick h hrt.1 hprocs) hinv

theorem assignInv_run (h : AssignInv rt) (hrt : GmpReady rt) (calls : List GmpCall) :
    AssignInv (rt.run calls) := by
  induction calls generalizing rt with
  | nil => exact h
  | cons c calls ih => exact ih (h.call hrt c) (hrt.call c)

end Runs

/-! ## When the fields tell the truth -/

section Truth

variable {rt : GMPRuntime} {g : ℕ}

/-- A running goroutine is at a thread with a processor. -/
theorem exists_thread_of_running (hrt : GmpInv rt) (hg : g < rt.gCount)
    (hstatus : (rt.gs g).status = .running) :
    ∃ m p, (rt.ms m).curG = some g ∧ (rt.ms m).boundP = some p := by
  obtain ⟨c, hc⟩ := (hrt.custody.mem_iff g).mp hg
  have hknown := hrt.custody.known c g hc
  cases c with
  | localQueue p => exact absurd (hstatus.symm.trans hknown.1) (by decide)
  | globalRunQueue => exact absurd (hstatus.symm.trans hknown.1) (by decide)
  | completedGs => exact absurd (hstatus.symm.trans hknown) (by decide)
  | curG m =>
    have hcur := mem_curG.mp hc
    have hbound : (rt.ms m).boundP ≠ none := by
      intro hnone
      have hblocked := ((hrt.thread m).blocked_iff (by simp [hcur])).mpr hnone
      exact absurd (hstatus.symm.trans (hrt.blocked hblocked hcur).1) (by decide)
    obtain ⟨p, hp⟩ := Option.ne_none_iff_exists'.mp hbound
    exact ⟨m, p, hcur, hp⟩

/-- The fields of a running goroutine are right. -/
theorem names_iff_runsAt (h : AssignInv rt) (hrt : GmpInv rt) (hg : g < rt.gCount)
    (hstatus : (rt.gs g).status = .running) (m p : ℕ) :
    Names (rt.gs g) m p ↔ RunsAt rt g m p := by
  constructor
  · rintro ⟨hm, hp⟩
    obtain ⟨i, j, hcur, hbound⟩ := exists_thread_of_running hrt hg hstatus
    obtain ⟨hi, hj, -⟩ := hrt.bound i j hbound
    obtain ⟨hM, hP⟩ := h.running i j g hcur hbound
    refine ⟨hstatus, i, hi, j, hj, ?_, hcur, hbound, ?_⟩
    · rw [h.mid_eq i hi]
      exact Int.ofNat_inj.mp (hM.symm.trans hm)
    · rw [(hrt.processor j hj).pid_eq]
      exact Int.ofNat_inj.mp (hP.symm.trans hp)
  · rintro ⟨-, i, hi, j, hj, hmid, hcur, hbound, hpid⟩
    rw [h.mid_eq i hi] at hmid
    rw [(hrt.processor j hj).pid_eq] at hpid
    exact hmid ▸ hpid ▸ h.running i j g hcur hbound

theorem truthful_iff (h : AssignInv rt) (hrt : GmpInv rt) :
    Truthful rt ↔ ∀ g < rt.gCount, (rt.gs g).status = .running ∨ Fresh (rt.gs g) := by
  constructor
  · intro htrue g hg
    refine or_iff_not_imp_left.mpr fun hstatus => ?_
    by_contra hused
    obtain ⟨m, p, hm, -⟩ := h.used g hg hused
    have hnone := (htrue.unassigned g hg hstatus).1
    rw [hm] at hnone
    omega
  · intro hall
    refine ⟨fun g hg m p => ?_, fun g hg hstatus => ?_⟩
    · rcases hall g hg with hstatus | hfresh
      · exact names_iff_runsAt h hrt hg hstatus m p
      · have hnone := h.fresh g hg hfresh
        refine iff_of_false (fun hnames => ?_) fun hruns => ?_
        · have hm := hnone.1.symm.trans hnames.1
          omega
        · exact absurd (hruns.1.symm.trans hfresh.1) (by decide)
    · exact h.fresh g hg ((hall g hg).resolve_left hstatus)

end Truth

/-- **The fields tell the truth exactly as long as every goroutine runs or waits for its first
dispatch.**  A goroutine that has finished or made its system call keeps the thread and the
processor of its last dispatch. -/
theorem assignment_truthful_iff (gomaxprocs : ℤ) (rng : Rand) (calls : List GmpCall) :
    let rt := (newGMPRuntime gomaxprocs rng).run calls
    Truthful rt ↔ ∀ g < rt.gCount, (rt.gs g).status = .running ∨ Fresh (rt.gs g) := by
  obtain ⟨hinv, hn, -⟩ := gmpInv_new gomaxprocs rng
  have hready : GmpReady (newGMPRuntime gomaxprocs rng) := ⟨hinv, hn⟩
  exact truthful_iff (assignInv_run (assignInv_new gomaxprocs rng) hready calls)
    (hready.run calls).1

/-- A goroutine with one unit of work is dispatched by the first step and done by the second; it
is still assigned to thread 0 and processor 0. -/
theorem assignment_outlives_goroutine :
    let rt := (newGMPRuntime 1 ⟨fun _ _ => 0, fun _ _ h => ⟨Int.le_refl 0, h⟩⟩).run
      [.spawnGoroutine "worker" 1 false, .step 1, .step 2]
    rt.gCount = 1 ∧ (rt.gs 0).status = .dead ∧ (rt.gs 0).assignedM = 0 ∧
      (rt.gs 0).assignedP = 0 := by
  decide

end OsSimulator.Analysis
