import OsSimulator.Analysis.GmpConservation
import OsSimulator.Interface.GmpMoves
import OsSimulator.Library.GrowingPool
import Mathlib.Data.Finset.Card

/-!
# OS threads of the goroutine scheduler

A thread that blocks in a system call is replaced by a new one, and when the system call ends
it is left without a processor.  `acquireM` looks for such a thread, but only for a processor
without a thread, which does not occur.  So the threads are a pool that only grows
(`Library.GrowingPool`), seen at all moments of a run: after every round of the two loops of
`Step`.  A thread is idle once a system call has ended (`PoolStep.idle_iff`), so the pool outgrows
its bound exactly when another system call is made after that (`threads_bounded_iff`).
-/

set_option autoImplicit false

namespace OsSimulator.Analysis

open Model Interface Library

/-! ## The pool of threads -/

/-- The threads that are blocked in a system call. -/
def blockedMs (rt : GMPRuntime) : Finset ℕ :=
  (Finset.range rt.numMs).filter fun m => (rt.ms m).isBlocked = true

/-- The threads that are not blocked and have no processor. -/
def idleMs (rt : GMPRuntime) : Finset ℕ :=
  (Finset.range rt.numMs).filter fun m => (rt.ms m).isBlocked = false ∧ (rt.ms m).boundP = none

/-- The threads as a pool; the busy ones are in a system call. -/
def poolOf (rt : GMPRuntime) : Pool where
  total := rt.numMs
  busy := (blockedMs rt).card
  idle := (idleMs rt).card

/-- Some goroutine is through with its system call, which takes three ticks. -/
def SyscallEnded (rt : GMPRuntime) : Prop := ∃ g < rt.gCount, 3 ≤ (rt.gs g).syscallTicks

/-- The pools of two moments are a move apart, and threads stay idle exactly from the end of the
first system call on. -/
structure PoolStep (rt rt' : GMPRuntime) : Prop where
  move : (poolOf rt).Move (poolOf rt')
  idle_iff : (0 < (poolOf rt).idle ↔ SyscallEnded rt) →
    (0 < (poolOf rt').idle ↔ SyscallEnded rt')

section Moves

variable {rt rt' : GMPRuntime} {p m g : ℕ}

theorem mem_blockedMs : m ∈ blockedMs rt ↔ m < rt.numMs ∧ (rt.ms m).isBlocked = true := by
  simp [blockedMs]

theorem mem_idleMs :
    m ∈ idleMs rt ↔ m < rt.numMs ∧ (rt.ms m).isBlocked = false ∧ (rt.ms m).boundP = none := by
  simp [idleMs]

theorem poolOf_congr (hnum : rt'.numMs = rt.numMs)
    (hblocked : ∀ n, (rt'.ms n).isBlocked = (rt.ms n).isBlocked)
    (hbound : ∀ n, (rt'.ms n).boundP = (rt.ms n).boundP) : poolOf rt' = poolOf rt := by
  simp only [poolOf, blockedMs, idleMs, hnum, hblocked, hbound]

theorem PoolStep.stayed (hpool : poolOf rt' = poolOf rt)
    (hended : SyscallEnded rt' ↔ SyscallEnded rt) : PoolStep rt rt' := by
  constructor
  · rw [hpool]
    exact .stayed
  · rw [hpool, hended]
    exact id

/-- The goroutines have spent the same ticks in their system calls, but for `g`. -/
theorem ended_iff_of_update {newG : Goroutine} (hcount : rt'.gCount = rt.gCount)
    (hgs : rt'.gs = Function.update rt.gs g newG)
    (hticks : 3 ≤ newG.syscallTicks ↔ 3 ≤ (rt.gs g).syscallTicks) :
    SyscallEnded rt' ↔ SyscallEnded rt := by
  unfold SyscallEnded
  rw [hcount, hgs]
  refine exists_congr fun x => and_congr_right fun _ => ?_
  by_cases hx : x = g
  · rw [hx, Function.update_self, hticks]
  · rw [Function.update_of_ne hx]

/-- A turn in which the thread is not blocked or woken up. -/
theorem Turn.poolOf_eq {newG : Goroutine} {newM : OSThread} (h : Turn rt rt' g newG m newM)
    (hblocked : newM.isBlocked = (rt.ms m).isBlocked) : poolOf rt' = poolOf rt := by
  refine poolOf_congr h.numMs_eq (fun n => ?_) h.boundP_eq
  rw [h.ms_eq]
  by_cases hn : n = m
  · rw [hn, Function.update_self, hblocked]
  · rw [Function.update_of_ne hn]

/-- A calm part of a round leaves the pool as it is. -/
theorem CalmMove.pool (h : CalmMove rt rt') :
    poolOf rt' = poolOf rt ∧ (SyscallEnded rt' ↔ SyscallEnded rt) := by
  have hturn {g m : ℕ} {newG : Goroutine} {newM : OSThread} (h : Turn rt rt' g newG m newM)
      (hblocked : newM.isBlocked = (rt.ms m).isBlocked)
      (hticks : newG.syscallTicks = (rt.gs g).syscallTicks) :=
    And.intro (Turn.poolOf_eq h hblocked) (ended_iff_of_update h.gCount_eq h.gs_eq (by rw [hticks]))
  cases h with
  | queues h =>
    refine ⟨poolOf_congr h.numMs_eq (fun n => by rw [h.ms_eq]) h.boundP_eq, ?_⟩
    unfold SyscallEnded
    rw [h.gCount_eq, h.gs_eq]
  | dispatched _ _ _ _ _ h => exact hturn h rfl rfl
  | worked _ _ _ h => exact hturn h rfl rfl
  | finished _ _ _ h => exact hturn h rfl rfl

/-- A hand-off blocks one thread and creates one. -/
theorem HandedOff.created (h : HandedOff rt p m g rt') (hrt : GmpInv rt)
    (hmp : (rt.ms m).boundP = some p) :
    poolOf rt' = ⟨(poolOf rt).total + 1, (poolOf rt).busy + 1, (poolOf rt).idle⟩ := by
  have hm := (hrt.bound m p hmp).1
  have hblocked : blockedMs rt' = insert m (blockedMs rt) := by
    ext n
    rw [Finset.mem_insert, mem_blockedMs, mem_blockedMs, h.numMs_eq]
    by_cases hnm : n = m
    · simp [hnm, h.old_thread]
      omega
    · by_cases hnN : n = rt.numMs
      · simp [hnN, h.new_thread]
        omega
      · rw [h.other_threads n hnm hnN]
        simp [hnm]
        omega
  have hidle : idleMs rt' = idleMs rt := by
    ext n
    rw [mem_idleMs, mem_idleMs, h.numMs_eq]
    by_cases hnm : n = m
    · simp [hnm, h.old_thread, hmp]
    · by_cases hnN : n = rt.numMs
      · simp [hnN, h.new_thread]
      · rw [h.other_threads n hnm hnN]
        simp
        omega
  have hnew : m ∉ blockedMs rt := by
    rw [mem_blockedMs, hrt.not_blocked hmp]
    simp
  simp only [poolOf, h.numMs_eq, hblocked, hidle, Finset.card_insert_of_notMem hnew]

/-- The end of a system call leaves the thread idle. -/
theorem Turn.released {newG : Goroutine} (hrt : GmpInv rt)
    (hblocked : (rt.ms m).isBlocked = true) (hcur : (rt.ms m).curG = some g)
    (h : Turn rt rt' g newG m { rt.ms m with curG := none, isBlocked := false })
    (hticks : 3 ≤ newG.syscallTicks) : PoolStep rt rt' := by
  have hm : m < rt.numMs := hrt.lt_numMs hcur
  have hunbound : (rt.ms m).boundP = none :=
    ((hrt.thread m).blocked_iff (by simp [hcur])).mp hblocked
  have hself : rt'.ms m = { rt.ms m with curG := none, isBlocked := false } := by
    rw [h.ms_eq, Function.update_self]
  have hother : ∀ n, n ≠ m → rt'.ms n = rt.ms n := fun n hn => by
    rw [h.ms_eq, Function.update_of_ne hn]
  have hbusy : blockedMs rt = insert m (blockedMs rt') := by
    ext n
    rw [Finset.mem_insert, mem_blockedMs, mem_blockedMs, h.numMs_eq]
    by_cases hnm : n = m
    · simp [hnm, hm, hblocked]
    · simp [hother n hnm, hnm]
  have hidle : idleMs rt' = insert m (idleMs rt) := by
    ext n
    rw [Finset.mem_insert, mem_idleMs, mem_idleMs, h.numMs_eq]
    by_cases hnm : n = m
    · simp [hnm, hm, hself, hunbound]
    · simp [hother n hnm, hnm]
  have hold : m ∉ blockedMs rt' := by simp [mem_blockedMs, hself]
  have hnew : m ∉ idleMs rt := by simp [mem_idleMs, hblocked]
  have hpool : poolOf rt' =
      ⟨(poolOf rt).total, (blockedMs rt').card, (poolOf rt).idle + 1⟩ := by
    simp only [poolOf, h.numMs_eq, hidle, Finset.card_insert_of_notMem hnew]
  have hended : SyscallEnded rt' := by
    refine ⟨g, ?_, by rwa [h.gs_eq, Function.update_self]⟩
    rw [h.gCount_eq]
    exact hrt.custody.mem_live (mem_curG.mpr hcur)
  constructor
  · rw [hpool]
    refine .released _ ?_
    change (blockedMs rt).card = _
    rw [hbusy, Finset.card_insert_of_notMem hold]
  · rw [hpool]
    exact fun _ => iff_of_true (Nat.succ_pos _) hended

/-- **A round for a processor** makes a new thread exactly for a system call. -/
theorem stepP_pool (hrt : GmpInv rt) (hp : p < rt.numPs) (tick : ℤ) :
    PoolStep rt (GMPRuntime.stepP tick rt p) ∧
      ((poolOf rt).total < (poolOf (GMPRuntime.stepP tick rt p)).total ↔ MakesSyscall rt p) := by
  rcases stepP_cases hrt hp tick with
    ⟨hnone, hcalm⟩ | ⟨hsome, rt₀, m, g, hstill, hinv, -, hmp, -, hoff⟩
  · have hsame : poolOf (GMPRuntime.stepP tick rt p) = poolOf rt ∧
        (SyscallEnded (GMPRuntime.stepP tick rt p) ↔ SyscallEnded rt) := by
      generalize GMPRuntime.stepP tick rt p = rt' at hcalm
      induction hcalm with
      | refl => exact ⟨rfl, Iff.rfl⟩
      | tail _ h ih =>
        obtain ⟨hpool, hended⟩ := CalmMove.pool h
        exact ⟨hpool.trans ih.1, hended.trans ih.2⟩
    refine ⟨.stayed hsame.1 hsame.2, iff_of_false ?_ hnone⟩
    rw [hsame.1]
    exact Nat.lt_irrefl _
  · obtain ⟨hpool, hended⟩ := CalmMove.pool (.queues hstill.toSameThreads)
    have hcreated := HandedOff.created hoff hinv hmp
    have hended' := ended_iff_of_update hoff.gCount_eq hoff.gs_eq Iff.rfl
    rw [hpool] at hcreated
    rw [hcreated]
    refine ⟨⟨hcreated ▸ .created, fun hidle => ?_⟩, iff_of_true (Nat.lt_succ_self _) hsome⟩
    rw [hcreated, hended', hended]
    exact hidle

/-- A round for a thread. -/
theorem wake_pool (hrt : GmpInv rt) (m : ℕ) :
    PoolStep rt (rt.wake m) ∧ (rt.wake m).numMs = rt.numMs := by
  cases wake_cases hrt m with
  | idle h =>
    rw [h]
    exact ⟨.stayed rfl Iff.rfl, rfl⟩
  | waited hblocked hcur hmore h =>
    refine ⟨.stayed (Turn.poolOf_eq h rfl) ?_, h.numMs_eq⟩
    refine ended_iff_of_update h.gCount_eq h.gs_eq ?_
    dsimp only
    omega
  | woken hblocked hcur h => exact ⟨Turn.released hrt hblocked hcur h le_rfl, h.numMs_eq⟩

end Moves

/-! ## The moments of a run -/

/-- The states that a call goes through: for `Step`, those before and after every round. -/
def callMoments (rt : GMPRuntime) : GmpCall → List GMPRuntime
  | .spawnGoroutine .. => [rt]
  | .step tick =>
    let rounds := (List.range rt.numPs).scanl (GMPRuntime.stepP tick) rt
    let rt := (List.range rt.numPs).foldl (GMPRuntime.stepP tick) rt
    rounds ++ (List.range rt.numMs).scanl GMPRuntime.wake rt

/-- The states that a run goes through. -/
def moments (rt : GMPRuntime) : List GmpCall → List GMPRuntime
  | [] => [rt]
  | c :: calls => callMoments rt c ++ moments (rt.call c) calls

/-- The largest number of threads that are blocked at the same time. -/
def peakBlocked (history : List GMPRuntime) : ℕ :=
  history.foldl (fun most rt => max most (blockedMs rt).card) 0

/-! ## System calls that overlap -/

/-- In the rounds for the given processors, no goroutine makes a system call after one has
ended. -/
def RoundsOverlap (tick : ℤ) : GMPRuntime → List ℕ → Prop
  | _, [] => True
  | rt, p :: procs => (MakesSyscall rt p → ¬ SyscallEnded rt) ∧
      RoundsOverlap tick (GMPRuntime.stepP tick rt p) procs

/-- All system calls of a run are made before the first one of them ends. -/
def SyscallsOverlap : GMPRuntime → List GmpCall → Prop
  | _, [] => True
  | rt, .spawnGoroutine name workUnits isSyscall :: calls =>
    SyscallsOverlap (rt.spawnGoroutine name workUnits isSyscall).2 calls
  | rt, .step tick :: calls =>
    RoundsOverlap tick rt (List.range rt.numPs) ∧ SyscallsOverlap (rt.step tick) calls

/-- If a thread is created, none is idle. -/
def ThreadNeeded (rt rt' : GMPRuntime) : Prop := (poolOf rt).Needed (poolOf rt')

/-- A runtime whose threads are idle exactly from the end of the first system call on. -/
structure ThreadsReady (rt : GMPRuntime) : Prop where
  ready : GmpReady rt
  idle_iff : 0 < (poolOf rt).idle ↔ SyscallEnded rt

/-- The moments of a part of a run, in which all new threads were needed exactly if `P`. -/
structure RunPart (history : List GMPRuntime) (rt rt' : GMPRuntime) (P : Prop) : Prop where
  trail : Trail PoolStep history rt rt'
  needed_iff : history.IsChain ThreadNeeded ↔ P
  ready : ThreadsReady rt'

section Overlap

variable {rt rt' rt₁ rt₂ : GMPRuntime} {history history' : List GMPRuntime} {P Q J : Prop}

theorem threadNeeded_of_numMs (h : rt'.numMs = rt.numMs) : ThreadNeeded rt rt' ↔ True :=
  iff_of_true (fun hlt => absurd h hlt.ne') trivial

theorem ThreadsReady.part (h : ThreadsReady rt) : RunPart [rt] rt rt True :=
  ⟨Trail.singleton rt, iff_of_true (.singleton rt) trivial, h⟩

theorem RunPart.append (h : RunPart history rt rt₁ P) (hstep : PoolStep rt₁ rt₂)
    (hneeded : ThreadNeeded rt₁ rt₂ ↔ J) (h' : RunPart history' rt₂ rt' Q) :
    RunPart (history ++ history') rt rt' (P ∧ J ∧ Q) := by
  refine ⟨h.trail.append hstep h'.trail, ?_, h'.ready⟩
  rw [h.trail.isChain_append h'.trail, h.needed_iff, hneeded, h'.needed_iff]

theorem PoolStep.refl (rt : GMPRuntime) : PoolStep rt rt := .stayed rfl Iff.rfl

/-- The loop over the processors. -/
theorem rounds_part (h : ThreadsReady rt) (tick : ℤ) {procs : List ℕ}
    (hprocs : ∀ p ∈ procs, p < rt.numPs) :
    RunPart (procs.scanl (GMPRuntime.stepP tick) rt) rt (procs.foldl (GMPRuntime.stepP tick) rt)
      (RoundsOverlap tick rt procs) := by
  induction procs generalizing rt with
  | nil => exact h.part
  | cons p procs ih =>
    have hp := hprocs p List.mem_cons_self
    obtain ⟨hstep, hcreated⟩ := stepP_pool h.ready.1 hp tick
    obtain ⟨hinv, hround, -⟩ := stepP_spec h.ready.1 hp tick
    have hnum := (Round.sameCounts hround).numPs_eq
    have hnext : ThreadsReady (GMPRuntime.stepP tick rt p) :=
      ⟨⟨hinv, hnum.symm ▸ h.ready.2⟩, hstep.idle_iff h.idle_iff⟩
    have hneeded : ThreadNeeded rt (GMPRuntime.stepP tick rt p) ↔
        (MakesSyscall rt p → ¬ SyscallEnded rt) := by
      unfold ThreadNeeded Pool.Needed
      rw [hcreated, ← h.idle_iff, Nat.pos_iff_ne_zero, not_not]
    have hall := h.part.append hstep hneeded
      (ih hnext fun q hq => hnum.symm ▸ hprocs q (List.mem_cons_of_mem p hq))
    rw [true_and] at hall
    rw [List.scanl_cons]
    exact hall

/-- The loop over the threads creates none. -/
theorem wakes_part (h : ThreadsReady rt) (threads : List ℕ) :
    RunPart (threads.scanl GMPRuntime.wake rt) rt (threads.foldl GMPRuntime.wake rt) True := by
  induction threads generalizing rt with
  | nil => exact h.part
  | cons m threads ih =>
    obtain ⟨hstep, hnum⟩ := wake_pool h.ready.1 m
    have hwake : GmpInv ([m].foldl GMPRuntime.wake rt) ∧
        SameCounts rt ([m].foldl GMPRuntime.wake rt) := gmpInv_wakes h.ready.1
    have hnext : ThreadsReady (rt.wake m) :=
      ⟨⟨hwake.1, hwake.2.numPs_eq.symm ▸ h.ready.2⟩, hstep.idle_iff h.idle_iff⟩
    have hall := h.part.append hstep (threadNeeded_of_numMs hnum) (ih hnext)
    rw [true_and, true_and] at hall
    rw [List.scanl_cons]
    exact hall

theorem spawnGoroutine_poolStep (rt : GMPRuntime) (name : String) (workUnits : Int64)
    (isSyscall : Bool) : PoolStep rt (rt.spawnGoroutine name workUnits isSyscall).2 := by
  obtain ⟨-, hcount, hgs, -, hnumMs, hms⟩ := spawnGoroutine_spawned rt name workUnits isSyscall
  refine .stayed (poolOf_congr hnumMs (fun _ => by rw [hms]) fun _ => by rw [hms]) ⟨?_, ?_⟩
  · rintro ⟨g, hg, hticks⟩
    rw [hcount] at hg
    rw [hgs] at hticks
    by_cases hnew : g = rt.gCount
    · rw [hnew, Function.update_self] at hticks
      exact absurd hticks (Nat.not_succ_le_zero 2)
    · rw [Function.update_of_ne hnew] at hticks
      exact ⟨g, by omega, hticks⟩
  · rintro ⟨g, hg, hticks⟩
    refine ⟨g, by omega, ?_⟩
    rwa [hgs, Function.update_of_ne hg.ne]

/-- **The moments of a run** lead from its first to its last state, one move of the pool after
the other, and every thread was needed exactly when the system calls overlap. -/
theorem moments_part (h : ThreadsReady rt) (calls : List GmpCall) :
    RunPart (moments rt calls) rt (rt.run calls) (SyscallsOverlap rt calls) := by
  induction calls generalizing rt with
  | nil => exact h.part
  | cons c calls ih =>
    have hready := h.ready.call c
    cases c with
    | spawnGoroutine name workUnits isSyscall =>
      have hstep := spawnGoroutine_poolStep rt name workUnits isSyscall
      have hneeded := threadNeeded_of_numMs
        (spawnGoroutine_spawned rt name workUnits isSyscall).numMs_eq
      have hall := h.part.append hstep hneeded (ih ⟨hready, hstep.idle_iff h.idle_iff⟩)
      rwa [true_and, true_and] at hall
    | step tick =>
      have hrounds := rounds_part h tick fun p hp => List.mem_range.mp hp
      have hstep : RunPart (callMoments rt (.step tick)) rt (rt.step tick) _ :=
        hrounds.append (PoolStep.refl _) (threadNeeded_of_numMs rfl)
          (wakes_part hrounds.ready _)
      have hall := hstep.append (PoolStep.refl _) (threadNeeded_of_numMs rfl) (ih hstep.ready)
      simp only [true_and, and_true] at hall
      exact hall

end Overlap

/-! ## The number of threads -/

/-- The loop of `newGMPRuntime` adds one thread for each processor, bound to it. -/
theorem threads_addPs (rt : GMPRuntime) (hms : rt.numMs = 0) (hps : rt.numPs = 0) (n : ℕ) :
    ((List.range n).foldl GMPRuntime.addP rt).numMs = n ∧
      ((List.range n).foldl GMPRuntime.addP rt).numPs = n ∧
      ((List.range n).foldl GMPRuntime.addP rt).gomaxprocs = rt.gomaxprocs ∧
      ∀ m < n, ((List.range n).foldl GMPRuntime.addP rt).ms m = { mid := m, boundP := some m } := by
  induction n with
  | zero => exact ⟨hms, hps, rfl, fun m hm => absurd hm (Nat.not_lt_zero m)⟩
  | succ n ih =>
    obtain ⟨hnumMs, hnumPs, hmax, hthreads⟩ := ih
    rw [List.range_succ, List.foldl_append, List.foldl_cons, List.foldl_nil]
    set rt₀ := (List.range n).foldl GMPRuntime.addP rt
    refine ⟨congrArg Nat.succ hnumMs, congrArg Nat.succ hnumPs, hmax, fun m hm => ?_⟩
    have hnew : (rt₀.addP n).ms = Function.update rt₀.ms n { mid := n, boundP := some n } := by
      rw [← hnumPs, addP_ms, hnumPs, hnumMs]
    rw [hnew]
    by_cases hmn : m = n
    · rw [hmn, Function.update_self]
    · rw [Function.update_of_ne hmn]
      exact hthreads m (by omega)

theorem threads_new (gomaxprocs : ℤ) (rng : Rand) :
    ((newGMPRuntime gomaxprocs rng).numMs : ℤ) = (newGMPRuntime gomaxprocs rng).gomaxprocs ∧
      ∀ m < (newGMPRuntime gomaxprocs rng).numMs,
        (newGMPRuntime gomaxprocs rng).ms m = { mid := m, boundP := some m } := by
  unfold newGMPRuntime
  dsimp only
  generalize hmax : (if gomaxprocs ≤ 0 then 2 else gomaxprocs) = limit
  obtain ⟨hnumMs, -, hgomaxprocs, hthreads⟩ := threads_addPs
    { gomaxprocs := limit, rng } rfl rfl limit.toNat
  rw [hnumMs, hgomaxprocs]
  refine ⟨?_, hthreads⟩
  dsimp only
  split_ifs at hmax <;> omega

theorem poolOf_new (gomaxprocs : ℤ) (rng : Rand) :
    poolOf (newGMPRuntime gomaxprocs rng) = ⟨(newGMPRuntime gomaxprocs rng).numMs, 0, 0⟩ := by
  obtain ⟨-, hthreads⟩ := threads_new gomaxprocs rng
  have hblocked : blockedMs (newGMPRuntime gomaxprocs rng) = ∅ := by
    refine Finset.eq_empty_of_forall_notMem fun m hm => ?_
    obtain ⟨hlt, hm⟩ := mem_blockedMs.mp hm
    rw [hthreads m hlt] at hm
    cases hm
  have hidle : idleMs (newGMPRuntime gomaxprocs rng) = ∅ := by
    refine Finset.eq_empty_of_forall_notMem fun m hm => ?_
    obtain ⟨hlt, -, hm⟩ := mem_idleMs.mp hm
    rw [hthreads m hlt] at hm
    cases hm
  simp only [poolOf, hblocked, hidle, Finset.card_empty]

/-- **The threads are bounded by the peak of blocked threads exactly when the system calls
overlap.**  After every run, there are at most `GOMAXPROCS` threads more than were blocked at the
same time at some moment, exactly when no goroutine is at its system call in a round of `Step`
before which the system call of another one has ended. -/
theorem threads_bounded_iff (gomaxprocs : ℤ) (rng : Rand) (calls : List GmpCall) :
    let start := newGMPRuntime gomaxprocs rng
    ((start.run calls).numMs : ℤ) ≤ start.gomaxprocs + peakBlocked (moments start calls) ↔
      SyscallsOverlap start calls := by
  intro start
  obtain ⟨hinv, hn, hempty⟩ := gmpInv_new gomaxprocs rng
  have hready : ThreadsReady start := by
    refine ⟨⟨hinv, hn⟩, ?_⟩
    rw [poolOf_new]
    refine iff_of_false (Nat.lt_irrefl 0) ?_
    rintro ⟨g, hg, -⟩
    rw [hempty] at hg
    exact absurd hg (Nat.not_lt_zero g)
  have hpart := moments_part hready calls
  have htrail := hpart.trail.map fun _ _ h => h.move
  rw [poolOf_new] at htrail
  have hpeak : Pool.peak ((moments start calls).map poolOf) = peakBlocked (moments start calls) :=
    List.foldl_map
  have hbound := Pool.total_le_peak_iff htrail
  rw [hpeak, List.isChain_map] at hbound
  rw [← hpart.needed_iff, ← (threads_new gomaxprocs rng).1]
  refine Iff.trans ?_ hbound
  exact ⟨fun h => by exact_mod_cast h, fun h => by exact_mod_cast h⟩

/-- Two goroutines make their system calls one after the other on one processor: never are two
threads blocked, and there are three. -/
theorem threads_leak :
    let start := newGMPRuntime 1 ⟨fun _ _ => 0, fun _ _ h => ⟨Int.le_refl 0, h⟩⟩
    let calls : List GmpCall := [.spawnGoroutine "a" 1 true, .step 1, .step 2, .step 3, .step 4,
      .spawnGoroutine "b" 1 true, .step 5, .step 6]
    start.gomaxprocs = 1 ∧ peakBlocked (moments start calls) = 1 ∧
      (start.run calls).numMs = 3 := by
  decide

end OsSimulator.Analysis
