import OsSimulator.Model.Scheduler
import Mathlib.Data.List.GetD
import Mathlib.Data.List.Perm.Basic

/-!
# What a tick can do

`SchedView` is the part of a scheduler's state that the six disciplines have in
common: the processes, the ready processes in some order, the running slot and the
completed processes.  The level and the allotment of MLFQ are erased from the
processes, and its queues are read as one.

One tick is four moves of the view, one after the other:

* `Arrived`: new processes enter the ready queue and every ready process waits,
* `Preempted`: the running process may go back to the ready queue,
* `Dispatched`: a ready process may take the free slot,
* `Executed`: the process in the slot works for one tick and may complete.

`schedule_phases` (the first three moves) and `executed_tick` (the last) say that every
`Tick` of every scheduler is of this form.  They are the only place where the six
implementations are looked into: the analysis of a run uses the four moves.
-/

set_option autoImplicit false

namespace OsSimulator.Interface

open Model

/-! ## The view and its moves -/

/-- What the phases of a tick read and write, the same for all policies. -/
structure SchedView where
  size : ℕ
  proc : ℕ → Process
  ready : List ℕ
  running : Option ℕ
  completed : List ℕ

/-- Both views have the same processes up to an update of each. -/
structure Updates (f : ℕ → Process → Process) (v v' : SchedView) : Prop where
  size_eq : v'.size = v.size
  proc_eq : ∀ i < v.size, v'.proc i = f i (v.proc i)

/-- The update of one process by `f`. -/
def only (j : ℕ) (f : Process → Process) : ℕ → Process → Process :=
  fun i p => if i = j then f p else p

/-- The processes that become ready at tick `t`. -/
def newcomers (t : ℤ) (v : SchedView) : List ℕ :=
  (List.range v.size).filter fun i => (v.proc i).arrives t

/-- The newcomers have joined the ready queue, and all in it have waited a tick. -/
structure Arrived (t : ℤ) (v v' : SchedView) : Prop where
  updates : Updates (fun i p => { p.enter t with
    waitingTime := p.waitingTime + v'.ready.count i }) v v'
  ready_perm : v'.ready.Perm (v.ready ++ newcomers t v)
  running_eq : v'.running = v.running
  completed_eq : v'.completed = v.completed

/-- The same processes, with the ready queue possibly in another order. -/
structure Reordered (v v' : SchedView) : Prop where
  updates : Updates (fun _ p => p) v v'
  ready_perm : v'.ready.Perm v.ready
  running_eq : v'.running = v.running
  completed_eq : v'.completed = v.completed

/-- Nobody is preempted, or the running process goes back to the ready queue. -/
inductive Preempted (v v' : SchedView) : Prop where
  | keep (h : Reordered v v')
  | yield (j : ℕ) (slot : v.running = some j) (free : v'.running = none)
      (updates : Updates (only j Process.preempt) v v')
      (ready_perm : v'.ready.Perm (j :: v.ready)) (completed_eq : v'.completed = v.completed)

/-- A free CPU may get a process of the ready queue. -/
inductive Dispatched (t : ℤ) (v v' : SchedView) : Prop where
  | keep (h : Reordered v v')
  | start (i : ℕ) (free : v.running = none) (slot : v'.running = some i)
      (updates : Updates (only i (Process.dispatch t)) v v')
      (ready_perm : v.ready.Perm (i :: v'.ready)) (completed_eq : v'.completed = v.completed)

/-- The CPU idles, works, or finishes its process. -/
inductive Executed (t : ℤ) (v v' : SchedView) : Prop where
  | idle (free : v.running = none) (h : Reordered v v')
  | work (i : ℕ) (slot : v.running = some i) (slot' : v'.running = some i)
      (more : (v.proc i).remainingTime - 1 ≠ 0)
      (updates : Updates (only i Process.execute) v v')
      (ready_eq : v'.ready = v.ready) (completed_eq : v'.completed = v.completed)
  | finish (i : ℕ) (slot : v.running = some i) (free : v'.running = none)
      (last : (v.proc i).remainingTime - 1 = 0)
      (updates : Updates (only i fun p => p.execute.terminate t) v v')
      (ready_eq : v'.ready = v.ready) (completed_eq : v'.completed = v.completed ++ [i])

/-! ## The view of a scheduler -/

/-- The view of a scheduler with that ready queue; levels of MLFQ are left out. -/
def baseView (b : SchedBase) (ready : List ℕ) : SchedView where
  size := b.allProcesses.length
  proc := fun i => MLFQScheduler.toTop (b.proc i)
  ready := ready
  running := b.running
  completed := b.completed

def schedView (s : Scheduler) : SchedView := baseView s.base s.ready

@[simp] theorem baseView_size (b : SchedBase) (r : List ℕ) :
    (baseView b r).size = b.allProcesses.length := rfl

@[simp] theorem baseView_proc (b : SchedBase) (r : List ℕ) (i : ℕ) :
    (baseView b r).proc i = MLFQScheduler.toTop (b.proc i) := rfl

@[simp] theorem baseView_ready (b : SchedBase) (r : List ℕ) : (baseView b r).ready = r := rfl

@[simp] theorem baseView_running (b : SchedBase) (r : List ℕ) :
    (baseView b r).running = b.running := rfl

@[simp] theorem baseView_completed (b : SchedBase) (r : List ℕ) :
    (baseView b r).completed = b.completed := rfl

/-- An update of erased fields is invisible. -/
theorem baseView_modify (b : SchedBase) (r : List ℕ) (j : ℕ) (f : Process → Process)
    (hf : ∀ p, MLFQScheduler.toTop (f p) = MLFQScheduler.toTop p) :
    baseView { b with allProcesses := b.allProcesses.modify j f } r = baseView b r := by
  unfold baseView SchedBase.proc
  congr 1
  · simp
  · funext i
    simp only [List.getD_eq_getElem?_getD, List.getElem?_modify]
    by_cases h : j = i
    · cases hi : b.allProcesses[i]? <;> simp [h, hf]
    · simp [h]

variable {f : Process → Process} {P : Process → Prop} {l : List Process} {r r' : List ℕ}

theorem Reordered.of_perm (b : SchedBase) (h : r'.Perm r) :
    Reordered (baseView b r) (baseView b r') :=
  ⟨⟨rfl, fun _ _ => rfl⟩, h, rfl, rfl⟩

theorem Reordered.refl (v : SchedView) : Reordered v v :=
  ⟨⟨rfl, fun _ _ => rfl⟩, List.Perm.refl _, rfl, rfl⟩

/-! ## Updates of one process of the list -/

theorem getD_modify {i j : ℕ} (f : Process → Process) (hi : i < l.length) :
    (l.modify j f).getD i default = if i = j then f (l.getD i default) else l.getD i default := by
  simp only [List.getD_eq_getElem?_getD, List.getElem?_modify, List.getElem?_eq_getElem hi]
  by_cases h : j = i
  · simp [h]
  · simp [h, Ne.symm h]

theorem getD_map {i : ℕ} (f : Process → Process) (hi : i < l.length) :
    (l.map f).getD i default = f (l.getD i default) := by
  simp [List.getD_eq_getElem?_getD, List.getElem?_eq_getElem hi]

theorem getD_mapIdx {i : ℕ} (f : ℕ → Process → Process) (hi : i < l.length) :
    (l.mapIdx f).getD i default = f i (l.getD i default) := by
  simp [List.getD_eq_getElem?_getD, List.getElem?_eq_getElem hi]

/-- A property of all processes that survives at every position survives. -/
theorem forall_getD_of {l l' : List Process} (hlen : l'.length = l.length)
    (hstep : ∀ i < l.length, P (l.getD i default) → P (l'.getD i default))
    (h : ∀ i, P (l.getD i default)) (i : ℕ) : P (l'.getD i default) := by
  by_cases hi : i < l.length
  · exact hstep i hi (h i)
  · have hd := h l.length
    rw [List.getD_eq_default _ _ le_rfl] at hd
    rwa [List.getD_eq_default _ _ (by omega)]

theorem forall_getD_modify_at {j : ℕ} (hj : P (f (l.getD j default)))
    (h : ∀ i, P (l.getD i default)) (i : ℕ) : P ((l.modify j f).getD i default) := by
  refine forall_getD_of (by simp) (fun i hi hp => ?_) h i
  rw [getD_modify f hi]
  split
  · rename_i hij
    exact hij ▸ hj
  · exact hp

theorem forall_getD_modify (j : ℕ) (hf : ∀ p, P p → P (f p)) (h : ∀ i, P (l.getD i default))
    (i : ℕ) : P ((l.modify j f).getD i default) :=
  forall_getD_modify_at (hf _ (h j)) h i

theorem forall_getD_mapIdx {f : ℕ → Process → Process} (hf : ∀ i p, P p → P (f i p))
    (h : ∀ i, P (l.getD i default)) (i : ℕ) : P ((l.mapIdx f).getD i default) := by
  refine forall_getD_of (by simp) (fun i hi hp => ?_) h i
  rw [getD_mapIdx f hi]
  exact hf i _ hp

theorem forall_getD_map (hf : ∀ p, P p → P (f p)) (h : ∀ i, P (l.getD i default)) (i : ℕ) :
    P ((l.map f).getD i default) := by
  refine forall_getD_of (by simp) (fun i hi hp => ?_) h i
  rw [getD_map f hi]
  exact hf _ hp

/-- A modification of process `j` that commutes with the erasure is an update of the view. -/
theorem updates_modify {b b' : SchedBase} (j : ℕ) (f g : Process → Process)
    (hb : b'.allProcesses = b.allProcesses.modify j f)
    (hfg : ∀ p, MLFQScheduler.toTop (f p) = g (MLFQScheduler.toTop p)) :
    Updates (only j g) (baseView b r) (baseView b' r') := by
  refine ⟨by simp [hb], ?_⟩
  intro i hi
  simp only [baseView_proc, SchedBase.proc, hb, only]
  rw [getD_modify f hi]
  by_cases h : i = j
  · simp [h, hfg]
  · simp [h]

theorem toTop_dispatch (t : ℤ) (p : Process) :
    MLFQScheduler.toTop (p.dispatch t) = (MLFQScheduler.toTop p).dispatch t := by
  unfold Process.dispatch MLFQScheduler.toTop
  split <;> rfl

/-! ## The moves of the shared code -/

theorem dispatched_dispatch (t : ℤ) (b : SchedBase) (i : ℕ) (hrun : b.running = none)
    (hr : r.Perm (i :: r')) : Dispatched t (baseView b r) (baseView (b.dispatch t i) r') :=
  .start i hrun rfl (updates_modify i _ _ rfl (toTop_dispatch t)) hr rfl

theorem preempted_preempt (b b' : SchedBase) (j : ℕ) (f : Process → Process)
    (hrun : b.running = some j) (hrun' : b'.running = none) (hcomp : b'.completed = b.completed)
    (hb : b'.allProcesses = b.allProcesses.modify j f)
    (hf : ∀ p, MLFQScheduler.toTop (f p) = (MLFQScheduler.toTop p).preempt)
    (hr : r'.Perm (j :: r)) : Preempted (baseView b r) (baseView b' r') :=
  .yield j hrun hrun' (updates_modify j f _ hb hf) hr hcomp

variable (label : Process → String) (t : ℤ) (b : SchedBase)

theorem execute_idle (hrun : b.running = none) :
    b.execute label t = { b with gantt := b.gantt ++ [⟨"IDLE", t, t + 1⟩] } := by
  simp only [SchedBase.execute, hrun]

/-- The execution of a process in the slot, whether or not it completes. -/
theorem execute_busy {i : ℕ} (hrun : b.running = some i) (hi : i < b.allProcesses.length) :
    b.execute label t =
      if (b.proc i).remainingTime - 1 = 0 then
        { b with
          busyTime := b.busyTime + 1
          allProcesses := b.allProcesses.modify i fun p => p.execute.terminate t
          gantt := b.gantt ++ [⟨label (b.proc i), t, t + 1⟩]
          completed := b.completed ++ [i]
          running := none }
      else
        { b with
          busyTime := b.busyTime + 1
          allProcesses := b.allProcesses.modify i Process.execute
          gantt := b.gantt ++ [⟨label (b.proc i), t, t + 1⟩] } := by
  have hproc : (b.allProcesses.modify i Process.execute).getD i default = (b.proc i).execute := by
    rw [getD_modify _ hi, if_pos rfl]; rfl
  simp only [SchedBase.execute, hrun]
  unfold SchedBase.proc at hproc ⊢
  simp only [hproc, List.modify_modify_eq]
  rfl

/-- The execution leaves the process in the slot or empties it. -/
theorem execute_running :
    (b.execute label t).running = none ∨ (b.execute label t).running = b.running := by
  unfold SchedBase.execute
  cases b.running with
  | none => exact .inl rfl
  | some i =>
    dsimp only
    split
    · exact .inl rfl
    · exact .inr rfl

/-- The execution half, for any Gantt label. -/
theorem executed_execute (r : List ℕ) (hin : ∀ i, b.running = some i → i < b.allProcesses.length) :
    Executed t (baseView b r) (baseView (b.execute label t) r) := by
  cases hrun : b.running with
  | none =>
    rw [execute_idle label t b hrun]
    exact .idle hrun ⟨⟨rfl, fun _ _ => rfl⟩, List.Perm.refl _, rfl, rfl⟩
  | some i =>
    rw [execute_busy label t b hrun (hin i hrun)]
    by_cases hlast : (b.proc i).remainingTime - 1 = 0
    · rw [if_pos hlast]
      exact .finish i hrun rfl hlast (updates_modify i _ _ rfl fun p => rfl) rfl rfl
    · rw [if_neg hlast]
      exact .work i hrun hrun hlast (updates_modify i _ _ rfl fun p => rfl) rfl rfl

/-! ## Arrivals -/

theorem toTop_enter (t : ℤ) (p : Process) :
    MLFQScheduler.toTop (p.enter t) = (MLFQScheduler.toTop p).enter t := by
  unfold Process.enter Process.arrives MLFQScheduler.toTop
  split <;> rfl

/-- The arrival loop of MLFQ differs from the others by fields that the view erases. -/
theorem toTop_mlfq_enter (t : ℤ) (p : Process) :
    MLFQScheduler.toTop (MLFQScheduler.enter t p) = (MLFQScheduler.toTop p).enter t := by
  unfold MLFQScheduler.enter Process.enter Process.arrives MLFQScheduler.toTop
  split <;> rfl

/-- The arrival and waiting loops, for an update `enter` of the arriving processes that
agrees with the common one after erasure. -/
theorem arrived_arrive (t : ℤ) (b b' : SchedBase) (enter : Process → Process)
    (henter : ∀ p, MLFQScheduler.toTop (enter p) = (MLFQScheduler.toTop p).enter t)
    (hb : b'.allProcesses = addWaiting r' (b.allProcesses.map enter))
    (hr : r'.Perm (r ++ arrivals t b.allProcesses)) (hrun : b'.running = b.running)
    (hcomp : b'.completed = b.completed) : Arrived t (baseView b r) (baseView b' r') := by
  refine ⟨⟨by simp [hb, addWaiting], ?_⟩, hr, hrun, hcomp⟩
  intro i hi
  rw [baseView_size] at hi
  have hproc : b'.proc i = { enter (b.proc i) with
      waitingTime := (enter (b.proc i)).waitingTime + r'.count i } := by
    unfold SchedBase.proc
    rw [hb, addWaiting, getD_mapIdx _ (by simpa using hi), getD_map _ hi]
  have hwait : (MLFQScheduler.toTop (enter (b.proc i))).waitingTime = (b.proc i).waitingTime := by
    rw [henter]
    unfold Process.enter MLFQScheduler.toTop
    split <;> rfl
  have hwait' : (enter (b.proc i)).waitingTime = (b.proc i).waitingTime := hwait
  simp only [baseView_proc, baseView_ready, hproc, ← henter]
  rw [hwait']
  rfl

theorem ReadyBase.arrived (t : ℤ) (s : ReadyBase) :
    Arrived t (baseView s.toSchedBase s.readyQueue)
      (baseView (s.arrive t).toSchedBase (s.arrive t).readyQueue) :=
  arrived_arrive t _ _ (Process.enter t) (toTop_enter t) rfl (List.Perm.refl _) rfl rfl

/-! ## The six schedulers -/

theorem perm_sortByKey (key : ℕ → ℤ) (queue : List ℕ) : (sortByKey key queue).Perm queue :=
  List.perm_insertionSort _ _

/-- The first three moves of a tick. -/
def SchedulePhases (t : ℤ) (v v' : SchedView) : Prop :=
  ∃ v₁ v₂, Arrived t v v₁ ∧ Preempted v₁ v₂ ∧ Dispatched t v₂ v'

theorem fifo_schedule_phases (t : ℤ) (s : FIFOScheduler) :
    SchedulePhases t (baseView s.toSchedBase s.readyQueue)
      (baseView (s.schedule t).toSchedBase (s.schedule t).readyQueue) := by
  refine ⟨_, _, ReadyBase.arrived t s.toReadyBase, .keep (Reordered.refl _), ?_⟩
  unfold FIFOScheduler.schedule
  generalize s.toReadyBase.arrive t = a
  dsimp only
  split
  · rename_i i rest hrun hready
    exact dispatched_dispatch t a.toSchedBase i hrun (by rw [hready])
  · exact .keep (Reordered.refl _)

theorem sjf_schedule_phases (t : ℤ) (s : SJFScheduler) :
    SchedulePhases t (baseView s.toSchedBase s.readyQueue)
      (baseView (s.schedule t).toSchedBase (s.schedule t).readyQueue) := by
  refine ⟨_, _, ReadyBase.arrived t s.toReadyBase, .keep (Reordered.refl _), ?_⟩
  unfold SJFScheduler.schedule
  generalize s.toReadyBase.arrive t = a
  dsimp only
  split
  · exact .keep (Reordered.refl _)
  · rename_i hrun
    split
    · exact .keep (Reordered.refl _)
    · rename_i i rest hsort
      have hperm := perm_sortByKey (fun i => (a.proc i).burstTime) a.readyQueue
      rw [hsort] at hperm
      exact dispatched_dispatch t a.toSchedBase i hrun hperm.symm

theorem stcf_schedule_phases (t : ℤ) (s : STCFScheduler) :
    SchedulePhases t (baseView s.toSchedBase s.readyQueue)
      (baseView (s.schedule t).toSchedBase (s.schedule t).readyQueue) := by
  have harr := ReadyBase.arrived t s.toReadyBase
  unfold STCFScheduler.schedule
  generalize s.toReadyBase.arrive t = a at harr ⊢
  dsimp only
  have hperm := perm_sortByKey (fun i => (a.proc i).remainingTime) a.readyQueue
  split
  · exact ⟨_, _, harr, .keep (Reordered.refl _), .keep (Reordered.refl _)⟩
  · rename_i shortest rest hsort
    rw [hsort] at hperm
    split
    · rename_i hrun
      exact ⟨_, _, harr, .keep (Reordered.refl _),
        dispatched_dispatch t a.toSchedBase shortest hrun hperm.symm⟩
    · rename_i j hrun
      split
      · -- the preempted process joins the queue before the shortest one leaves it
        let b : SchedBase :=
          { a.toSchedBase with allProcesses := a.allProcesses.modify j Process.preempt, running := none }
        refine ⟨_, baseView b (j :: a.readyQueue), harr,
          preempted_preempt a.toSchedBase b j _ hrun rfl rfl rfl (fun p => rfl) (List.Perm.refl _), ?_⟩
        refine dispatched_dispatch t b shortest rfl ?_
        calc (j :: a.readyQueue).Perm (j :: shortest :: rest) := hperm.symm.cons j
          _ |>.Perm (shortest :: j :: rest) := List.Perm.swap _ _ _
          _ |>.Perm (shortest :: (rest ++ [j])) := (List.perm_append_singleton j rest).symm.cons _
      · exact ⟨_, _, harr, .keep (Reordered.refl _), .keep (Reordered.of_perm _ hperm)⟩

theorem slice_preempted (s : SliceBase) :
    Preempted (baseView s.toSchedBase s.readyQueue)
      (baseView s.expire.toSchedBase s.expire.readyQueue) := by
  unfold SliceBase.expire
  split
  · rename_i j hrun
    split
    · exact preempted_preempt s.toSchedBase _ j Process.preempt hrun rfl rfl rfl (fun p => rfl)
        (List.perm_append_singleton j s.readyQueue)
    · exact .keep (Reordered.refl _)
  · exact .keep (Reordered.refl _)

theorem rr_schedule_phases (t : ℤ) (s : RRScheduler) :
    SchedulePhases t (baseView s.toSchedBase s.readyQueue)
      (baseView (s.schedule t).toSchedBase (s.schedule t).readyQueue) := by
  refine ⟨_, _, ReadyBase.arrived t s.toReadyBase,
    slice_preempted { s.toSliceBase with toReadyBase := s.toReadyBase.arrive t }, ?_⟩
  unfold RRScheduler.schedule
  generalize SliceBase.expire _ = a
  dsimp only
  split
  · rename_i i rest hrun hready
    exact dispatched_dispatch t a.toSchedBase i hrun (by rw [hready])
  · exact .keep (Reordered.refl _)

/-- The winner's position lies in the queue. -/
theorem winnerIdx_lt (tickets : ℕ → ℤ) (w : ℤ) (queue : List ℕ) (sum : ℤ) (i n : ℕ)
    (hn : i + queue.length ≤ n) (hpos : 0 < n) : winnerIdx tickets w queue sum i < n := by
  induction queue generalizing sum i with
  | nil => simpa [winnerIdx] using hpos
  | cons p queue ih =>
    simp only [List.length_cons] at hn
    simp only [winnerIdx]
    split
    · omega
    · exact ih _ (i + 1) (by omega)

theorem lottery_dispatched (t : ℤ) (s : LotteryScheduler) :
    Dispatched t (baseView s.toSchedBase s.readyQueue)
      (baseView (s.draw t).toSchedBase (s.draw t).readyQueue) := by
  unfold LotteryScheduler.draw
  dsimp only
  split
  · rename_i h
    obtain ⟨hrun, hlen, -⟩ := h
    generalize hw : winnerIdx _ _ s.readyQueue 0 0 = w
    have hlt : w < s.readyQueue.length := by
      rw [← hw]
      exact winnerIdx_lt _ _ _ _ _ _ (by omega) hlen
    refine dispatched_dispatch t s.toSchedBase _ (Option.isNone_iff_eq_none.mp hrun) ?_
    rw [List.getD_eq_getElem _ _ hlt]
    exact (List.getElem_cons_eraseIdx_perm hlt).symm
  · exact .keep (Reordered.refl _)

theorem lottery_schedule_phases (t : ℤ) (s : LotteryScheduler) :
    SchedulePhases t (baseView s.toSchedBase s.readyQueue)
      (baseView (s.schedule t).toSchedBase (s.schedule t).readyQueue) := by
  let a : SliceBase := { s.toSliceBase with toReadyBase := s.toReadyBase.arrive t }
  exact ⟨_, _, ReadyBase.arrived t s.toReadyBase, slice_preempted a,
    lottery_dispatched t { s with toSliceBase := a.expire }⟩

/-! ## MLFQ -/

/-- Every level has a queue, and every process is on some level. -/
structure LevelsOk (s : MLFQScheduler) : Prop where
  pos : 0 < s.numQueues
  length_eq : s.queues.length = s.numQueues
  level_lt : ∀ i, (s.proc i).currentQueue < s.numQueues

theorem flatten_modify_append {queues : List (List ℕ)} {q : ℕ} (hq : q < queues.length)
    (l : List ℕ) : (queues.modify q (· ++ l)).flatten.Perm (queues.flatten ++ l) := by
  induction queues generalizing q with
  | nil => simp at hq
  | cons a queues ih =>
    cases q with
    | zero =>
      simp only [List.modify_zero_cons, List.flatten_cons, List.append_assoc]
      exact List.perm_append_comm.append_left a
    | succ q =>
      simp only [List.modify_succ_cons, List.flatten_cons, List.append_assoc]
      exact (ih (by simpa using hq)).append_left a

theorem flatten_modify_tail {queues : List (List ℕ)} {q : ℕ} (hq : q < queues.length)
    (hne : 0 < (queues.getD q []).length) :
    queues.flatten.Perm ((queues.getD q []).headD 0 :: (queues.modify q List.tail).flatten) := by
  induction queues generalizing q with
  | nil => simp at hq
  | cons a queues ih =>
    cases q with
    | zero =>
      cases a with
      | nil => simp at hne
      | cons x a => simp
    | succ q =>
      simp only [List.getD_cons_succ] at hne
      simp only [List.modify_succ_cons, List.flatten_cons, List.getD_cons_succ]
      exact ((ih (by simpa using hq) hne).append_left a).trans List.perm_middle

theorem flatten_modify_replicate (n : ℕ) (hn : 0 < n) (l : List ℕ) :
    ((List.replicate n []).modify 0 (· ++ l)).flatten.Perm l := by
  have hq : 0 < (List.replicate n ([] : List ℕ)).length := by simpa using hn
  simpa using flatten_modify_append hq l

theorem mlfq_boost_reordered (t : ℤ) (s : MLFQScheduler) (hs : LevelsOk s) :
    Reordered (baseView s.toSchedBase s.queues.flatten)
      (baseView (s.boost t).toSchedBase (s.boost t).queues.flatten) := by
  unfold MLFQScheduler.boost
  dsimp only
  split
  · refine ⟨⟨by simp, ?_⟩, flatten_modify_replicate _ hs.pos _, rfl, rfl⟩
    intro i hi
    simp only [baseView_proc, SchedBase.proc]
    rw [getD_mapIdx _ (by simpa using hi)]
    split <;> rfl
  · exact ⟨⟨rfl, fun _ _ => rfl⟩, List.Perm.refl _, rfl, rfl⟩

theorem boost_running (t : ℤ) (s : MLFQScheduler) : (s.boost t).running = s.running := by
  unfold MLFQScheduler.boost
  dsimp only
  split <;> rfl

theorem boost_contextSwitches (t : ℤ) (s : MLFQScheduler) :
    (s.boost t).contextSwitches = s.contextSwitches := by
  unfold MLFQScheduler.boost
  dsimp only
  split <;> rfl

/-- Reordering first does not change what an arrival may do. -/
theorem Reordered.arrived {t : ℤ} {v v' v'' : SchedView} (h : Reordered v v')
    (ha : Arrived t v' v'') : Arrived t v v'' := by
  have hnew : newcomers t v' = newcomers t v := by
    unfold newcomers
    rw [h.updates.size_eq]
    refine List.filter_congr fun i hi => ?_
    rw [h.updates.proc_eq i (List.mem_range.mp hi)]
  refine ⟨⟨ha.updates.size_eq.trans h.updates.size_eq, ?_⟩, ?_,
    ha.running_eq.trans h.running_eq, ha.completed_eq.trans h.completed_eq⟩
  · intro i hi
    rw [ha.updates.proc_eq i (by rw [h.updates.size_eq]; exact hi), h.updates.proc_eq i hi]
  · rw [← hnew]
    exact ha.ready_perm.trans (h.ready_perm.append_right _)

theorem mlfq_arrived (t : ℤ) (s : MLFQScheduler) (hs : LevelsOk s) :
    Arrived t (baseView s.toSchedBase s.queues.flatten)
      (baseView (s.arrive t).toSchedBase (s.arrive t).queues.flatten) :=
  arrived_arrive t _ _ (MLFQScheduler.enter t) (toTop_mlfq_enter t) rfl
    (flatten_modify_append (by rw [hs.length_eq]; exact hs.pos) _) rfl rfl

theorem demote_level_lt {n : ℕ} {p : Process} (hp : p.currentQueue < n) :
    (MLFQScheduler.demote n p).currentQueue < n := by
  simp only [MLFQScheduler.demote]
  split <;> omega

theorem mlfq_preempted (s : MLFQScheduler) (hs : LevelsOk s) :
    Preempted (baseView s.toSchedBase s.queues.flatten)
      (baseView s.expire.toSchedBase s.expire.queues.flatten) := by
  have hback : ∀ q < s.queues.length, ∀ j,
      (s.queues.modify q (· ++ [j])).flatten.Perm (j :: s.queues.flatten) := fun q hq j =>
    (flatten_modify_append hq [j]).trans (List.perm_append_singleton j _)
  unfold MLFQScheduler.expire
  split
  · rename_i j hrun
    dsimp only
    split
    · -- demotion: the level written before the requeue decides the queue
      refine preempted_preempt s.toSchedBase _ j
        (fun p => (MLFQScheduler.demote s.numQueues p).preempt) hrun rfl rfl ?_ (fun p => rfl) ?_
      · exact List.modify_modify_eq _ _ _ _
      · refine hback _ ?_ j
        rw [hs.length_eq]
        exact forall_getD_modify (P := fun p => p.currentQueue < s.numQueues) j
          (fun _ => demote_level_lt) hs.level_lt j
    · split
      · exact preempted_preempt s.toSchedBase _ j Process.preempt hrun rfl rfl rfl (fun p => rfl)
          (hback _ (by rw [hs.length_eq]; exact hs.level_lt j) j)
      · exact .keep (Reordered.refl _)
  · exact .keep (Reordered.refl _)

theorem mlfq_dispatched (t : ℤ) (s : MLFQScheduler) :
    Dispatched t (baseView s.toSchedBase s.queues.flatten)
      (baseView (s.pick t).toSchedBase (s.pick t).queues.flatten) := by
  unfold MLFQScheduler.pick
  split
  · exact .keep (Reordered.refl _)
  · rename_i hrun
    split
    · exact .keep (Reordered.refl _)
    · rename_i q hfind
      obtain ⟨hq, hne, -⟩ := List.findIdx?_eq_some_iff_getElem.mp hfind
      refine dispatched_dispatch t s.toSchedBase _ hrun (flatten_modify_tail hq ?_)
      rw [List.getD_eq_getElem _ _ hq]
      simpa using hne

/-- The property of the levels that `LevelsOk` keeps of every process. -/
def LevelBelow (n : ℕ) (p : Process) : Prop := p.currentQueue < n

variable {s : MLFQScheduler}

theorem LevelsOk.boost (hs : LevelsOk s) (t : ℤ) : LevelsOk (s.boost t) := by
  unfold MLFQScheduler.boost
  dsimp only
  split
  · refine ⟨hs.pos, by simp, ?_⟩
    refine forall_getD_mapIdx (P := LevelBelow s.numQueues) (fun i p hp => ?_) hs.level_lt
    split
    · exact hs.pos
    · exact hp
  · exact ⟨hs.pos, hs.length_eq, hs.level_lt⟩

theorem LevelsOk.arrive (hs : LevelsOk s) (t : ℤ) : LevelsOk (s.arrive t) := by
  refine ⟨hs.pos, by simp [MLFQScheduler.arrive, hs.length_eq], ?_⟩
  refine forall_getD_mapIdx (P := LevelBelow s.numQueues) (fun _ _ hp => hp) ?_
  refine forall_getD_map (P := LevelBelow s.numQueues) (fun p hp => ?_) hs.level_lt
  unfold MLFQScheduler.enter
  split
  · exact hs.pos
  · exact hp

theorem LevelsOk.requeue (hs : LevelsOk s) (j : ℕ) : LevelsOk (MLFQScheduler.requeue j s) := by
  refine ⟨hs.pos, by simp [MLFQScheduler.requeue, hs.length_eq], ?_⟩
  exact forall_getD_modify (P := LevelBelow s.numQueues) j (fun _ hp => hp) hs.level_lt

theorem LevelsOk.expire (hs : LevelsOk s) : LevelsOk s.expire := by
  unfold MLFQScheduler.expire
  split
  · rename_i j _
    dsimp only
    split
    · have hdemoted : LevelsOk
          { s with allProcesses := s.allProcesses.modify j (MLFQScheduler.demote s.numQueues) } :=
        ⟨hs.pos, hs.length_eq, forall_getD_modify (P := LevelBelow s.numQueues) j
          (fun _ => demote_level_lt) hs.level_lt⟩
      exact hdemoted.requeue j
    · split
      · exact hs.requeue j
      · exact hs
  · exact hs

theorem LevelsOk.pick (hs : LevelsOk s) (t : ℤ) : LevelsOk (s.pick t) := by
  unfold MLFQScheduler.pick
  split
  · exact hs
  · split
    · exact hs
    · refine ⟨hs.pos, by simp [hs.length_eq], ?_⟩
      refine forall_getD_modify (P := LevelBelow s.numQueues) _ (fun p hp => ?_) hs.level_lt
      unfold Process.dispatch
      split <;> exact hp

theorem LevelsOk.schedule (hs : LevelsOk s) (t : ℤ) : LevelsOk (s.schedule t) :=
  (((hs.boost t).arrive t).expire).pick t

theorem mlfq_schedule_phases (t : ℤ) (s : MLFQScheduler) (hs : LevelsOk s) :
    SchedulePhases t (baseView s.toSchedBase s.queues.flatten)
      (baseView (s.schedule t).toSchedBase (s.schedule t).queues.flatten) :=
  ⟨_, _, (mlfq_boost_reordered t s hs).arrived (mlfq_arrived t _ (hs.boost t)),
    mlfq_preempted _ ((hs.boost t).arrive t), mlfq_dispatched t _⟩

/-- The execution half keeps what execution and termination keep of a process. -/
theorem forall_proc_execute (hexe : ∀ p, P p → P p.execute) (hter : ∀ p, P p → P (p.terminate t))
    (h : ∀ i, P (b.proc i)) (i : ℕ) : P ((b.execute label t).proc i) := by
  unfold SchedBase.execute
  split
  · dsimp only
    split
    · exact forall_getD_modify _ hter (forall_getD_modify _ hexe h) i
    · exact forall_getD_modify _ hexe h i
  · exact h i

theorem LevelsOk.tick (hs : LevelsOk s) (t : ℤ) : LevelsOk (s.tick t) := by
  have h := hs.schedule t
  unfold MLFQScheduler.tick
  dsimp only
  split
  · exact ⟨h.pos, h.length_eq, forall_proc_execute (P := LevelBelow _) _ t _ (fun _ hp => hp)
      (fun _ hp => hp) h.level_lt⟩
  · refine ⟨h.pos, h.length_eq, forall_proc_execute (P := LevelBelow _) _ t _ (fun _ hp => hp)
      (fun _ hp => hp) ?_⟩
    exact forall_getD_modify (P := LevelBelow _) _ (fun _ hp => hp) h.level_lt

/-! ## All schedulers -/

/-- What the queues of a scheduler need beyond their content: only MLFQ indexes them. -/
def LevelsInRange : Scheduler → Prop
  | .mlfq s => LevelsOk s
  | _ => True

theorem LevelsInRange.tick {s : Scheduler} (hs : LevelsInRange s) (t : ℤ) :
    LevelsInRange (s.tick t) := by
  cases s with
  | mlfq s => exact LevelsOk.tick hs t
  | _ => trivial

/-- **Under every policy, `Schedule` is the same sequence of phases.** -/
theorem schedule_phases (t : ℤ) (s : Scheduler) (hs : LevelsInRange s) :
    SchedulePhases t (schedView s) (schedView (s.schedule t)) := by
  cases s with
  | fifo s => exact fifo_schedule_phases t s
  | sjf s => exact sjf_schedule_phases t s
  | stcf s => exact stcf_schedule_phases t s
  | rr s => exact rr_schedule_phases t s
  | mlfq s => exact mlfq_schedule_phases t s hs
  | lottery s => exact lottery_schedule_phases t s

/-- All positions in the ready queue and the running slot are positions of processes. -/
structure InRange (v : SchedView) : Prop where
  ready : ∀ i ∈ v.ready, i < v.size
  running : ∀ i, v.running = some i → i < v.size

/-- The state after a tick is the execution of the scheduled state. -/
theorem executed_tick (t : ℤ) (s : Scheduler) (hs : InRange (schedView (s.schedule t))) :
    Executed t (schedView (s.schedule t)) (schedView (s.tick t)) := by
  cases s with
  | fifo s => exact executed_execute _ t _ _ hs.running
  | sjf s => exact executed_execute _ t _ _ hs.running
  | stcf s => exact executed_execute _ t _ _ hs.running
  | rr s => exact executed_execute _ t _ _ hs.running
  | lottery s => exact executed_execute _ t _ _ hs.running
  | mlfq s =>
    show Executed t (baseView (s.schedule t).toSchedBase (s.schedule t).queues.flatten)
      (baseView (s.tick t).toSchedBase (s.tick t).queues.flatten)
    have hin : ∀ i, (s.schedule t).running = some i →
        i < (s.schedule t).allProcesses.length := hs.running
    unfold MLFQScheduler.tick
    generalize s.schedule t = a at hin ⊢
    dsimp only
    split
    · exact executed_execute _ t _ _ hin
    · -- counting the tick against the allotment is invisible in the view
      rename_i j hj
      rw [← baseView_modify a.toSchedBase a.queues.flatten j
        (fun p => { p with allotmentUsed := p.allotmentUsed + 1 }) fun p => rfl]
      exact executed_execute _ t _ _ (by simpa using hin)

/-- The process in the slot after a tick is the one that the tick executed. -/
theorem tick_running (t : ℤ) (s : Scheduler) :
    (s.tick t).base.running = none ∨ (s.tick t).base.running = (s.schedule t).base.running := by
  cases s with
  | mlfq s =>
    show (s.tick t).running = none ∨ (s.tick t).running = (s.schedule t).running
    unfold MLFQScheduler.tick
    dsimp only
    split
    · exact execute_running MLFQScheduler.label t (s.schedule t).toSchedBase
    · exact execute_running _ _ _
  | _ => exact execute_running _ _ _

end OsSimulator.Interface
