import OsSimulator.Analysis.ProcessLifecycle
import OsSimulator.Analysis.SchedInvariant
import OsSimulator.Model.Kernel

/-!
# Processes of the kernel

Runs of `Step`, `AddProcess` and process calls on a new kernel, with any scheduler.
`Awaits t v i` says that process `i` can still be chosen after tick `t`: it is ready or
running, or it is new and arrives later.  A tick lets no process into this set, and it leaves
the state of all others alone (`Advances`).

* The kernel advances its clock before it ticks the scheduler, and a scheduler admits a
  process only in the tick of its arrival time.  So a process that is added with an arrival
  time that is not in the future stays new (`added_stays_new`).
* The scheduler does not learn of an `Exit`.  The kernel runs live processes only as long as
  no process exits that can still be chosen (`step_runs_live`).
-/

set_option autoImplicit false

namespace OsSimulator.Analysis

open Model Interface

/-! ## What a tick leaves alone -/

variable {s : Scheduler}

section Views

variable {t t' : ℤ} {v v' w : SchedView} {i : ℕ}

/-- In the ready queue or in the running slot. -/
def Queued (v : SchedView) (i : ℕ) : Prop := i ∈ v.ready ∨ v.running = some i

def Awaits (t : ℤ) (v : SchedView) (i : ℕ) : Prop :=
  Queued v i ∨ (i < v.size ∧ (v.proc i).state = .new ∧ t < (v.proc i).arrivalTime)

theorem inRange_iff : InRange v ↔ ∀ i, Queued v i → i < v.size := by
  constructor
  · rintro hv i (hi | hi)
    · exact hv.ready i hi
    · exact hv.running i hi
  · exact fun hv => ⟨fun i hi => hv i (.inl hi), fun i hi => hv i (.inr hi)⟩

theorem Awaits.lt (hv : InRange v) (hi : Awaits t v i) : i < v.size := by
  rcases hi with hi | hi
  · exact inRange_iff.mp hv i hi
  · exact hi.1

/-- From time `t` to time `t'` no process starts to await its turn, and only processes that
do may change their state. -/
structure Advances (t t' : ℤ) (v v' : SchedView) : Prop where
  size_eq : v'.size = v.size
  pid_eq : ∀ i < v.size, (v'.proc i).pid = (v.proc i).pid
  awaits : ∀ i, Awaits t' v' i → Awaits t v i
  state_eq : ∀ i < v.size, ¬ Awaits t v i → (v'.proc i).state = (v.proc i).state

theorem Advances.trans {t₂ : ℤ} (h : Advances t t' v w) (h' : Advances t' t₂ w v') :
    Advances t t₂ v v' := by
  refine ⟨h'.size_eq.trans h.size_eq, ?_, fun i hi => h.awaits i (h'.awaits i hi), ?_⟩
  · intro i hi
    rw [h'.pid_eq i (h.size_eq ▸ hi), h.pid_eq i hi]
  · intro i hi hn
    rw [h'.state_eq i (h.size_eq ▸ hi) fun hw => hn (h.awaits i hw), h.state_eq i hi hn]

theorem Advances.inRange (h : Advances t t' v v') (hv : InRange v) : InRange v' := by
  rw [inRange_iff]
  intro i hi
  rw [h.size_eq]
  exact (h.awaits i (.inl hi)).lt hv

theorem Advances.of_reordered (h : Reordered v v') : Advances t t v v' := by
  have hproc := h.updates.proc_eq
  refine ⟨h.updates.size_eq, fun i hi => by rw [hproc i hi], ?_, fun i hi _ => by rw [hproc i hi]⟩
  rintro i ((hi | hi) | ⟨hlt, hnew⟩)
  · exact .inl (.inl (h.ready_perm.mem_iff.mp hi))
  · exact .inl (.inr (h.running_eq ▸ hi))
  · rw [h.updates.size_eq] at hlt
    rw [hproc i hlt] at hnew
    exact .inr ⟨hlt, hnew⟩

/-- A move of one queued process. -/
theorem Advances.of_move {j : ℕ} {f : Process → Process} (hu : Updates (only j f) v v')
    (hpid : ∀ p, (f p).pid = p.pid) (hj : Queued v j) (hq : ∀ i, Queued v' i → Queued v i) :
    Advances t t v v' := by
  have hother : ∀ i < v.size, i ≠ j → v'.proc i = v.proc i := fun i hi hij =>
    updates_only_ne hu hi hij
  refine ⟨hu.size_eq, ?_, ?_, ?_⟩
  · intro i hi
    rw [hu.proc_eq i hi, only]
    split
    · exact hpid _
    · rfl
  · rintro i (hi | ⟨hlt, hnew⟩)
    · exact .inl (hq i hi)
    · rw [hu.size_eq] at hlt
      by_cases hij : i = j
      · exact .inl (hij ▸ hj)
      · rw [hother i hlt hij] at hnew
        exact .inr ⟨hlt, hnew⟩
  · intro i hi hn
    rw [hother i hi fun hij => hn (.inl (hij ▸ hj))]

/-- Only processes that arrive at the new time enter the queue. -/
theorem advances_arrived (h : Arrived (t + 1) v v') : Advances t (t + 1) v v' := by
  have hproc := h.updates.proc_eq
  refine ⟨h.updates.size_eq, ?_, ?_, ?_⟩
  · intro i hi
    rw [hproc i hi]
    exact (enter_sameJob (t + 1) (v.proc i) _).pid_eq
  · rintro i ((hi | hi) | ⟨hlt, hnew, htime⟩)
    · rcases List.mem_append.mp (h.ready_perm.mem_iff.mp hi) with hi | hi
      · exact .inl (.inl hi)
      · obtain ⟨hlt, harr⟩ := List.mem_filter.mp hi
        simp only [Process.arrives, Bool.and_eq_true, beq_iff_eq] at harr
        exact .inr ⟨List.mem_range.mp hlt, harr.2, by omega⟩
    · exact .inl (.inr (h.running_eq ▸ hi))
    · rw [h.updates.size_eq] at hlt
      rw [hproc i hlt] at hnew htime
      unfold Process.enter at hnew htime
      split at hnew
      · cases hnew
      · rename_i hstay
        rw [if_neg hstay] at htime
        have htime : t + 1 < (v.proc i).arrivalTime := htime
        exact .inr ⟨hlt, hnew, by omega⟩
  · intro i hi hn
    rw [hproc i hi]
    unfold Process.enter
    split
    · rename_i harr
      simp only [Process.arrives, Bool.and_eq_true, beq_iff_eq] at harr
      exact absurd (.inr ⟨hi, harr.2, by omega⟩) hn
    · rfl

theorem advances_preempted (h : Preempted v v') : Advances t t v v' := by
  cases h with
  | keep hr => exact .of_reordered hr
  | yield j slot free updates ready_perm completed_eq =>
    refine .of_move updates (fun _ => rfl) (.inr slot) ?_
    rintro i (hi | hi)
    · rcases List.mem_cons.mp (ready_perm.mem_iff.mp hi) with rfl | hi
      · exact .inr slot
      · exact .inl hi
    · simp [free] at hi

theorem advances_dispatched {n : ℤ} (h : Dispatched n v v') : Advances t t v v' := by
  cases h with
  | keep hr => exact .of_reordered hr
  | start j free slot updates ready_perm completed_eq =>
    have hj : j ∈ v.ready := ready_perm.mem_iff.mpr (by simp)
    refine .of_move updates (fun p => (dispatch_sameJob n p).pid_eq) (.inl hj) ?_
    rintro i (hi | hi)
    · exact .inl (ready_perm.mem_iff.mpr (List.mem_cons_of_mem _ hi))
    · obtain rfl : j = i := by simpa [slot] using hi
      exact .inl hj

theorem advances_executed {n : ℤ} (h : Executed n v v') : Advances t t v v' := by
  cases h with
  | idle free hr => exact .of_reordered hr
  | work j slot slot' more updates ready_eq completed_eq =>
    refine .of_move updates (fun _ => rfl) (.inr slot) ?_
    rintro i (hi | hi)
    · exact .inl (ready_eq ▸ hi)
    · exact .inr (by rw [slot, ← hi, slot'])
  | finish j slot free last updates ready_eq completed_eq =>
    refine .of_move updates (fun _ => rfl) (.inr slot) ?_
    rintro i (hi | hi)
    · exact .inl (ready_eq ▸ hi)
    · simp [free] at hi

theorem advances_schedule (hl : LevelsInRange s) :
    Advances t (t + 1) (schedView s) (schedView (s.schedule (t + 1))) := by
  obtain ⟨v₁, v₂, ha, hp, hd⟩ := schedule_phases (t + 1) s hl
  exact ((advances_arrived ha).trans (advances_preempted hp)).trans (advances_dispatched hd)

/-- **One tick**, whatever the scheduler. -/
theorem advances_tick (hl : LevelsInRange s) (hs : InRange (schedView s)) :
    Advances t (t + 1) (schedView s) (schedView (s.tick (t + 1))) := by
  have hsched := advances_schedule (t := t) hl
  exact hsched.trans (advances_executed (executed_tick (t + 1) s (hsched.inRange hs)))

theorem inRange_schedule (hl : LevelsInRange s) (hs : InRange (schedView s)) :
    InRange (schedView (s.schedule t)) := by
  have hadv := advances_schedule (t := t - 1) hl
  rw [Int.sub_add_cancel] at hadv
  exact hadv.inRange hs

theorem inRange_tick (hl : LevelsInRange s) (hs : InRange (schedView s)) :
    InRange (schedView (s.tick t)) := by
  have hadv := advances_tick (t := t - 1) hl hs
  rw [Int.sub_add_cancel] at hadv
  exact hadv.inRange hs

end Views

/-! ## Runs of the kernel -/

/-- The kernels that runs with allowed actions only reach. -/
inductive KernelReachable (allowed : OSKernel → KernelAction → Prop)
    (kind : Option SchedulerKind) : OSKernel → Prop
  | new : KernelReachable allowed kind (newOSKernel (kind.map SchedulerKind.new))
  | act {k : OSKernel} {a : KernelAction} (hk : KernelReachable allowed kind k)
      (ha : allowed k a) : KernelReachable allowed kind (k.act a)

section Kernel

variable {k : OSKernel} {kind : Option SchedulerKind}

@[simp] theorem step_scheduler (k : OSKernel) :
    k.step.2.scheduler = k.scheduler.tick (k.currentTick + 1) := by
  unfold OSKernel.step
  dsimp only
  split
  · split <;> rfl
  · rfl

@[simp] theorem step_procManager (k : OSKernel) : k.step.2.procManager = k.procManager := by
  unfold OSKernel.step
  dsimp only
  split
  · split <;> rfl
  · rfl

@[simp] theorem step_currentTick (k : OSKernel) : k.step.2.currentTick = k.currentTick + 1 := by
  unfold OSKernel.step
  dsimp only
  split
  · split <;> rfl
  · rfl

/-- The process that the scheduler knows at position `i`. -/
theorem proc_addProcess_lt {p : Process} {i : ℕ} (hi : i < (schedView s).size) :
    (schedView (s.addProcess p)).proc i = (schedView s).proc i := by
  have hi : i < s.base.allProcesses.length := hi
  simp only [schedView, baseView_proc, SchedBase.proc, addProcess_base]
  rw [List.getD_append _ _ _ _ hi]

theorem proc_addProcess_last (s : Scheduler) (p : Process) :
    (schedView (s.addProcess p)).proc (schedView s).size = MLFQScheduler.toTop p := by
  simp only [schedView, baseView_proc, baseView_size, SchedBase.proc, addProcess_base]
  simp

@[simp] theorem size_addProcess (s : Scheduler) (p : Process) :
    (schedView (s.addProcess p)).size = (schedView s).size + 1 := by
  simp [schedView, addProcess_base]

theorem queued_addProcess {p : Process} {i : ℕ} :
    Queued (schedView (s.addProcess p)) i ↔ Queued (schedView s) i := by
  simp [Queued, schedView, addProcess_base, addProcess_ready]

/-- Only the added process may start to await its turn. -/
theorem awaits_addProcess {t : ℤ} {p : Process} {i : ℕ}
    (hi : Awaits t (schedView (s.addProcess p)) i) :
    Awaits t (schedView s) i ∨ i = (schedView s).size ∧ t < p.arrivalTime := by
  rcases hi with hi | ⟨hlt, hnew⟩
  · exact .inl (.inl (queued_addProcess.mp hi))
  · rw [size_addProcess] at hlt
    rcases Nat.lt_succ_iff_lt_or_eq.mp hlt with hlt | rfl
    · rw [proc_addProcess_lt hlt] at hnew
      exact .inl (.inr ⟨hlt, hnew⟩)
    · rw [proc_addProcess_last] at hnew
      exact .inr ⟨rfl, hnew.2⟩

/-- What holds of the two process tables in every run. -/
structure KernelOk (k : OSKernel) : Prop where
  levels : LevelsInRange k.scheduler
  inRange : InRange (schedView k.scheduler)
  table : TableOk k.procManager

theorem KernelOk.addProcess (hk : KernelOk k) (pid : ℤ) (name : String) (arrival burst : ℤ) :
    KernelOk (k.act (.addProcess pid name arrival burst)) := by
  refine ⟨LevelsInRange.addProcess hk.levels rfl, ?_, hk.table⟩
  rw [inRange_iff]
  intro i hi
  have hlt := inRange_iff.mp hk.inRange i (queued_addProcess.mp hi)
  simp only [OSKernel.act, size_addProcess]
  omega

theorem KernelOk.step (hk : KernelOk k) : KernelOk k.step.2 := by
  refine ⟨?_, ?_, ?_⟩
  · rw [step_scheduler]
    exact hk.levels.tick _
  · rw [step_scheduler]
    exact (advances_tick hk.levels hk.inRange).inRange hk.inRange
  · rw [step_procManager]
    exact hk.table

theorem KernelOk.act (hk : KernelOk k) (a : KernelAction) : KernelOk (k.act a) := by
  cases a with
  | step => exact hk.step
  | addProcess pid name arrival burst => exact hk.addProcess pid name arrival burst
  | procCall c => exact ⟨hk.levels, hk.inRange, hk.table.effect (call_effect hk.table c)⟩

/-- The kernel adds init to an empty scheduler. -/
theorem newOSKernel_scheduler (kind : Option SchedulerKind) :
    ∃ s : Scheduler, s.base = {} ∧ s.ready = [] ∧ LevelsInRange s ∧
      (newOSKernel (kind.map SchedulerKind.new)).scheduler =
        s.addProcess (newProcess 1 "init" 0 100) := by
  cases kind with
  | none => exact ⟨.rr (newRRScheduler 2), rfl, rfl, trivial, rfl⟩
  | some kind =>
    obtain ⟨hb, hr, hl⟩ := load_spec kind []
    exact ⟨kind.new, hb, hr, hl, rfl⟩

theorem kernelOk_new (kind : Option SchedulerKind) :
    KernelOk (newOSKernel (kind.map SchedulerKind.new)) := by
  obtain ⟨s, hb, hr, hl, hs⟩ := newOSKernel_scheduler kind
  refine ⟨?_, ?_, tableOk_new⟩
  · rw [hs]
    exact LevelsInRange.addProcess hl rfl
  · rw [hs, inRange_iff]
    intro i hi
    have hnone := queued_addProcess.mp hi
    simp [Queued, schedView, hb, hr] at hnone

theorem kernelOk_of_reachable {allowed : OSKernel → KernelAction → Prop}
    (hk : KernelReachable allowed kind k) : KernelOk k := by
  induction hk with
  | new => exact kernelOk_new kind
  | act _ _ ih => exact ih.act _

/-- Nobody awaits a turn in a new kernel: init has arrived before the first tick. -/
theorem not_awaits_new (i : ℕ) :
    ¬ Awaits 0 (schedView (newOSKernel (kind.map SchedulerKind.new)).scheduler) i := by
  obtain ⟨s, hb, hr, -, hs⟩ := newOSKernel_scheduler kind
  rw [hs]
  intro hi
  rcases awaits_addProcess hi with hi | ⟨-, hlt⟩
  · simp [Awaits, Queued, schedView, hb, hr] at hi
  · exact absurd hlt (by decide)

end Kernel

/-! ## Admission -/

/-- Every process given to the scheduler has left the state NEW. -/
def AllAdmitted (k : OSKernel) : Prop := ∀ p ∈ k.scheduler.base.allProcesses, p.state ≠ .new

/-- A process is added at or after its arrival time, with some work to do. -/
def addsArrived (k : OSKernel) : KernelAction → Prop
  | .addProcess _ _ arrivalTime burstTime =>
    0 ≤ arrivalTime ∧ arrivalTime ≤ k.currentTick ∧ 1 ≤ burstTime
  | _ => True

section Admission

variable {k : OSKernel} {kind : Option SchedulerKind}

/-- No process is admitted, and none will be. -/
structure Overlooked (k : OSKernel) : Prop where
  init_added : 0 < (schedView k.scheduler).size
  all_new : ∀ i < (schedView k.scheduler).size, ((schedView k.scheduler).proc i).state = .new
  none_awaits : ∀ i, ¬ Awaits k.currentTick (schedView k.scheduler) i

theorem overlooked_new (kind : Option SchedulerKind) :
    Overlooked (newOSKernel (kind.map SchedulerKind.new)) := by
  obtain ⟨s, hb, -, -, hs⟩ := newOSKernel_scheduler kind
  have hsize : (schedView s).size = 0 := by simp [schedView, hb]
  refine ⟨?_, ?_, not_awaits_new⟩
  · rw [hs, size_addProcess]
    omega
  · rw [hs, size_addProcess]
    intro i hi
    obtain rfl : i = (schedView s).size := by omega
    rw [proc_addProcess_last]
    rfl

theorem Overlooked.step (hk : Overlooked k) (hok : KernelOk k) : Overlooked k.step.2 := by
  have hadv := advances_tick (t := k.currentTick) hok.levels hok.inRange
  constructor
  · rw [step_scheduler, hadv.size_eq]
    exact hk.init_added
  · rw [step_scheduler, hadv.size_eq]
    intro i hi
    rw [hadv.state_eq i hi (hk.none_awaits i)]
    exact hk.all_new i hi
  · rw [step_scheduler, step_currentTick]
    exact fun i hi => hk.none_awaits i (hadv.awaits i hi)

theorem Overlooked.addProcess (hk : Overlooked k) (pid : ℤ) (name : String) {arrival : ℤ}
    (burst : ℤ) (htime : arrival ≤ k.currentTick) :
    Overlooked (k.act (.addProcess pid name arrival burst)) := by
  have hinit := hk.init_added
  constructor
  · simp only [OSKernel.act, size_addProcess]
    omega
  · simp only [OSKernel.act, size_addProcess]
    intro i hi
    rcases Nat.lt_succ_iff_lt_or_eq.mp hi with hi | rfl
    · rw [proc_addProcess_lt hi]
      exact hk.all_new i hi
    · rw [proc_addProcess_last]
      rfl
  · intro i hi
    rcases awaits_addProcess hi with hi | ⟨-, hlt⟩
    · exact hk.none_awaits i hi
    · exact absurd htime (not_le.mpr hlt)

theorem overlooked_of_reachable (hk : KernelReachable addsArrived kind k) : Overlooked k := by
  induction hk with
  | new => exact overlooked_new kind
  | @act k a hk ha ih =>
    cases a with
    | step => exact ih.step (kernelOk_of_reachable hk)
    | addProcess pid name arrival burst => exact ih.addProcess pid name burst ha.2.1
    | procCall c => exact ⟨ih.init_added, ih.all_new, ih.none_awaits⟩

/-- **No process that is added at or after its arrival time is ever admitted**: in every run,
and after the next `Step`, all of them are still new. -/
theorem added_stays_new (hk : KernelReachable addsArrived kind k) :
    ¬ AllAdmitted k.step.2 ∧ ∀ p ∈ k.step.2.scheduler.base.allProcesses, p.state = .new := by
  have hnext := (overlooked_of_reachable hk).step (kernelOk_of_reachable hk)
  have hall : ∀ p ∈ k.step.2.scheduler.base.allProcesses, p.state = .new := by
    intro p hp
    obtain ⟨i, hi, rfl⟩ := List.mem_iff_getElem.mp hp
    have hnew := hnext.all_new i hi
    simp only [schedView, baseView_proc, SchedBase.proc, List.getD_eq_getElem _ _ hi] at hnew
    exact hnew
  refine ⟨fun hadmitted => ?_, hall⟩
  have hmem := List.getElem_mem hnext.init_added
  exact hadmitted _ hmem (hall _ hmem)

/-- A child added in the tick in which it is forked, as the debugger does. -/
theorem added_stays_new_forked_child :
    KernelReachable addsArrived (some (.rr 2))
        (((newOSKernel (some (SchedulerKind.rr 2).new)).act .step).act
          (.addProcess 2 "child" 1 5)) ∧
      ¬ AllAdmitted (((newOSKernel (some (SchedulerKind.rr 2).new)).act .step).act
          (.addProcess 2 "child" 1 5)).step.2 := by
  have hstep : KernelReachable addsArrived (some (.rr 2))
      ((newOSKernel (some (SchedulerKind.rr 2).new)).act .step) := .act .new trivial
  have hadd := hstep.act (a := .addProcess 2 "child" 1 5) ⟨by decide, by decide, by decide⟩
  exact ⟨hadd, (added_stays_new hadd).1⟩

/-- Init arrives at tick 0, and the first tick of the scheduler is tick 1. -/
theorem init_not_admitted : ¬ AllAdmitted (newOSKernel none).step.2 := fun h =>
  h (newProcess 1 "init" 0 100) (by decide) rfl

end Admission

/-! ## Running live processes -/

/-- The next `Step` leaves the kernel idle or running the scheduled process, which is in the
process table and has not exited. -/
def RunsLive (k : OSKernel) : Prop :=
  ∀ i, (k.scheduler.tickResult (k.currentTick + 1)).1 = some i →
    ∃ pid p, k.step.2.runningProcess = some pid ∧
      (k.step.2.scheduler.base.proc i).pid = pid ∧ p.pid = pid ∧ Live k.step.2.procManager pid p

/-- Processes are added with PIDs of the process table. -/
def addsPresent (k : OSKernel) : KernelAction → Prop
  | .addProcess pid _ _ _ => k.procManager.processes pid ≠ none
  | _ => True

/-- Processes that can still be chosen are live: one with a future arrival time is added only
for a live process, and a process other than init exits only when the scheduler cannot choose
it any more. -/
def keepsAwaited (k : OSKernel) : KernelAction → Prop
  | .addProcess pid _ arrivalTime _ =>
    k.currentTick < arrivalTime → ∃ p, Live k.procManager pid p
  | .procCall (.exit pid _) =>
    pid = 1 ∨ ∀ i, Awaits k.currentTick (schedView k.scheduler) i →
      (k.scheduler.base.proc i).pid ≠ pid
  | _ => True

section RunsLive

variable {k : OSKernel} {kind : Option SchedulerKind}

/-- Every process that can still be chosen has a live entry in the process table. -/
def AwaitedLive (k : OSKernel) : Prop :=
  ∀ i, Awaits k.currentTick (schedView k.scheduler) i →
    ∃ p, Live k.procManager ((schedView k.scheduler).proc i).pid p

theorem AwaitedLive.step (hk : AwaitedLive k) (hok : KernelOk k) : AwaitedLive k.step.2 := by
  have hadv := advances_tick (t := k.currentTick) hok.levels hok.inRange
  unfold AwaitedLive
  rw [step_scheduler, step_currentTick, step_procManager]
  intro i hi
  have hbefore := hadv.awaits i hi
  rw [hadv.pid_eq i (hbefore.lt hok.inRange)]
  exact hk i hbefore

theorem AwaitedLive.addProcess (hk : AwaitedLive k) (hok : KernelOk k) {pid : ℤ} {name : String}
    {arrival burst : ℤ} (ha : keepsAwaited k (.addProcess pid name arrival burst)) :
    AwaitedLive (k.act (.addProcess pid name arrival burst)) := by
  intro i hi
  rcases awaits_addProcess hi with hi | ⟨rfl, hlt⟩
  · simp only [OSKernel.act, proc_addProcess_lt (hi.lt hok.inRange)]
    exact hk i hi
  · simp only [OSKernel.act, proc_addProcess_last]
    exact ha hlt

theorem AwaitedLive.procCall (hk : AwaitedLive k) (hok : KernelOk k) {c : ProcCall}
    (ha : keepsAwaited k (.procCall c)) : AwaitedLive (k.act (.procCall c)) := by
  intro i hi
  obtain ⟨p, hp⟩ := hk i hi
  refine hp.effect hok.table (call_effect hok.table c) ?_
  rintro exitCode rfl
  exact ha.resolve_right fun hother => hother i hi rfl

theorem awaitedLive_of_reachable (hk : KernelReachable keepsAwaited kind k) : AwaitedLive k := by
  induction hk with
  | new => exact fun i hi => absurd hi (not_awaits_new i)
  | @act k a hk ha ih =>
    have hok := kernelOk_of_reachable hk
    cases a with
    | step => exact ih.step hok
    | addProcess pid name arrival burst => exact ih.addProcess hok ha
    | procCall c => exact ih.procCall hok ha

/-- The kernel follows the scheduler: it looks the scheduled PID up unless it runs it already. -/
theorem step_runningProcess {i : ℕ} {p : UnixProcess}
    (hi : (k.scheduler.tick (k.currentTick + 1)).base.running = some i)
    (hp : k.procManager.processes
      ((k.scheduler.tick (k.currentTick + 1)).base.proc i).pid = some p)
    (hpid : p.pid = ((k.scheduler.tick (k.currentTick + 1)).base.proc i).pid) :
    k.step.2.runningProcess = some p.pid := by
  unfold OSKernel.step
  simp only [Scheduler.tickResult, hi, Option.map_some]
  split
  · simp [hp]
  · rename_i hsame
    rw [hpid]
    exact not_not.mp hsame

/-- **The kernel runs live processes only**, in every run that keeps the processes alive that
the scheduler can still choose. -/
theorem step_runs_live (hk : KernelReachable keepsAwaited kind k) : RunsLive k := by
  intro i hi
  have hok := kernelOk_of_reachable hk
  have hlive := (awaitedLive_of_reachable hk).step hok i
  rw [step_scheduler, step_procManager] at hlive
  obtain ⟨p, hp⟩ := hlive (.inl (.inr hi))
  have hpid : p.pid = ((k.scheduler.tick (k.currentTick + 1)).base.proc i).pid :=
    (hok.table.procs _ p hp.1).pid_eq
  refine ⟨p.pid, p, step_runningProcess hi hp.1 hpid, ?_, rfl, ?_⟩
  · rw [step_scheduler, hpid]
  · rw [step_procManager, hpid]
    exact hp

/-- A forked child that arrives in the next tick is run. -/
theorem step_runs_live_child :
    (((newOSKernel none).run [.procCall (.fork 1), .addProcess 2 "x" 1 5]).scheduler.tickResult
        1).1 = some 1 ∧
      RunsLive ((newOSKernel none).run [.procCall (.fork 1), .addProcess 2 "x" 1 5]) := by
  have hfork : KernelReachable keepsAwaited none ((newOSKernel none).act (.procCall (.fork 1))) :=
    .act .new trivial
  have hadd := hfork.act (a := .addProcess 2 "x" 1 5) fun _ => ⟨_, rfl, by decide⟩
  exact ⟨by decide, step_runs_live hadd⟩

/-- The child exits between two steps, and the kernel runs the zombie. -/
theorem step_runs_zombie :
    KernelReachable addsPresent none ((newOSKernel none).run
        [.procCall (.fork 1), .addProcess 2 "x" 1 5, .procCall (.exit 2 0)]) ∧
      ¬ RunsLive ((newOSKernel none).run
        [.procCall (.fork 1), .addProcess 2 "x" 1 5, .procCall (.exit 2 0)]) := by
  constructor
  · have hfork : KernelReachable addsPresent none ((newOSKernel none).act (.procCall (.fork 1))) :=
      .act .new trivial
    have hadd := hfork.act (a := .addProcess 2 "x" 1 5) (Option.some_ne_none _)
    exact hadd.act (a := .procCall (.exit 2 0)) trivial
  · intro h
    obtain ⟨pid, p, hrun, -, -, hp, hlive⟩ := h 1 (by decide)
    obtain rfl : pid = 2 := by
      have hzombie := hrun.symm.trans (by decide : _ = some (2 : ℤ))
      exact Option.some.inj hzombie
    have hstate := congrArg (Option.map UnixProcess.state) hp
    exact hlive (Option.some.inj (hstate.symm.trans (by decide : _ = some UnixProcessState.zombie)))

end RunsLive

end OsSimulator.Analysis
