import OsSimulator.Analysis.RoundRobinFairness
import OsSimulator.Analysis.FifoCompletion

/-!
# Round robin with a large quantum is FIFO

With a quantum that no burst exceeds, the running process of round robin completes before
its slice is used up: it has used as much of its slice as of its burst (`Unbroken.slot`).
The expiry test then never succeeds, and a tick of round robin is a tick of FIFO
(`Lockstep.tick`).  The invariant is proved along the moves of `Interface.TickPhases`; it
says nothing about arrival times, which may have any sign.
-/

set_option autoImplicit false

namespace OsSimulator.Analysis

open Model Interface

/-! ## The invariant -/

/-- Processes are dispatched once, and the running one has used as much of its slice as of its
burst. -/
structure Unbroken (Q slice : ℤ) (v : SchedView) : Prop where
  nodup : v.ready.Nodup
  inRange : ∀ i ∈ v.ready, i < v.size
  bursts : ∀ i < v.size, 1 ≤ (v.proc i).burstTime ∧ (v.proc i).burstTime ≤ Q
  untouched : ∀ i < v.size, (v.proc i).state = .new ∨ i ∈ v.ready →
    (v.proc i).remainingTime = (v.proc i).burstTime
  outside : ∀ i < v.size, (v.proc i).state = .new → i ∉ v.ready ∧ v.running ≠ some i
  slot : ∀ i, v.running = some i → i < v.size ∧ i ∉ v.ready ∧ 0 < (v.proc i).remainingTime ∧
    slice + (v.proc i).remainingTime = (v.proc i).burstTime

section Moves

variable {Q slice t : ℤ} {v v' : SchedView}

/-- The slice of a running process is not used up. -/
theorem Unbroken.slice_lt (hv : Unbroken Q slice v) {i : ℕ} (hi : v.running = some i) :
    slice < Q := by
  obtain ⟨hlt, -, hpos, heq⟩ := hv.slot i hi
  have := (hv.bursts i hlt).2
  omega

theorem Unbroken.mem_newcomers (hv : Unbroken Q slice v) {i : ℕ} (hi : i ∈ newcomers t v) :
    i < v.size ∧ (v.proc i).state = .new ∧ i ∉ v.ready ∧ v.running ≠ some i := by
  obtain ⟨hlt, harr⟩ := List.mem_filter.mp hi
  have hlt := List.mem_range.mp hlt
  simp only [Process.arrives, Bool.and_eq_true, beq_iff_eq] at harr
  exact ⟨hlt, harr.2, hv.outside i hlt harr.2⟩

/-- A process that is still new did not arrive. -/
theorem state_of_enter_new {p : Process} (hp : (p.enter t).state = .new) :
    p.state = .new ∧ p.arrives t = false := by
  unfold Process.enter at hp
  split at hp
  · cases hp
  · rename_i harr
    exact ⟨hp, Bool.eq_false_iff.mpr harr⟩

theorem enter_times (t : ℤ) (p : Process) :
    (p.enter t).burstTime = p.burstTime ∧ (p.enter t).remainingTime = p.remainingTime := by
  unfold Process.enter
  split <;> exact ⟨rfl, rfl⟩

theorem arrived_times (ha : Arrived t v v') {i : ℕ} (hi : i < v.size) :
    (v'.proc i).burstTime = (v.proc i).burstTime ∧
      (v'.proc i).remainingTime = (v.proc i).remainingTime := by
  rw [ha.updates.proc_eq i hi]
  exact enter_times t (v.proc i)

theorem arrived_new (ha : Arrived t v v') {i : ℕ} (hi : i < v.size)
    (hstate : (v'.proc i).state = .new) : (v.proc i).state = .new ∧ i ∉ newcomers t v := by
  rw [ha.updates.proc_eq i hi] at hstate
  obtain ⟨hold, hnot⟩ := state_of_enter_new hstate
  refine ⟨hold, fun hin => ?_⟩
  have harr : (v.proc i).arrives t = true := (List.mem_filter.mp hin).2
  simp [hnot] at harr

theorem Unbroken.arrived (hv : Unbroken Q slice v) (ha : Arrived t v v') :
    Unbroken Q slice v' := by
  have hsize := ha.updates.size_eq
  have hmem : ∀ i, i ∈ v'.ready ↔ i ∈ v.ready ∨ i ∈ newcomers t v := fun i => by
    rw [ha.ready_perm.mem_iff, List.mem_append]
  refine ⟨?_, ?_, ?_, ?_, ?_, ?_⟩
  · refine ha.ready_perm.nodup_iff.mpr (List.nodup_append.mpr ⟨hv.nodup, ?_, ?_⟩)
    · exact List.nodup_range.filter _
    · rintro i hi _ hin rfl
      exact (hv.mem_newcomers hin).2.2.1 hi
  · intro i hi
    rw [hsize]
    rcases (hmem i).mp hi with hold | hin
    · exact hv.inRange i hold
    · exact (hv.mem_newcomers hin).1
  · intro i hi
    rw [hsize] at hi
    rw [(arrived_times ha hi).1]
    exact hv.bursts i hi
  · intro i hi hplace
    rw [hsize] at hi
    rw [(arrived_times ha hi).1, (arrived_times ha hi).2]
    apply hv.untouched i hi
    rcases hplace with hstate | hready
    · exact .inl (arrived_new ha hi hstate).1
    · rcases (hmem i).mp hready with hold | hin
      · exact .inr hold
      · exact .inl (hv.mem_newcomers hin).2.1
  · intro i hi hstate
    rw [hsize] at hi
    obtain ⟨hold, hnot⟩ := arrived_new ha hi hstate
    obtain ⟨hready, hrunning⟩ := hv.outside i hi hold
    rw [hmem, ha.running_eq]
    exact ⟨fun h => h.elim hready hnot, hrunning⟩
  · intro i hi
    rw [ha.running_eq] at hi
    obtain ⟨hlt, hready, hpos, heq⟩ := hv.slot i hi
    rw [hsize, hmem, (arrived_times ha hlt).1, (arrived_times ha hlt).2]
    refine ⟨hlt, ?_, hpos, heq⟩
    rintro (hold | hin)
    · exact hready hold
    · exact (hv.mem_newcomers hin).2.2.2 hi

/-- An update of one process that is then not new, not ready, and possibly in the slot. -/
theorem Unbroken.updated (hv : Unbroken Q slice v) {slice' : ℤ} {j : ℕ} {f : Process → Process}
    (updates : Updates (only j f) v v') (hj : j < v.size)
    (hburst : (f (v.proc j)).burstTime = (v.proc j).burstTime)
    (hstate : (f (v.proc j)).state ≠ .new)
    (hnd : v'.ready.Nodup) (hmem : ∀ i ∈ v'.ready, i ∈ v.ready ∧ i ≠ j)
    (hslot : ∀ i, v'.running = some i → i = j ∧ 0 < (f (v.proc j)).remainingTime ∧
      slice' + (f (v.proc j)).remainingTime = (v.proc j).burstTime) :
    Unbroken Q slice' v' := by
  have hsize := updates.size_eq
  have hself := updates_only_self updates hj
  have hother : ∀ i < v.size, i ≠ j → v'.proc i = v.proc i := fun i hi hne =>
    updates_only_ne updates hi hne
  refine ⟨hnd, ?_, ?_, ?_, ?_, ?_⟩
  · intro i hi
    rw [hsize]
    exact hv.inRange i (hmem i hi).1
  · intro i hi
    rw [hsize] at hi
    by_cases hij : i = j
    · rw [hij, hself, hburst]
      exact hv.bursts j hj
    · rw [hother i hi hij]
      exact hv.bursts i hi
  · intro i hi hplace
    rw [hsize] at hi
    have hij : i ≠ j := by
      rintro rfl
      rcases hplace with hnew | hready
      · exact hstate (hself ▸ hnew)
      · exact (hmem i hready).2 rfl
    rw [hother i hi hij] at hplace ⊢
    exact hv.untouched i hi (hplace.imp_right fun h => (hmem i h).1)
  · intro i hi hnew
    rw [hsize] at hi
    have hij : i ≠ j := by
      rintro rfl
      exact hstate (hself ▸ hnew)
    rw [hother i hi hij] at hnew
    exact ⟨fun h => (hv.outside i hi hnew).1 (hmem i h).1, fun h => hij (hslot i h).1⟩
  · intro i hi
    obtain ⟨rfl, hpos, heq⟩ := hslot i hi
    rw [hsize, hself, hburst]
    exact ⟨hj, fun h => (hmem i h).2 rfl, hpos, heq⟩

theorem Unbroken.reordered (hv : Unbroken Q slice v) (hr : Reordered v v') :
    Unbroken Q slice v' := by
  have hsize := hr.updates.size_eq
  have hproc : ∀ i < v.size, v'.proc i = v.proc i := hr.updates.proc_eq
  have hmem : ∀ i, i ∈ v'.ready ↔ i ∈ v.ready := fun i => hr.ready_perm.mem_iff
  refine ⟨hr.ready_perm.nodup_iff.mpr hv.nodup, ?_, ?_, ?_, ?_, ?_⟩
  · intro i hi
    rw [hsize]
    exact hv.inRange i ((hmem i).mp hi)
  · intro i hi
    rw [hsize] at hi
    rw [hproc i hi]
    exact hv.bursts i hi
  · intro i hi hplace
    rw [hsize] at hi
    rw [hproc i hi, hmem] at hplace
    rw [hproc i hi]
    exact hv.untouched i hi hplace
  · intro i hi hnew
    rw [hsize] at hi
    rw [hproc i hi] at hnew
    rw [hmem, hr.running_eq]
    exact hv.outside i hi hnew
  · intro i hi
    rw [hr.running_eq] at hi
    have hslot := hv.slot i hi
    rw [hsize, hmem, hproc i hslot.1]
    exact hslot

/-- A dispatched process was not executed before, and its slice starts at `0`. -/
theorem Unbroken.start (hv : Unbroken Q slice v) {j : ℕ} (slot : v'.running = some j)
    (updates : Updates (only j (Process.dispatch t)) v v')
    (ready_perm : v.ready.Perm (j :: v'.ready)) : Unbroken Q 0 v' := by
  have hnd : (j :: v'.ready).Nodup := ready_perm.nodup_iff.mp hv.nodup
  have hready : j ∈ v.ready := ready_perm.mem_iff.mpr List.mem_cons_self
  have hj := hv.inRange j hready
  have hburst := (hv.bursts j hj).1
  have huntouched := hv.untouched j hj (.inr hready)
  obtain ⟨hb, hr, hs⟩ : ((v.proc j).dispatch t).burstTime = (v.proc j).burstTime ∧
      ((v.proc j).dispatch t).remainingTime = (v.proc j).remainingTime ∧
      ((v.proc j).dispatch t).state = .running := by
    unfold Process.dispatch
    split <;> exact ⟨rfl, rfl, rfl⟩
  refine hv.updated updates hj hb (by simp [hs]) (List.nodup_cons.mp hnd).2 ?_ ?_
  · intro i hi
    refine ⟨ready_perm.mem_iff.mpr (List.mem_cons_of_mem j hi), ?_⟩
    rintro rfl
    exact (List.nodup_cons.mp hnd).1 hi
  · intro i hi
    rw [hr]
    exact ⟨(Option.some.inj (slot.symm.trans hi)).symm, by omega, by omega⟩

/-- The slice after a tick of execution. -/
def nextSlice (slice : ℤ) (running running' : Option ℕ) : ℤ :=
  if running.isNone then slice else if running'.isNone then 0 else slice + 1

/-- A tick of execution moves the slice and the remaining time together. -/
theorem Unbroken.executed (hv : Unbroken Q slice v) (hexe : Executed t v v') :
    Unbroken Q (nextSlice slice v.running v'.running) v' := by
  cases hexe with
  | idle free hr =>
    rw [free, nextSlice, Option.isNone_none, if_pos rfl]
    exact hv.reordered hr
  | work j slot slot' more updates ready_eq _ =>
    obtain ⟨hj, hready, hpos, heq⟩ := hv.slot j slot
    have hstate : (v.proc j).state ≠ .new := fun h => (hv.outside j hj h).2 slot
    refine hv.updated updates hj rfl hstate (by rw [ready_eq]; exact hv.nodup) ?_ ?_
    · intro i hi
      rw [ready_eq] at hi
      exact ⟨hi, fun h => hready (h ▸ hi)⟩
    · intro i hi
      rw [slot, slot', nextSlice]
      simp only [Process.execute, Option.isNone_some, Bool.false_eq_true, if_false]
      exact ⟨(Option.some.inj (slot'.symm.trans hi)).symm, by omega, by omega⟩
  | finish j slot free last updates ready_eq _ =>
    obtain ⟨hj, hready, -, -⟩ := hv.slot j slot
    refine hv.updated updates hj rfl (by simp [Process.terminate])
      (by rw [ready_eq]; exact hv.nodup) ?_ ?_
    · intro i hi
      rw [ready_eq] at hi
      exact ⟨hi, fun h => hready (h ▸ hi)⟩
    · intro i hi
      exact absurd (free.symm.trans hi) (by simp)

end Moves

/-! ## Lockstep -/

/-- Both schedulers agree on everything but the slice, which is that of an unbroken run. -/
structure Lockstep (r : RRScheduler) (f : FIFOScheduler) : Prop where
  same : r.toReadyBase = f.toReadyBase
  unbroken : Unbroken r.quantum r.currentSlice (baseView r.toSchedBase r.readyQueue)

theorem readyBase_eq {a b : ReadyBase} (hbase : a.toSchedBase = b.toSchedBase)
    (hready : a.readyQueue = b.readyQueue) : a = b := by
  obtain ⟨base, ready⟩ := a
  obtain rfl : base = b.toSchedBase := hbase
  obtain rfl : ready = b.readyQueue := hready
  rfl

theorem expire_eq_self {s : SliceBase}
    (h : ∀ j, s.running = some j → s.currentSlice < s.quantum) : s.expire = s := by
  unfold SliceBase.expire
  cases hrun : s.running with
  | none => rfl
  | some j => exact if_neg (not_le.mpr (h j hrun))

section Tick

variable {r : RRScheduler} {f : FIFOScheduler} (hl : Lockstep r f) (t : ℤ)
include hl

/-- The expiry test fails, and both take the same process from the queue. -/
theorem Lockstep.schedule : Lockstep (r.schedule t) (f.schedule t) := by
  have harrived := hl.unbroken.arrived (ReadyBase.arrived t r.toReadyBase)
  have hexpire : SliceBase.expire { r.toSliceBase with toReadyBase := r.toReadyBase.arrive t } =
      { r.toSliceBase with toReadyBase := r.toReadyBase.arrive t } :=
    expire_eq_self fun j hj => harrived.slice_lt hj
  unfold RRScheduler.schedule FIFOScheduler.schedule
  rw [hexpire, ← hl.same]
  generalize r.toReadyBase.arrive t = a at harrived ⊢
  dsimp only
  split
  · rename_i i rest hrun hready
    have hupdates : Updates (only i (Process.dispatch t)) (baseView a.toSchedBase a.readyQueue)
        (baseView (a.toSchedBase.dispatch t i) rest) := updates_modify i _ _ rfl (toTop_dispatch t)
    refine ⟨rfl, harrived.start rfl hupdates ?_⟩
    show a.readyQueue.Perm (i :: rest)
    rw [hready]
  · exact ⟨rfl, harrived⟩

theorem Lockstep.tick : Lockstep (r.tick t) (f.tick t) := by
  have hmid := hl.schedule t
  have hexe := executed_execute Process.name t (r.schedule t).toSchedBase (r.schedule t).readyQueue
    fun i hi => (hmid.unbroken.slot i hi).1
  refine ⟨?_, hmid.unbroken.executed hexe⟩
  show ({ (r.schedule t).toReadyBase with
    toSchedBase := (r.schedule t).toSchedBase.execute Process.name t } : ReadyBase) =
      { (f.schedule t).toReadyBase with
        toSchedBase := (f.schedule t).toSchedBase.execute Process.name t }
  rw [hmid.same]

end Tick

/-- Clones that were not ticked yet. -/
theorem unbroken_clones {procs : List Process} {Q : ℤ} (hburst : ∀ p ∈ procs, 1 ≤ p.burstTime)
    (hQ : ∀ p ∈ procs, p.burstTime ≤ Q) (slice : ℤ) :
    Unbroken Q slice (baseView { allProcesses := procs.map Process.clone } []) := by
  have hproc : ∀ i < procs.length, ∃ p ∈ procs,
      (baseView { allProcesses := procs.map Process.clone } []).proc i =
        MLFQScheduler.toTop p.clone := by
    intro i hi
    refine ⟨procs.getD i default, ?_, ?_⟩
    · rw [List.getD_eq_getElem _ _ hi]
      exact List.getElem_mem hi
    · exact congrArg MLFQScheduler.toTop (getD_map Process.clone hi)
  refine ⟨List.nodup_nil, by simp, ?_, ?_, by simp, by simp⟩
  · intro i hi
    obtain ⟨p, hp, heq⟩ := hproc i (by simpa using hi)
    rw [heq]
    exact ⟨hburst p hp, hQ p hp⟩
  · intro i hi _
    obtain ⟨p, -, heq⟩ := hproc i (by simpa using hi)
    rw [heq]
    rfl

/-- **The two runs stay in lockstep.** -/
theorem lockstep_run {procs : List Process} {Q : ℤ} (hburst : ∀ p ∈ procs, 1 ≤ p.burstTime)
    (hQ : ∀ p ∈ procs, p.burstTime ≤ Q) (n : ℕ) :
    ∃ r f, ((SchedulerKind.rr Q).load procs).run n = .rr r ∧
      (SchedulerKind.fifo.load procs).run n = .fifo f ∧ Lockstep r f := by
  induction n with
  | zero =>
    obtain ⟨r, hr, hquantum, -⟩ := load_rr Q procs
    obtain ⟨f, hf⟩ := fifo_run procs 0
    have hr' : r.toReadyBase = { allProcesses := procs.map Process.clone } := by
      obtain ⟨hbase, hready, -⟩ := load_spec (.rr Q) procs
      rw [hr] at hbase hready
      exact readyBase_eq hbase hready
    have hf' : f.toReadyBase = { allProcesses := procs.map Process.clone } := by
      obtain ⟨hbase, hready, -⟩ := load_spec .fifo procs
      have hload : SchedulerKind.fifo.load procs = .fifo f := hf
      rw [hload] at hbase hready
      exact readyBase_eq hbase hready
    -- with a process to run the quantum is positive, and no default replaces it
    have hquantum' : ∀ p ∈ procs, p.burstTime ≤ r.quantum := fun p hp => by
      have hp1 := hburst p hp
      have hp2 := hQ p hp
      rw [hquantum, newRRScheduler_quantum (by omega)]
      exact hp2
    refine ⟨r, f, hr, hf, hr'.trans hf'.symm, ?_⟩
    rw [hr']
    exact unbroken_clones hburst hquantum' _
  | succ n ih =>
    obtain ⟨r, f, hr, hf, hl⟩ := ih
    refine ⟨r.tick n, f.tick n, ?_, ?_, hl.tick n⟩
    · rw [Scheduler.run, hr]
      rfl
    · rw [Scheduler.run, hf]
      rfl

/-- **Round robin with a large quantum is FIFO.**  When no burst exceeds the quantum, the two
schedulers agree after every tick on the Gantt chart, the completed processes, the number of
context switches and the recorded times of every process.
SOURCE: pkg/cpu/sched_rr.go:44-111, pkg/cpu/sched_fifo.go:37-96 -/
theorem rr_eq_fifo (procs : List Process) (Q : ℤ) (hburst : ∀ p ∈ procs, 1 ≤ p.burstTime)
    (hQ : ∀ p ∈ procs, p.burstTime ≤ Q) (n : ℕ) :
    let rr := (((SchedulerKind.rr Q).load procs).run n).base
    let fifo := ((SchedulerKind.fifo.load procs).run n).base
    rr.gantt = fifo.gantt ∧ rr.completed = fifo.completed ∧
      rr.contextSwitches = fifo.contextSwitches ∧
      ∀ i < procs.length,
        (rr.proc i).startTime = (fifo.proc i).startTime ∧
        (rr.proc i).finishTime = (fifo.proc i).finishTime ∧
        (rr.proc i).waitingTime = (fifo.proc i).waitingTime ∧
        (rr.proc i).turnaround = (fifo.proc i).turnaround ∧
        (rr.proc i).responseTime = (fifo.proc i).responseTime := by
  intro rr fifo
  obtain ⟨r, f, hr, hf, hl⟩ := lockstep_run hburst hQ n
  have hbase : rr = fifo := by
    show (((SchedulerKind.rr Q).load procs).run n).base =
      ((SchedulerKind.fifo.load procs).run n).base
    rw [hr, hf]
    exact congrArg ReadyBase.toSchedBase hl.same
  rw [hbase]
  exact ⟨rfl, rfl, rfl, fun i _ => ⟨rfl, rfl, rfl, rfl, rfl⟩⟩

/-- The first burst is the whole quantum; the second process arrives during it. -/
theorem rr_eq_fifo_overlapping :
    let procs := [newProcess 1 "P1" 0 3, newProcess 2 "P2" 1 2]
    let rr := (((SchedulerKind.rr 3).load procs).run 5).base
    let fifo := ((SchedulerKind.fifo.load procs).run 5).base
    fifo.completed = [0, 1] ∧ fifo.contextSwitches = 2 ∧ rr.gantt = fifo.gantt ∧
      rr.contextSwitches = fifo.contextSwitches := by
  intro procs rr fifo
  obtain ⟨hgantt, -, hswitches, -⟩ := rr_eq_fifo procs 3 (by decide) (by decide) 5
  exact ⟨by decide, by decide, hgantt, hswitches⟩

end OsSimulator.Analysis
