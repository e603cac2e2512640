import OsSimulator.Analysis.Places

/-!
# The invariant of a scheduler run

`SchedInv W h n now R v` describes the view `v` in terms of the workload `W` and the
execution history `h`, where `h k` is the process that tick `k` executed and `n`
ticks of it count.  Every process is in exactly one place, and what its timing fields
say follows from the place:

* a process that has not arrived (`Pending`) is untouched,
* a ready process (`Active`) has waited for all ticks since its arrival but those it
  executed in,
* a completed process (`Finished`) was executed for exactly its burst.

Between two ticks the process in the running slot has waited one tick more than it
should: every tick counts the ready processes as waiting before one of them is
dispatched.  During the tick the surplus is gone, because the process in the slot is
not counted.  `R` is what is known about the running slot: `Slot` between the ticks,
`Kept` before the dispatch, `Chosen` after it.
-/

set_option autoImplicit false

namespace OsSimulator.Analysis

open Model Interface

/-- Fresh processes with a non-negative arrival time and a positive burst. -/
structure Workload where
  procs : List Process
  fresh : ∀ p ∈ procs, p.clone = p
  arrival_nonneg : ∀ p ∈ procs, 0 ≤ p.arrivalTime
  burst_pos : ∀ p ∈ procs, 1 ≤ p.burstTime

def Workload.proc (W : Workload) (i : ℕ) : Process := W.procs.getD i default

/-- The ticks before `n` that executed process `i`, in order. -/
def ticksOf (h : ℕ → Option ℕ) (i n : ℕ) : List ℕ :=
  (List.range n).filter fun k => h k = some i

section Ticks

variable {h : ℕ → Option ℕ} {i n : ℕ}

theorem ticksOf_succ_self (hn : h n = some i) : ticksOf h i (n + 1) = ticksOf h i n ++ [n] := by
  simp [ticksOf, List.range_succ, List.filter_append, hn]

theorem ticksOf_succ_other (hn : h n ≠ some i) : ticksOf h i (n + 1) = ticksOf h i n := by
  simp [ticksOf, List.range_succ, List.filter_append, hn]

theorem mem_ticksOf {k : ℕ} : k ∈ ticksOf h i n ↔ k < n ∧ h k = some i := by
  simp [ticksOf]

/-- The first executed tick. -/
theorem ticksOf_head {k : ℕ} (hhead : (ticksOf h i n).head? = some k) :
    h k = some i ∧ k < n ∧ ticksOf h i k = [] := by
  induction n with
  | zero => simp [ticksOf] at hhead
  | succ n ih =>
    by_cases hn : h n = some i
    · rw [ticksOf_succ_self hn, List.head?_append] at hhead
      cases hfirst : (ticksOf h i n).head? with
      | none =>
        rw [hfirst] at hhead
        obtain rfl : n = k := by simpa using hhead
        exact ⟨hn, Nat.lt_succ_self n, List.head?_eq_none_iff.mp hfirst⟩
      | some k' =>
        rw [hfirst] at hhead
        obtain rfl : k' = k := by simpa using hhead
        obtain ⟨hk, hlt, hnil⟩ := ih hfirst
        exact ⟨hk, by omega, hnil⟩
    · rw [ticksOf_succ_other hn] at hhead
      obtain ⟨hk, hlt, hnil⟩ := ih hhead
      exact ⟨hk, by omega, hnil⟩

end Ticks

/-! ## What is known of a process in each place -/

section Places

variable (h : ℕ → Option ℕ) (n : ℕ) (now : ℤ) (i : ℕ) (p : Process)

/-- The start time is the first executed tick, and fixes the response time. -/
def StartOk : Prop :=
  (ticksOf h i n = [] ∧ p.startTime = -1) ∨
    ∃ k : ℕ, (ticksOf h i n).head? = some k ∧ p.startTime = k ∧ p.responseTime = k - p.arrivalTime

structure Pending : Prop where
  state_eq : p.state = .new
  later : now ≤ p.arrivalTime
  untouched : p.remainingTime = p.burstTime
  unstarted : p.startTime = -1
  waiting_eq : p.waitingTime = 0
  ticks_eq : ticksOf h i n = []

/-- An arrived, unfinished process that has waited `extra` ticks more than it was idle. -/
structure Active (extra : ℤ) : Prop where
  arrived : p.arrivalTime < now
  remaining_pos : 0 < p.remainingTime
  waiting_eq : p.waitingTime = now - p.arrivalTime - (p.burstTime - p.remainingTime) + extra
  work_eq : p.burstTime - p.remainingTime = (ticksOf h i n).length
  ticks_after : ∀ k ∈ ticksOf h i n, p.arrivalTime ≤ (k : ℤ)

structure Finished : Prop where
  state_eq : p.state = .terminated
  remaining_eq : p.remainingTime = 0
  work_eq : p.burstTime = (ticksOf h i n).length
  ticks_after : ∀ k ∈ ticksOf h i n, p.arrivalTime ≤ (k : ℤ)
  start_ok : ∃ k : ℕ, (ticksOf h i n).head? = some k ∧ p.startTime = k ∧
    p.responseTime = k - p.arrivalTime
  finish_eq : ∃ k : ℕ, (ticksOf h i n).getLast? = some k ∧ p.finishTime = k + 1
  turnaround_eq : p.turnaround = p.finishTime - p.arrivalTime
  waiting_eq : p.waitingTime = p.turnaround - p.burstTime + 1

/-- The running slot between two ticks. -/
def Slot : Prop :=
  Active h n now i p 1 ∧ StartOk h n i p ∧ ticksOf h i n ≠ []

/-- The running slot during a tick, before the dispatch. -/
def Kept : Prop :=
  Active h n now i p 0 ∧ StartOk h n i p ∧ ticksOf h i n ≠ []

/-- The running slot during a tick, after the dispatch: a first dispatch has set the
start time to the current tick. -/
def Chosen : Prop :=
  Active h n now i p 0 ∧
    ((StartOk h n i p ∧ ticksOf h i n ≠ []) ∨
      (ticksOf h i n = [] ∧ p.startTime = now - 1 ∧ p.responseTime = now - 1 - p.arrivalTime))

end Places

section Clock

variable {h : ℕ → Option ℕ} {n : ℕ} {now : ℤ} {i : ℕ} {p : Process} {extra : ℤ}

/-- A tick that does not execute `i` leaves its history alone. -/
theorem Pending.next (hp : Pending h n now i p) (hn : h n ≠ some i) : Pending h (n + 1) now i p :=
  { hp with ticks_eq := by rw [ticksOf_succ_other hn]; exact hp.ticks_eq }

theorem Active.next (hp : Active h n now i p extra) (hn : h n ≠ some i) :
    Active h (n + 1) now i p extra :=
  { hp with
    work_eq := by rw [ticksOf_succ_other hn]; exact hp.work_eq
    ticks_after := by rw [ticksOf_succ_other hn]; exact hp.ticks_after }

theorem StartOk.next (hp : StartOk h n i p) (hn : h n ≠ some i) : StartOk h (n + 1) i p := by
  unfold StartOk
  rw [ticksOf_succ_other hn]
  exact hp

theorem Finished.next (hp : Finished h n i p) (hn : h n ≠ some i) : Finished h (n + 1) i p := by
  obtain ⟨hstate, hremaining, hwork, hafter, hstart, hfinish, hturnaround, hwaiting⟩ := hp
  rw [← ticksOf_succ_other hn] at hwork hafter hstart hfinish
  exact ⟨hstate, hremaining, hwork, hafter, hstart, hfinish, hturnaround, hwaiting⟩

/-- A tick spent in the ready queue is waited for. -/
theorem Active.waited (hp : Active h n now i p extra) :
    Active h n (now + 1) i { p with waitingTime := p.waitingTime + 1 } extra := by
  have hwait := hp.waiting_eq
  have harr := hp.arrived
  refine { hp with arrived := ?_, waiting_eq := ?_ }
  · show p.arrivalTime < now + 1
    omega
  · show p.waitingTime + 1 = now + 1 - p.arrivalTime - (p.burstTime - p.remainingTime) + extra
    omega

/-- A tick spent in the slot is not. -/
theorem Active.kept (hp : Active h n now i p (extra + 1)) : Active h n (now + 1) i p extra := by
  have hwait := hp.waiting_eq
  have harr := hp.arrived
  exact { hp with arrived := by omega, waiting_eq := by omega }

theorem Pending.stays (hp : Pending h n now i p) (hne : p.arrivalTime ≠ now) :
    Pending h n (now + 1) i p := by
  have hlater := hp.later
  exact { hp with later := by omega }

theorem Pending.enters (hp : Pending h n now i p) (htime : p.arrivalTime = now)
    (hburst : 1 ≤ p.burstTime) :
    Active h n (now + 1) i { p with state := .ready, waitingTime := p.waitingTime + 1 } 0 ∧
      StartOk h n i { p with state := .ready, waitingTime := p.waitingTime + 1 } := by
  have huntouched := hp.untouched
  have hwait := hp.waiting_eq
  refine ⟨⟨?_, ?_, ?_, ?_, ?_⟩, .inl ⟨hp.ticks_eq, hp.unstarted⟩⟩
  · show p.arrivalTime < now + 1
    omega
  · show 0 < p.remainingTime
    omega
  · show p.waitingTime + 1 = now + 1 - p.arrivalTime - (p.burstTime - p.remainingTime) + 0
    omega
  · show p.burstTime - p.remainingTime = (ticksOf h i n).length
    rw [hp.ticks_eq, huntouched, Int.sub_self]
    rfl
  · rw [hp.ticks_eq]
    exact fun k hk => absurd hk List.not_mem_nil

end Clock

/-! ## The invariant -/

/-- The fields no scheduler writes. -/
structure SameJob (p q : Process) : Prop where
  pid_eq : q.pid = p.pid
  name_eq : q.name = p.name
  arrival_eq : q.arrivalTime = p.arrivalTime
  burst_eq : q.burstTime = p.burstTime
  tickets_eq : q.tickets = p.tickets

structure SchedInv (W : Workload) (h : ℕ → Option ℕ) (n : ℕ) (now : ℤ)
    (R : ℕ → Process → Prop) (v : SchedView) : Prop where
  size_eq : v.size = W.procs.length
  nodup : (places v).Nodup
  inRange : ∀ i ∈ places v, i < v.size
  job : ∀ i < v.size, SameJob (W.proc i) (v.proc i)
  pending : ∀ i < v.size, i ∉ places v → Pending h n now i (v.proc i)
  ready : ∀ i ∈ v.ready, (v.proc i).state = .ready ∧ Active h n now i (v.proc i) 0 ∧
    StartOk h n i (v.proc i)
  running : ∀ i, v.running = some i → (v.proc i).state = .running ∧ R i (v.proc i)
  completed : ∀ i ∈ v.completed, Finished h n i (v.proc i)

section Phases

variable {W : Workload} {h : ℕ → Option ℕ} {n : ℕ} {now : ℤ} {R : ℕ → Process → Prop}
  {v v' : SchedView} {i j : ℕ} {f : Process → Process}

theorem SchedInv.lt_size (hv : SchedInv W h n now R v) (hi : i < W.procs.length) : i < v.size := by
  rw [hv.size_eq]
  exact hi

theorem SchedInv.lt_length (hv : SchedInv W h n now R v) (hi : i ∈ places v) :
    i < W.procs.length := by
  rw [← hv.size_eq]
  exact hv.inRange i hi

/-! ## Arrivals -/

/-- The states say of every process at a place that it has entered. -/
theorem SchedInv.placed (hv : SchedInv W h n now R v) : Placed v := by
  refine ⟨hv.nodup, hv.inRange, fun i hi => ?_⟩
  rcases mem_places.mp hi with hi | hi | hi
  · rw [(hv.ready i hi).1]; simp
  · rw [(hv.running i hi).1]; simp
  · rw [(hv.completed i hi).state_eq]; simp

/-- `enter` writes the state only. -/
theorem enter_sameJob (t : ℤ) (p : Process) (w : ℤ) :
    SameJob p { p.enter t with waitingTime := w } := by
  unfold Process.enter
  split <;> exact ⟨rfl, rfl, rfl, rfl, rfl⟩

theorem SameJob.trans {p q r : Process} (hpq : SameJob p q) (hqr : SameJob q r) : SameJob p r :=
  ⟨hqr.pid_eq.trans hpq.pid_eq, hqr.name_eq.trans hpq.name_eq,
    hqr.arrival_eq.trans hpq.arrival_eq, hqr.burst_eq.trans hpq.burst_eq,
    hqr.tickets_eq.trans hpq.tickets_eq⟩

theorem SchedInv.burst_pos (hv : SchedInv W h n now R v) (hi : i < v.size) :
    1 ≤ (v.proc i).burstTime := by
  have hlt : i < W.procs.length := hv.size_eq ▸ hi
  rw [(hv.job i hi).burst_eq, Workload.proc, List.getD_eq_getElem _ _ hlt]
  exact W.burst_pos _ (List.getElem_mem hlt)

/-- Outside the ready queue nothing happens to a process that does not arrive. -/
theorem proc_same_of_arrived {t : ℤ} (ha : Arrived t v v') (hi : i < v.size)
    (hstay : (v.proc i).enter t = v.proc i) (hready : i ∉ v'.ready) : v'.proc i = v.proc i := by
  rw [ha.updates.proc_eq i hi, List.count_eq_zero_of_not_mem hready, hstay]
  simp

/-- **Arrivals.**  The newcomers and every ready process have now waited for this tick. -/
theorem SchedInv.arrived (hv : SchedInv W h n n (Slot h n n) v) (ha : Arrived n v v') :
    SchedInv W h n (n + 1) (Kept h n (n + 1)) v' := by
  have hplaced := hv.placed.arrived ha
  have hnd := hplaced.nodup
  have hproc := ha.updates.proc_eq
  have hsize := ha.updates.size_eq
  have hmem (i : ℕ) : i ∈ places v' ↔ i ∈ newcomers n v ∨ i ∈ places v := by
    rw [(places_arrived ha).mem_iff, List.mem_append]
  have hrange (i : ℕ) (hi : i ∈ places v') : i < v.size := hsize ▸ hplaced.lt_size i hi
  refine ⟨hsize.trans hv.size_eq, hnd, hplaced.lt_size, ?_, ?_, ?_, ?_, ?_⟩
  · intro i hi
    rw [hsize] at hi
    rw [hproc i hi]
    exact (hv.job i hi).trans (enter_sameJob _ _ _)
  · intro i hi hout
    rw [hsize] at hi
    have hp := hv.pending i hi fun hin => hout ((hmem i).mpr (.inr hin))
    have hnot : (v.proc i).arrives n = false := by
      by_contra harr
      rw [Bool.not_eq_false] at harr
      exact hout ((hmem i).mpr (.inl (List.mem_filter.mpr ⟨List.mem_range.mpr hi, harr⟩)))
    have hstay : (v.proc i).enter n = v.proc i := by
      rw [Process.enter, hnot]
      rfl
    rw [proc_same_of_arrived ha hi hstay fun hr => hout (mem_places_of_ready hr)]
    refine hp.stays fun heq => ?_
    simp [Process.arrives, heq, hp.state_eq] at hnot
  · intro i hi
    have hlt := hrange i (mem_places_of_ready hi)
    have hone : v'.ready.count i = 1 :=
      List.count_eq_one_of_mem (List.nodup_append.mp (List.nodup_append.mp hnd).1).1 hi
    rw [hproc i hlt, hone, Int.natCast_one]
    rcases List.mem_append.mp (ha.ready_perm.mem_iff.mp hi) with hold | hnew
    · obtain ⟨hstate, hact, hstart⟩ := hv.ready i hold
      rw [enter_of_not_new (by rw [hstate]; simp)]
      exact ⟨hstate, hact.waited, hstart⟩
    · obtain ⟨-, hout, harr, htime⟩ := hv.placed.mem_newcomers hnew
      rw [enter_of_arrives harr]
      exact ⟨rfl, (hv.pending i hlt hout).enters htime (hv.burst_pos hlt)⟩
  · intro i hi
    have hin := mem_places_of_running hi
    have hready := not_ready_of_running hnd hi
    rw [ha.running_eq] at hi
    obtain ⟨hstate, hact, hstart, hticks⟩ := hv.running i hi
    rw [proc_same_of_arrived ha (hrange i hin) (enter_of_not_new (by rw [hstate]; simp)) hready]
    exact ⟨hstate, Active.kept hact, hstart, hticks⟩
  · intro i hi
    have hin := mem_places_of_completed hi
    have hready : i ∉ v'.ready := fun hr => not_completed_of_ready hnd hr hi
    rw [ha.completed_eq] at hi
    have hfin := hv.completed i hi
    rw [proc_same_of_arrived ha (hrange i hin) (enter_of_not_new (by rw [hfin.state_eq]; simp))
      hready]
    exact hfin

/-! ## Moves between the ready queue and the slot -/

theorem SchedInv.reordered (hv : SchedInv W h n now R v) (hr : Reordered v v') :
    SchedInv W h n now R v' := by
  have hp := places_reordered hr
  have hplaced := hv.placed.reordered hr
  have hsize := hr.updates.size_eq
  have hproc : ∀ i ∈ places v, v'.proc i = v.proc i := fun i hi =>
    hr.updates.proc_eq i (hv.inRange i hi)
  refine ⟨hsize.trans hv.size_eq, hplaced.nodup, hplaced.lt_size, ?_, ?_, ?_, ?_, ?_⟩
  · intro i hi
    rw [hsize] at hi
    rw [hr.updates.proc_eq i hi]
    exact hv.job i hi
  · intro i hi hout
    rw [hsize] at hi
    rw [hr.updates.proc_eq i hi]
    exact hv.pending i hi fun hmem => hout (hp.mem_iff.mpr hmem)
  · intro i hi
    have hi := hr.ready_perm.mem_iff.mp hi
    rw [hproc i (mem_places_of_ready hi)]
    exact hv.ready i hi
  · intro i hi
    rw [hr.running_eq] at hi
    rw [hproc i (mem_places_of_running hi)]
    exact hv.running i hi
  · intro i hi
    rw [hr.completed_eq] at hi
    rw [hproc i (mem_places_of_completed hi)]
    exact hv.completed i hi

/-- An update of one process leaves the others alone. -/
theorem updates_only_ne (hu : Updates (only j f) v v') (hi : i < v.size) (hne : i ≠ j) :
    v'.proc i = v.proc i := by
  rw [hu.proc_eq i hi, only, if_neg hne]

theorem updates_only_self (hu : Updates (only j f) v v') (hj : j < v.size) :
    v'.proc j = f (v.proc j) := by
  rw [hu.proc_eq j hj, only, if_pos rfl]

/-- The jobs survive an update of one process that keeps its job. -/
theorem SchedInv.job_of_updates (hv : SchedInv W h n now R v) (hu : Updates (only j f) v v')
    (hf : ∀ p, SameJob p (f p)) (i : ℕ) (hi : i < v'.size) : SameJob (W.proc i) (v'.proc i) := by
  rw [hu.size_eq] at hi
  by_cases hij : i = j
  · subst hij
    rw [updates_only_self hu hi]
    exact (hv.job i hi).trans (hf _)
  · rw [updates_only_ne hu hi hij]
    exact hv.job i hi

theorem dispatch_sameJob (t : ℤ) (p : Process) : SameJob p (p.dispatch t) := by
  unfold Process.dispatch
  split <;> exact ⟨rfl, rfl, rfl, rfl, rfl⟩

/-- **Preemption.**  The running process may return to the ready queue. -/
theorem SchedInv.preempted (hv : SchedInv W h n now (Kept h n now) v) (hpre : Preempted v v') :
    SchedInv W h n now (Kept h n now) v' := by
  have hp := places_preempted hpre
  have hplaced := hv.placed.preempted hpre
  cases hpre with
  | keep hr => exact hv.reordered hr
  | yield j slot free updates ready_perm completed_eq =>
    have hsize := updates.size_eq
    have hj := mem_places_of_running slot
    obtain ⟨hstate, hact, hstart, -⟩ := hv.running j slot
    refine ⟨hsize.trans hv.size_eq, hplaced.nodup, hplaced.lt_size, ?_, ?_, ?_, ?_, ?_⟩
    · exact hv.job_of_updates updates fun p => ⟨rfl, rfl, rfl, rfl, rfl⟩
    · intro i hi hout
      rw [hsize] at hi
      have hout' : i ∉ places v := fun hmem => hout (hp.mem_iff.mpr hmem)
      rw [updates_only_ne updates hi (fun hij => hout' (hij ▸ hj))]
      exact hv.pending i hi hout'
    · intro i hi
      rcases List.mem_cons.mp (ready_perm.mem_iff.mp hi) with rfl | hi
      · rw [updates_only_self updates (hv.inRange i hj)]
        exact ⟨rfl, { hact with }, hstart⟩
      · have hij : i ≠ j := fun hij => not_ready_of_running hv.nodup slot (hij ▸ hi)
        rw [updates_only_ne updates (hv.inRange i (mem_places_of_ready hi)) hij]
        exact hv.ready i hi
    · intro i hi
      simp [free] at hi
    · intro i hi
      rw [completed_eq] at hi
      have hij : i ≠ j := fun hij => not_completed_of_running hv.nodup slot (hij ▸ hi)
      rw [updates_only_ne updates (hv.inRange i (mem_places_of_completed hi)) hij]
      exact hv.completed i hi

theorem Active.dispatched {p : Process} (hact : Active h n (n + 1) i p 0)
    (hstart : StartOk h n i p) :
    (p.dispatch n).state = .running ∧ Chosen h n (n + 1) i (p.dispatch n) := by
  unfold Process.dispatch
  split
  · -- a start time of -1 means that no tick was executed
    refine ⟨rfl, { hact with }, .inr ⟨?_, by simp, by simp⟩⟩
    rcases hstart with ⟨hnil, -⟩ | ⟨k, -, hk, -⟩
    · exact hnil
    · omega
  · rename_i hlater
    refine ⟨rfl, { hact with }, .inl ⟨hstart, ?_⟩⟩
    rcases hstart with ⟨-, hk⟩ | ⟨k, hk, -⟩
    · exact absurd hk hlater
    · intro hnil
      simp [hnil] at hk

/-- **Dispatch.**  A ready process may take the free slot; the first time this happens,
its start time becomes the current tick. -/
theorem SchedInv.dispatched (hv : SchedInv W h n (n + 1) (Kept h n (n + 1)) v)
    (hdis : Dispatched n v v') : SchedInv W h n (n + 1) (Chosen h n (n + 1)) v' := by
  have hp := places_dispatched hdis
  have hplaced := hv.placed.dispatched hdis
  cases hdis with
  | keep hr =>
    have hv' := hv.reordered hr
    refine { hv' with running := fun i hi => ?_ }
    obtain ⟨hstate, hact, hstart, hticks⟩ := hv'.running i hi
    exact ⟨hstate, hact, .inl ⟨hstart, hticks⟩⟩
  | start j free slot updates ready_perm completed_eq =>
    have hsize := updates.size_eq
    have hjr : j ∈ v.ready := ready_perm.mem_iff.mpr (by simp)
    have hj := mem_places_of_ready hjr
    obtain ⟨hstate, hact, hstart⟩ := hv.ready j hjr
    refine ⟨hsize.trans hv.size_eq, hplaced.nodup, hplaced.lt_size, ?_, ?_, ?_, ?_, ?_⟩
    · exact hv.job_of_updates updates (dispatch_sameJob n)
    · intro i hi hout
      rw [hsize] at hi
      have hout' : i ∉ places v := fun hmem => hout (hp.mem_iff.mpr hmem)
      rw [updates_only_ne updates hi (fun hij => hout' (hij ▸ hj))]
      exact hv.pending i hi hout'
    · intro i hi
      have hij : i ≠ j := fun hij => not_ready_of_running hplaced.nodup slot (hij ▸ hi)
      have hi' : i ∈ v.ready := ready_perm.mem_iff.mpr (List.mem_cons_of_mem _ hi)
      rw [updates_only_ne updates (hv.inRange i (mem_places_of_ready hi')) hij]
      exact hv.ready i hi'
    · intro i hi
      obtain rfl : j = i := by simpa [slot] using hi
      rw [updates_only_self updates (hv.inRange j hj)]
      exact hact.dispatched hstart
    · intro i hi
      rw [completed_eq] at hi
      have hij : i ≠ j := fun hij => not_completed_of_ready hv.nodup hjr (hij ▸ hi)
      rw [updates_only_ne updates (hv.inRange i (mem_places_of_completed hi)) hij]
      exact hv.completed i hi

/-! ## Execution -/

/-- The history of the process in the slot after the tick has executed it. -/
theorem Chosen.history {p : Process} (hc : Chosen h n (n + 1) i p) (hn : h n = some i) :
    p.burstTime - (p.remainingTime - 1) = (ticksOf h i (n + 1)).length ∧
      (∀ k ∈ ticksOf h i (n + 1), p.arrivalTime ≤ (k : ℤ)) ∧
      (∃ k : ℕ, (ticksOf h i (n + 1)).head? = some k ∧ p.startTime = k ∧
        p.responseTime = k - p.arrivalTime) ∧
      (ticksOf h i (n + 1)).getLast? = some n := by
  obtain ⟨hact, hstart⟩ := hc
  rw [ticksOf_succ_self hn]
  have hwork := hact.work_eq
  have harr := hact.arrived
  refine ⟨?_, ?_, ?_, by simp⟩
  · simp only [List.length_append, List.length_singleton]
    push_cast
    omega
  · intro k hk
    rcases List.mem_append.mp hk with hk | hk
    · exact hact.ticks_after k hk
    · obtain rfl := List.mem_singleton.mp hk
      omega
  · rcases hstart with ⟨hstart, hne⟩ | ⟨hnil, hst, hresp⟩
    · rcases hstart with ⟨hnil, -⟩ | ⟨k, hk, hst⟩
      · exact absurd hnil hne
      · exact ⟨k, by rw [List.head?_append, hk]; rfl, hst⟩
    · exact ⟨n, by simp [hnil], by omega, by omega⟩

/-- A process other than the one in the slot does not see the tick. -/
theorem SchedInv.executed_other {R' : ℕ → Process → Prop} (hv : SchedInv W h n (n + 1) R v)
    (hsize : v'.size = v.size)
    (hproc : ∀ i < v.size, h n ≠ some i → v'.proc i = v.proc i)
    (hready : v'.ready = v.ready) (hran : h n = v.running) (hp : (places v').Perm (places v))
    (hjob : ∀ i < v'.size, SameJob (W.proc i) (v'.proc i))
    (hrunning : ∀ i, v'.running = some i → (v'.proc i).state = .running ∧ R' i (v'.proc i))
    (hcompleted : ∀ i ∈ v'.completed, i ∈ v.completed ∨
      Finished h (n + 1) i (v'.proc i)) :
    SchedInv W h (n + 1) (n + 1) R' v' := by
  have hne : ∀ i, v.running ≠ some i → h n ≠ some i := fun i hi hcon => hi (hran ▸ hcon)
  refine ⟨hsize.trans hv.size_eq, hp.nodup_iff.mpr hv.nodup, ?_, hjob, ?_, ?_, hrunning, ?_⟩
  · exact fun i hi => hsize ▸ hv.inRange i (hp.mem_iff.mp hi)
  · intro i hi hout
    rw [hsize] at hi
    have hout' : i ∉ places v := fun hmem => hout (hp.mem_iff.mpr hmem)
    have hn := hne i fun hrun => hout' (mem_places_of_running hrun)
    rw [hproc i hi hn]
    exact (hv.pending i hi hout').next hn
  · intro i hi
    rw [hready] at hi
    have hn := hne i fun hrun => not_ready_of_running hv.nodup hrun hi
    obtain ⟨hstate, hact, hstart⟩ := hv.ready i hi
    rw [hproc i (hv.inRange i (mem_places_of_ready hi)) hn]
    exact ⟨hstate, hact.next hn, hstart.next hn⟩
  · intro i hi
    rcases hcompleted i hi with hi | hi
    · have hn := hne i fun hrun => not_completed_of_running hv.nodup hrun hi
      rw [hproc i (hv.inRange i (mem_places_of_completed hi)) hn]
      exact (hv.completed i hi).next hn
    · exact hi

/-- **Execution.**  The history grows by the process in the slot. -/
theorem SchedInv.executed (hv : SchedInv W h n (n + 1) (Chosen h n (n + 1)) v)
    (hran : h n = v.running) (hexe : Executed n v v') :
    SchedInv W h (n + 1) (n + 1) (Slot h (n + 1) (n + 1)) v' := by
  have hp := places_executed hexe
  cases hexe with
  | idle free hr =>
    have hv' := hv.reordered hr
    refine hv'.executed_other rfl (fun _ _ _ => rfl) rfl (by rw [hran, hr.running_eq])
      (List.Perm.refl _) hv'.job ?_ (fun i hi => .inl hi)
    intro i hi
    rw [hr.running_eq, free] at hi
    simp at hi
  | work j slot slot' more updates ready_eq completed_eq =>
    have hjlt := hv.inRange j (mem_places_of_running slot)
    obtain ⟨hstate, hchosen⟩ := hv.running j slot
    obtain ⟨hwork, hafter, hfirst, hlast⟩ := hchosen.history (hran.trans slot)
    refine hv.executed_other updates.size_eq ?_ ready_eq hran hp
      (hv.job_of_updates updates fun p => ⟨rfl, rfl, rfl, rfl, rfl⟩) ?_ ?_
    · exact fun i hi hn => updates_only_ne updates hi fun hij => hn (hij ▸ hran.trans slot)
    · intro i hi
      obtain rfl : j = i := by simpa [slot'] using hi
      rw [updates_only_self updates hjlt]
      have hact := hchosen.1
      have hpos := hact.remaining_pos
      have hwait := hact.waiting_eq
      refine ⟨hstate, ⟨hact.arrived, ?_, ?_, hwork, hafter⟩, .inr hfirst, ?_⟩
      · simp only [Process.execute]; omega
      · simp only [Process.execute]; omega
      · intro hnil
        simp [hnil] at hlast
    · intro i hi
      exact .inl (completed_eq ▸ hi)
  | finish j slot free last updates ready_eq completed_eq =>
    have hjlt := hv.inRange j (mem_places_of_running slot)
    obtain ⟨hstate, hchosen⟩ := hv.running j slot
    obtain ⟨hwork, hafter, hfirst, hlast⟩ := hchosen.history (hran.trans slot)
    refine hv.executed_other updates.size_eq ?_ ready_eq hran hp
      (hv.job_of_updates updates fun p => ⟨rfl, rfl, rfl, rfl, rfl⟩) ?_ ?_
    · exact fun i hi hn => updates_only_ne updates hi fun hij => hn (hij ▸ hran.trans slot)
    · intro i hi
      simp [free] at hi
    · intro i hi
      rw [completed_eq] at hi
      rcases List.mem_append.mp hi with hi | hi
      · exact .inl hi
      · obtain rfl := List.mem_singleton.mp hi
        right
        rw [updates_only_self updates hjlt]
        have hwait := hchosen.1.waiting_eq
        refine ⟨rfl, last, ?_, hafter, hfirst, ⟨n, hlast, rfl⟩, rfl, ?_⟩
        · rw [← hwork]; simp only [Process.execute, Process.terminate]; omega
        · simp only [Process.execute, Process.terminate]; omega

end Phases

/-! ## Runs -/

section Run

variable {W : Workload} {h : ℕ → Option ℕ} {s : Scheduler} {v : SchedView} {n i : ℕ}

/-- The invariant in the middle of a tick, when the process to execute is chosen. -/
theorem SchedInv.schedule (hl : LevelsInRange s)
    (hv : SchedInv W h n n (Slot h n n) (schedView s)) :
    SchedInv W h n (n + 1) (Chosen h n (n + 1)) (schedView (s.schedule n)) := by
  obtain ⟨v₁, v₂, ha, hp, hd⟩ := schedule_phases n s hl
  exact ((hv.arrived ha).preempted hp).dispatched hd

/-- **One tick keeps the invariant**, whatever the scheduler. -/
theorem SchedInv.tick (hl : LevelsInRange s) (hv : SchedInv W h n n (Slot h n n) (schedView s))
    (hran : h n = (s.schedule n).base.running) :
    SchedInv W h (n + 1) (n + 1) (Slot h (n + 1) (n + 1)) (schedView (s.tick n)) := by
  have hmid := hv.schedule hl
  exact hmid.executed hran (executed_tick n s hmid.placed.inRange)

/-- A property that `AddProcess` and `Tick` keep holds in every run. -/
theorem run_induction {P : Scheduler → Prop} {k : SchedulerKind} (hnew : P k.new)
    (hadd : ∀ p s, P s → P (s.addProcess p)) (htick : ∀ t s, P s → P (s.tick t))
    (procs : List Process) (n : ℕ) : P ((k.load procs).run n) := by
  induction n with
  | zero =>
    show P (procs.foldl (fun s p => s.addProcess p.clone) k.new)
    generalize k.new = s at hnew
    induction procs generalizing s with
    | nil => exact hnew
    | cons p procs ih => exact ih _ (hadd _ s hnew)
  | succ n ih => exact htick n _ ih

/-- A scheduler of one discipline stays one. -/
theorem run_discipline {σ : Type} {C : σ → Scheduler} {k : SchedulerKind}
    (hnew : ∃ a, k.new = C a) (hadd : ∀ p a, ∃ b, (C a).addProcess p = C b)
    (htick : ∀ t a, ∃ b, (C a).tick t = C b) (procs : List Process) (n : ℕ) :
    ∃ a, (k.load procs).run n = C a := by
  apply run_induction (P := fun s => ∃ a, s = C a)
  · exact hnew
  · rintro p _ ⟨a, rfl⟩
    exact hadd p a
  · rintro t _ ⟨a, rfl⟩
    exact htick t a

/-- The process in the slot was executed by the last tick. -/
theorem executedAt_of_running {n i : ℕ} (hrun : (s.run (n + 1)).base.running = some i) :
    s.executedAt n = some i := by
  rcases tick_running n (s.run n) with hnone | hsame
  · exact absurd (hnone.symm.trans hrun) (by simp)
  · exact hsame.symm.trans hrun

theorem addProcess_base (p : Process) (s : Scheduler) :
    (s.addProcess p).base = { s.base with allProcesses := s.base.allProcesses ++ [p] } := by
  cases s <;> rfl

theorem addProcess_ready (p : Process) (s : Scheduler) : (s.addProcess p).ready = s.ready := by
  cases s <;> rfl

theorem LevelsInRange.addProcess {p : Process} (hs : LevelsInRange s) (hp : p.currentQueue = 0) :
    LevelsInRange (s.addProcess p) := by
  cases s with
  | mlfq s =>
    have hs : LevelsOk s := hs
    refine ⟨hs.pos, hs.length_eq, fun i => ?_⟩
    have hold := hs.level_lt i
    simp only [SchedBase.proc, List.getD_eq_getElem?_getD] at hold ⊢
    rcases lt_trichotomy i s.allProcesses.length with hi | rfl | hi
    · rwa [List.getElem?_append_left hi]
    · simpa [hp] using hs.pos
    · rw [List.getElem?_eq_none (by simp; omega)]
      simpa [List.getElem?_eq_none hi.le] using hold
  | _ => trivial

/-- A loaded scheduler has the clones of the processes and is otherwise new. -/
theorem load_spec (k : SchedulerKind) (procs : List Process) :
    (k.load procs).base = { allProcesses := procs.map Process.clone } ∧
      (k.load procs).ready = [] ∧ LevelsInRange (k.load procs) := by
  have hnew : k.new.base = {} ∧ k.new.ready = [] ∧ LevelsInRange k.new := by
    cases k with
    | mlfq b =>
      refine ⟨rfl, rfl, Nat.zero_lt_succ 2, rfl, fun i => ?_⟩
      show (([] : List Process).getD i default).currentQueue < 3
      rw [List.getD_nil]
      exact Nat.zero_lt_succ 2
    | _ => exact ⟨rfl, rfl, trivial⟩
  have hfold : ∀ (procs : List Process) (s : Scheduler), LevelsInRange s →
      (procs.foldl (fun s p => s.addProcess p.clone) s).base =
        { s.base with allProcesses := s.base.allProcesses ++ procs.map Process.clone } ∧
      (procs.foldl (fun s p => s.addProcess p.clone) s).ready = s.ready ∧
      LevelsInRange (procs.foldl (fun s p => s.addProcess p.clone) s) := by
    intro procs
    induction procs with
    | nil => intro s hs; simpa using hs
    | cons p procs ih =>
      intro s hs
      obtain ⟨hb, hr, hl⟩ := ih (s.addProcess p.clone) (LevelsInRange.addProcess hs rfl)
      refine ⟨?_, ?_, hl⟩
      · rw [List.foldl_cons, hb, addProcess_base]
        simp
      · rw [List.foldl_cons, hr, addProcess_ready]
  obtain ⟨hb, hr, hl⟩ := hfold procs k.new hnew.2.2
  refine ⟨?_, hr.trans hnew.2.1, hl⟩
  unfold SchedulerKind.load
  rw [hb, hnew.1]
  rfl

/-- The clones of a list of processes, as a workload. -/
def Workload.ofClones (procs : List Process) (harrival : ∀ p ∈ procs, 0 ≤ p.arrivalTime)
    (hburst : ∀ p ∈ procs, 1 ≤ p.burstTime) : Workload where
  procs := procs.map Process.clone
  fresh := by
    intro p hp
    obtain ⟨q, -, rfl⟩ := List.mem_map.mp hp
    rfl
  arrival_nonneg := by
    intro p hp
    obtain ⟨q, hq, rfl⟩ := List.mem_map.mp hp
    exact harrival q hq
  burst_pos := by
    intro p hp
    obtain ⟨q, hq, rfl⟩ := List.mem_map.mp hp
    exact hburst q hq

theorem load_map_clone (k : SchedulerKind) (procs : List Process) :
    k.load (procs.map Process.clone) = k.load procs := by
  unfold SchedulerKind.load
  rw [List.foldl_map]
  rfl

theorem Workload.map_clone (W : Workload) : W.procs.map Process.clone = W.procs := by
  conv_rhs => rw [← List.map_id W.procs]
  exact List.map_congr_left W.fresh

theorem Workload.proc_mem (W : Workload) (hi : i < W.procs.length) : W.proc i ∈ W.procs := by
  rw [Workload.proc, List.getD_eq_getElem _ _ hi]
  exact List.getElem_mem hi

/-- A fresh process is untouched. -/
theorem Workload.pending (W : Workload) (h : ℕ → Option ℕ) (hi : i < W.procs.length) :
    Pending h 0 0 i (W.proc i) := by
  have harr := W.arrival_nonneg _ (W.proc_mem hi)
  rw [← W.fresh _ (W.proc_mem hi)]
  exact ⟨rfl, harr, rfl, rfl, rfl, rfl⟩

theorem schedInv_load (k : SchedulerKind) (W : Workload) (h : ℕ → Option ℕ) :
    SchedInv W h 0 0 (Slot h 0 0) (schedView (k.load W.procs)) := by
  obtain ⟨hb, hr, -⟩ := load_spec k W.procs
  rw [W.map_clone] at hb
  have hview : schedView (k.load W.procs) = baseView { allProcesses := W.procs } [] := by
    rw [schedView, hb, hr]
  have htop : ∀ i < W.procs.length, MLFQScheduler.toTop (W.proc i) = W.proc i := by
    intro i hi
    rw [← W.fresh _ (W.proc_mem hi)]
    rfl
  rw [hview]
  refine ⟨rfl, by simp [places], by simp [places], ?_, ?_, by simp, by simp, by simp⟩
  · exact fun i _ => ⟨rfl, rfl, rfl, rfl, rfl⟩
  · intro i hi _
    show Pending h 0 0 i (MLFQScheduler.toTop (W.proc i))
    rw [htop i hi]
    exact W.pending h hi

/-- **The invariant holds after every tick** of every scheduler on every workload. -/
theorem schedInv_run (k : SchedulerKind) (W : Workload) (n : ℕ) :
    SchedInv W (k.load W.procs).executedAt n n (Slot (k.load W.procs).executedAt n n)
        (schedView ((k.load W.procs).run n)) ∧
      LevelsInRange ((k.load W.procs).run n) := by
  induction n with
  | zero => exact ⟨schedInv_load k W _, (load_spec k W.procs).2.2⟩
  | succ n ih =>
    obtain ⟨hinv, hlev⟩ := ih
    have hnext := hinv.tick hlev rfl
    refine ⟨?_, hlev.tick n⟩
    rwa [← Int.natCast_succ] at hnext

/-! ## Arrivals and starts of a run -/

/-- A process at a place has arrived. -/
theorem SchedInv.arrived_of_mem (hv : SchedInv W h n n (Slot h n n) v) (hi : i ∈ places v) :
    (W.proc i).arrivalTime < n := by
  rw [← (hv.job i (hv.inRange i hi)).arrival_eq]
  rcases mem_places.mp hi with hr | hr | hr
  · exact (hv.ready i hr).2.1.arrived
  · exact (hv.running i hr).2.1.arrived
  · have hfin := hv.completed i hr
    obtain ⟨k, hk, -⟩ := hfin.start_ok
    have hmem := List.mem_of_mem_head? hk
    have hafter := hfin.ticks_after k hmem
    have hlt := (mem_ticksOf.mp hmem).1
    omega

/-- The processes that arrive at tick `n`, in the order in which they were added. -/
def arrivingAt (W : Workload) (n : ℕ) : List ℕ :=
  (List.range W.procs.length).filter fun i => (W.proc i).arrivalTime = n

/-- The arrival loop finds the processes whose arrival time it is. -/
theorem SchedInv.arrivals_eq (hv : SchedInv W h n n (Slot h n n) (schedView s)) :
    arrivals n s.base.allProcesses = arrivingAt W n := by
  have hsize : s.base.allProcesses.length = W.procs.length := hv.size_eq
  unfold arrivals arrivingAt
  rw [hsize]
  refine List.filter_congr fun i hi => ?_
  have hiv : i < (schedView s).size := hv.lt_size (List.mem_range.mp hi)
  have harr : (s.base.proc i).arrivalTime = (W.proc i).arrivalTime := (hv.job i hiv).arrival_eq
  show (s.base.proc i).arrives n = _
  unfold Process.arrives
  rw [harr]
  by_cases htime : (W.proc i).arrivalTime = n
  · -- a process that arrives now is at no place yet, so it is new
    have hout : i ∉ places (schedView s) := fun hmem => by
      have := hv.arrived_of_mem hmem
      omega
    have hnew : (s.base.proc i).state = .new := (hv.pending i hiv hout).state_eq
    simp [htime, hnew]
  · simp [htime]

/-- The start time says whether and when a process was executed, wherever the process is. -/
theorem SchedInv.startOk (hv : SchedInv W h n n (Slot h n n) v) (hi : i < W.procs.length) :
    StartOk h n i (v.proc i) := by
  by_cases hmem : i ∈ places v
  · rcases mem_places.mp hmem with hr | hr | hr
    · exact (hv.ready i hr).2.2
    · exact (hv.running i hr).2.2.1
    · exact .inr (hv.completed i hr).start_ok
  · have hp := hv.pending i (hv.lt_size hi) hmem
    exact .inl ⟨hp.ticks_eq, hp.unstarted⟩

/-- No tick writes the job of a process. -/
theorem job_run (k : SchedulerKind) (W : Workload) (n : ℕ) (hi : i < W.procs.length) :
    SameJob (W.proc i) (((k.load W.procs).run n).base.proc i) := by
  obtain ⟨hv, -⟩ := schedInv_run k W n
  have hjob := hv.job i (hv.lt_size hi)
  exact ⟨hjob.pid_eq, hjob.name_eq, hjob.arrival_eq, hjob.burst_eq, hjob.tickets_eq⟩

end Run

end OsSimulator.Analysis
