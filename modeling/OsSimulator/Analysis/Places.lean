import OsSimulator.Interface.TickPhases

/-!
# Where the processes are

Every process that has entered a scheduler is in its ready queue, in its running slot or among its
completed processes.  The moves of a tick carry processes from place to place, and only an arrival
adds some (`places_arrived`, `places_executed`).  So no process is lost or doubled (`Placed`),
whatever the processes are.
-/

set_option autoImplicit false

namespace OsSimulator.Analysis

open Model Interface

/-- The processes that have entered the scheduler, each at its place. -/
def places (v : SchedView) : List ℕ := v.ready ++ v.running.toList ++ v.completed

section Membership

variable {v : SchedView} {i : ℕ}

theorem mem_places : i ∈ places v ↔ i ∈ v.ready ∨ v.running = some i ∨ i ∈ v.completed := by
  simp only [places, List.mem_append, Option.mem_toList]
  tauto

theorem mem_places_of_ready (hi : i ∈ v.ready) : i ∈ places v := mem_places.mpr (.inl hi)

theorem mem_places_of_running (hi : v.running = some i) : i ∈ places v :=
  mem_places.mpr (.inr (.inl hi))

theorem mem_places_of_completed (hi : i ∈ v.completed) : i ∈ places v :=
  mem_places.mpr (.inr (.inr hi))

variable (hnd : (places v).Nodup)
include hnd

theorem not_ready_of_running (hi : v.running = some i) : i ∉ v.ready := by
  intro hr
  have := List.disjoint_of_nodup_append (List.nodup_append.mp hnd).1
  exact this hr (by simp [hi])

theorem not_completed_of_ready (hi : i ∈ v.ready) : i ∉ v.completed := fun hc =>
  List.disjoint_of_nodup_append hnd (List.mem_append_left _ hi) hc

theorem not_completed_of_running (hi : v.running = some i) : i ∉ v.completed := fun hc =>
  List.disjoint_of_nodup_append hnd (List.mem_append_right _ (by simp [hi])) hc

end Membership

/-! ## The moves -/

section Moves

variable {v v' : SchedView}

theorem places_arrived {t : ℤ} (ha : Arrived t v v') :
    (places v').Perm (newcomers t v ++ places v) := by
  unfold places
  rw [ha.running_eq, ha.completed_eq, List.append_assoc, List.append_assoc]
  refine (ha.ready_perm.append_right _).trans ?_
  rw [List.append_assoc]
  exact List.perm_append_comm_assoc _ _ _

theorem places_reordered (hr : Reordered v v') : (places v').Perm (places v) := by
  unfold places
  rw [hr.running_eq, hr.completed_eq]
  exact (hr.ready_perm.append_right _).append_right _

/-- The running process may return to the ready queue. -/
theorem places_preempted (hpre : Preempted v v') : (places v').Perm (places v) := by
  cases hpre with
  | keep hr => exact places_reordered hr
  | yield j slot free updates ready_perm completed_eq =>
    unfold places
    rw [free, slot, completed_eq]
    refine ((ready_perm.append_right _).append_right _).trans ?_
    simp only [Option.toList_none, Option.toList_some, List.append_nil]
    exact (List.perm_append_singleton j v.ready).symm.append_right _

/-- A ready process may take the slot. -/
theorem places_dispatched {t : ℤ} (hdis : Dispatched t v v') : (places v').Perm (places v) := by
  cases hdis with
  | keep hr => exact places_reordered hr
  | start j free slot updates ready_perm completed_eq =>
    unfold places
    rw [free, slot, completed_eq]
    refine List.Perm.trans ?_ ((ready_perm.symm.append_right _).append_right _)
    simp only [Option.toList_none, Option.toList_some, List.append_nil]
    exact (List.perm_append_singleton j v'.ready).append_right _

/-- The process in the slot stays there or completes. -/
theorem places_executed {t : ℤ} (hexe : Executed t v v') : (places v').Perm (places v) := by
  cases hexe with
  | idle free hr => exact places_reordered hr
  | work j slot slot' more updates ready_eq completed_eq =>
    unfold places
    rw [ready_eq, slot', slot, completed_eq]
  | finish j slot free last updates ready_eq completed_eq =>
    unfold places
    rw [ready_eq, free, slot, completed_eq]
    simp only [Option.toList_none, Option.toList_some, List.append_nil, List.append_assoc]
    exact (List.perm_append_comm).append_left _

end Moves

theorem enter_of_not_new {t : ℤ} {p : Process} (hp : p.state ≠ .new) : p.enter t = p := by
  unfold Process.enter
  rw [if_neg]
  simp [Process.arrives, hp]

theorem enter_of_arrives {t : ℤ} {p : Process} (hp : p.arrives t = true) :
    p.enter t = { p with state := .ready } := by
  unfold Process.enter
  rw [if_pos hp]

/-! ## One place each -/

/-- The processes that have entered the scheduler are at one place each. -/
structure Placed (v : SchedView) : Prop where
  nodup : (places v).Nodup
  lt_size : ∀ i ∈ places v, i < v.size
  entered : ∀ i ∈ places v, (v.proc i).state ≠ .new

section Placed

variable {t : ℤ} {v v' : SchedView}

theorem Placed.of_perm {f : ℕ → Process → Process} (hv : Placed v)
    (hp : (places v').Perm (places v)) (hu : Updates f v v')
    (hf : ∀ i p, p.state ≠ .new → (f i p).state ≠ .new) : Placed v' := by
  refine ⟨hp.nodup_iff.mpr hv.nodup, fun i hi => ?_, fun i hi => ?_⟩
  · rw [hu.size_eq]
    exact hv.lt_size i (hp.mem_iff.mp hi)
  · have hi := hp.mem_iff.mp hi
    rw [hu.proc_eq i (hv.lt_size i hi)]
    exact hf i _ (hv.entered i hi)

theorem only_state_ne_new {j : ℕ} {f : Process → Process}
    (hf : ∀ p : Process, p.state ≠ .new → (f p).state ≠ .new) (i : ℕ) (p : Process)
    (hp : p.state ≠ .new) : (only j f i p).state ≠ .new := by
  unfold only
  split
  · exact hf p hp
  · exact hp

theorem Placed.reordered (hv : Placed v) (h : Reordered v v') : Placed v' :=
  hv.of_perm (places_reordered h) h.updates fun _ _ hp => hp

/-- Newcomers have no place yet. -/
theorem Placed.mem_newcomers (hv : Placed v) {i : ℕ} (hi : i ∈ newcomers t v) :
    i < v.size ∧ i ∉ places v ∧ (v.proc i).arrives t = true ∧ (v.proc i).arrivalTime = t := by
  obtain ⟨hlt, harr⟩ := List.mem_filter.mp hi
  have hnew := harr
  simp only [Process.arrives, Bool.and_eq_true, beq_iff_eq] at hnew
  exact ⟨List.mem_range.mp hlt, fun hmem => hv.entered i hmem hnew.2, harr, hnew.1⟩

theorem Placed.arrived (hv : Placed v) (h : Arrived t v v') : Placed v' := by
  have hp := places_arrived h
  refine ⟨?_, fun i hi => ?_, fun i hi => ?_⟩
  · refine hp.nodup_iff.mpr (List.nodup_append.mpr ⟨List.nodup_range.filter _, hv.nodup, ?_⟩)
    rintro i hi j hj rfl
    exact (hv.mem_newcomers hi).2.1 hj
  · rw [h.updates.size_eq]
    rcases List.mem_append.mp (hp.mem_iff.mp hi) with hi | hi
    · exact (hv.mem_newcomers hi).1
    · exact hv.lt_size i hi
  · rcases List.mem_append.mp (hp.mem_iff.mp hi) with hi | hi
    · obtain ⟨hlt, -, harr, -⟩ := hv.mem_newcomers hi
      rw [h.updates.proc_eq i hlt, enter_of_arrives harr]
      simp
    · have hstate := hv.entered i hi
      rw [h.updates.proc_eq i (hv.lt_size i hi), enter_of_not_new hstate]
      exact hstate

theorem Placed.preempted (hv : Placed v) (h : Preempted v v') : Placed v' := by
  have hp := places_preempted h
  cases h with
  | keep hr => exact hv.reordered hr
  | yield j slot free updates ready_perm completed_eq =>
    refine hv.of_perm hp updates (only_state_ne_new fun p _ => ?_)
    simp [Process.preempt]

theorem Placed.dispatched (hv : Placed v) (h : Dispatched t v v') : Placed v' := by
  have hp := places_dispatched h
  cases h with
  | keep hr => exact hv.reordered hr
  | start j free slot updates ready_perm completed_eq =>
    refine hv.of_perm hp updates (only_state_ne_new fun p _ => ?_)
    unfold Process.dispatch
    split <;> simp

theorem Placed.executed (hv : Placed v) (h : Executed t v v') : Placed v' := by
  have hp := places_executed h
  cases h with
  | idle free hr => exact hv.reordered hr
  | work j slot slot' more updates ready_eq completed_eq =>
    exact hv.of_perm hp updates (only_state_ne_new fun p hp => hp)
  | finish j slot free last updates ready_eq completed_eq =>
    refine hv.of_perm hp updates (only_state_ne_new fun p _ => ?_)
    simp [Process.terminate]

theorem Placed.inRange (hv : Placed v) : InRange v :=
  ⟨fun i hi => hv.lt_size i (mem_places_of_ready hi),
    fun i hi => hv.lt_size i (mem_places_of_running hi)⟩

end Placed

end OsSimulator.Analysis
