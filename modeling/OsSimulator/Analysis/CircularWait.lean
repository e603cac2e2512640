import OsSimulator.Analysis.PhilosophersDeadlock
import OsSimulator.Library.FairSweeps
import OsSimulator.Model.DeadlockScenario
import Mathlib.Algebra.Order.BigOperators.Group.Finset

/-!
# All eat or none does

Where no philosopher can go on, nobody waits for `mu`, and a fork is held only by the philosopher
to its right, who wants the next one.  So one philosopher that waits for its right fork makes the
next one wait, and around the table all of them (`all_wait`): the run has ended in the circular
wait, and nobody has eaten; or everybody is done.

Every fair schedule comes to such an end, and `RunDeadlockScenario` has returned by then
(`runDeadlockScenario_all_or_none`).  It returns `false` only when all have eaten; `true` says only
that the timer has fired.
-/

set_option autoImplicit false

namespace OsSimulator.Analysis

open Model Library

section CircularWait

variable {n : ℕ}

/-! ## The invariant -/

/-- One meal each, with the left fork first. -/
structure NaiveInv (s : DiningPhilosophers n) : Prop
    extends DiningInv leftFork rightFork 1 s where
  first_meal : ∀ id, s.meal id = 0
  /-- who has got both forks has got two -/
  forks : ∀ id, Eating s id → leftFork id ≠ rightFork id

theorem naiveInv_init : NaiveInv ({} : DiningPhilosophers n) where
  toDiningInv := diningInv_init _ _ 1
  first_meal := fun _ => rfl
  forks := by simp [Eating]

variable {s s' : DiningPhilosophers n} {id : Fin n} {next : DiningPc}

/-- The forks of the others stay as they are. -/
theorem NaiveInv.forks_update (h : NaiveInv s) (hpc : s'.pc = Function.update s.pc id next)
    (hforks : Eating s' id → leftFork id ≠ rightFork id) (b : Fin n) (hb : Eating s' b) :
    leftFork b ≠ rightFork b := by
  by_cases hbid : b = id
  · exact hbid ▸ hforks (hbid ▸ hb)
  · refine h.forks b ?_
    rwa [Eating, hpc, Function.update_of_ne hbid] at hb

/-- The left fork is locked by the philosopher itself, so a right fork that is free is another. -/
theorem NaiveInv.forks_ne (h : NaiveInv s) (hpc : s.pc id = .lockSecond)
    (hfree : s.locked (.fork (rightFork id)) = false) : leftFork id ≠ rightFork id := by
  intro heq
  have hleft := (h.locks.locked_iff (.fork (leftFork id))).mpr ⟨id, by simp [hpc, heldLocks]⟩
  rw [heq, hfree] at hleft
  cases hleft

/-- Every step of a philosopher keeps the invariant. -/
theorem NaiveInv.step (h : NaiveInv s) (hstep : s.deadlockStep id = some s') : NaiveInv s' := by
  have hid := h.books id
  unfold DiningPhilosophers.deadlockStep at hstep
  split at hstep
  · rename_i hpc
    rw [hpc, h.first_meal] at hid
    cases hstep
    have hbooks : DinerBooks 1 .lockFirst (s.meal id) (s.mealsEaten id) := by
      rw [h.first_meal]
      exact ⟨hid.1, le_rfl, by decide⟩
    exact ⟨⟨h.locks.same (by rw [hpc]; rfl), h.books_goto hbooks⟩, h.first_meal,
      h.forks_update rfl (by simp [Eating])⟩
  · rename_i hpc
    rw [hpc, h.first_meal] at hid
    cases hstep
    exact ⟨⟨h.locks.unlockFirst hpc rfl, h.books_goto hid.1⟩, h.first_meal,
      h.forks_update rfl (by simp [Eating, DiningPhilosophers.unlock])⟩
  · obtain ⟨next, meals, hdines, hpc, hmeal, -, hfree⟩ := dine_effect hstep
    refine ⟨h.dine (fun hpc => h.forks id (by simp [Eating, hpc])) hstep,
      fun b => hmeal ▸ h.first_meal b, h.forks_update hpc fun heating => ?_⟩
    rw [Eating, hpc, Function.update_self] at heating
    by_cases hsecond : s.pc id = .lockSecond
    · exact h.forks_ne hsecond (hfree hsecond)
    · refine h.forks id ?_
      unfold Eating
      generalize s.pc id = pc at hdines hsecond
      cases hdines <;> simp at hsecond heating ⊢

/-- Who is done has eaten once. -/
theorem NaiveInv.eaten_of_done (h : NaiveInv s) (hpc : s.pc id = .done) : s.mealsEaten id = 1 := by
  have hbooks := h.books id
  rw [hpc] at hbooks
  exact hbooks

/-! ## Where a run can end -/

/-- Around the table. -/
theorem table_induction {P : Fin n → Prop} (hnext : ∀ i, P i → P (rightFork i)) {i : Fin n}
    (hi : P i) (j : Fin n) : P j := by
  have hall (k : ℕ) : ∀ j : Fin n, (j : ℕ) = (i + k) % n → P j := by
    induction k with
    | zero =>
      intro j hj
      have heq : j = i := Fin.ext (hj.trans (Nat.mod_eq_of_lt i.isLt))
      rwa [heq]
    | succ k ih =>
      intro j hj
      have hprev := hnext _ (ih ⟨(i + k) % n, Nat.mod_lt _ i.pos⟩ rfl)
      have heq : rightFork ⟨(i + k) % n, Nat.mod_lt _ i.pos⟩ = j :=
        Fin.ext (by simp [rightFork, hj, Nat.add_assoc])
      rwa [heq] at hprev
  refine hall (n - i + j) j ?_
  have hsum : (i : ℕ) + (n - i + j) = j + n := by omega
  rw [hsum, Nat.add_mod_right, Nat.mod_eq_of_lt j.isLt]

/-- Who cannot go on waits for a lock, or is done. -/
theorem blocked_of_deadlockStep (hstep : s.deadlockStep id = none) :
    s.pc id = .done ∨ (s.pc id = .lockFirst ∧ s.locked (.fork (leftFork id)) = true) ∨
      (s.pc id = .lockSecond ∧ s.locked (.fork (rightFork id)) = true) ∨
      (s.pc id = .lockMu ∧ s.locked .mu = true) := by
  unfold DiningPhilosophers.deadlockStep DiningPhilosophers.dine DiningPhilosophers.lock at hstep
  cases hpc : s.pc id <;> simp [hpc] at hstep <;> simp [hstep]

/-- **The circular wait**: where nobody can go on, all are done or each one holds its left fork and
waits for its right one. -/
theorem all_wait (h : NaiveInv s) (hstuck : ∀ id, s.deadlockStep id = none) :
    (∀ id, s.pc id = .done) ∨ ∀ id, s.pc id = .lockSecond := by
  have hcases (id : Fin n) := blocked_of_deadlockStep (hstuck id)
  have hmu : s.locked .mu ≠ true := by
    intro hlocked
    obtain ⟨b, hb⟩ := (h.locks.locked_iff _).mp hlocked
    rcases hcases b with hpc | ⟨hpc, -⟩ | ⟨hpc, -⟩ | ⟨hpc, -⟩ <;> simp [hpc, heldLocks] at hb
  -- so a fork is held only by the philosopher on whose left it lies
  have hfork (f : Fin n) (hlocked : s.locked (.fork f) = true) : s.pc f = .lockSecond := by
    obtain ⟨b, hb⟩ := (h.locks.locked_iff _).mp hlocked
    rcases hcases b with hpc | ⟨hpc, -⟩ | ⟨hpc, -⟩ | ⟨-, hlocked⟩
    · simp [hpc, heldLocks] at hb
    · simp [hpc, heldLocks] at hb
    · simp only [hpc, heldLocks, List.mem_singleton, DiningLock.fork.injEq, leftFork] at hb
      exact hb ▸ hpc
    · exact absurd hlocked hmu
  by_cases hdone : ∀ id, s.pc id = .done
  · exact .inl hdone
  · obtain ⟨id, hid⟩ := not_forall.mp hdone
    have hwaits : s.pc id = .lockSecond := by
      rcases hcases id with hpc | ⟨-, hlocked⟩ | ⟨hpc, -⟩ | ⟨-, hlocked⟩
      · exact absurd hpc hid
      · exact hfork (leftFork id) hlocked
      · exact hpc
      · exact absurd hlocked hmu
    refine .inr (table_induction (fun i hi => hfork (rightFork i) ?_) hwaits)
    simpa [hi] using hcases i

/-! ## Every fair schedule comes to an end -/

/-- The operations that a philosopher has before it. -/
def pcWeight : DiningPc → ℕ
  | .loop => 8
  | .lockFirst => 7
  | .lockSecond => 6
  | .lockMu => 5
  | .eat => 4
  | .unlockMu => 3
  | .unlockSecond => 2
  | .unlockFirst => 1
  | .done => 0

/-- Every step brings its philosopher nearer to the end. -/
theorem deadlockStep_pc (hstep : s.deadlockStep id = some s') :
    ∃ next, s'.pc = Function.update s.pc id next ∧ pcWeight next < pcWeight (s.pc id) := by
  unfold DiningPhilosophers.deadlockStep at hstep
  split at hstep
  · rename_i hpc
    cases hstep
    exact ⟨_, rfl, by simp [hpc, pcWeight]⟩
  · rename_i hpc
    cases hstep
    exact ⟨_, rfl, by simp [hpc, pcWeight]⟩
  · obtain ⟨next, meals, hdines, hpc, -⟩ := dine_effect hstep
    refine ⟨next, hpc, ?_⟩
    generalize s.pc id = pc at hdines
    cases hdines <;> simp [pcWeight]

/-- Everybody has its turn until nobody can go on; the function waits for the closer and the timer. -/
def scenarioWeight (s : DeadlockScenario n) : ℕ :=
  ∑ id, pcWeight (s.table.pc id) + ((!s.closed).toNat + (!s.fired).toNat + s.returned.isNone.toNat)

variable {r : DeadlockScenario n}

theorem weight_philosopher {table : DiningPhilosophers n}
    (hstep : r.table.deadlockStep id = some table) :
    scenarioWeight { r with table } < scenarioWeight r := by
  obtain ⟨next, hpc, hlt⟩ := deadlockStep_pc hstep
  have hsum : ∑ b, pcWeight (table.pc b) < ∑ b, pcWeight (r.table.pc b) := by
    rw [hpc]
    refine Finset.sum_lt_sum (fun b _ => ?_) ⟨id, Finset.mem_univ id, ?_⟩
    · by_cases hb : b = id
      · rw [hb, Function.update_self]
        exact hlt.le
      · rw [Function.update_of_ne hb]
    · rwa [Function.update_self]
  exact Nat.add_lt_add_right hsum _

/-- The channel is closed, and `false` returned, only after all are done. -/
structure ScenarioInv (r : DeadlockScenario n) : Prop where
  table : NaiveInv r.table
  closed : r.closed = true → ∀ id, r.table.pc id = .done
  returned : r.returned = some false → r.closed = true

theorem scenarioInv_init : ScenarioInv ({} : DeadlockScenario n) :=
  ⟨naiveInv_init, fun h => (by cases h), fun h => (by cases h)⟩

theorem ScenarioInv.philosopher (h : ScenarioInv r) {table : DiningPhilosophers n}
    (hstep : r.table.deadlockStep id = some table) : ScenarioInv { r with table } := by
  refine ⟨h.table.step hstep, fun hclosed => ?_, h.returned⟩
  simp [DiningPhilosophers.deadlockStep, DiningPhilosophers.dine, h.closed hclosed id] at hstep

theorem deadlock_runsDown :
    RunsDown DeadlockScenario.step (ScenarioInv (n := n)) scenarioWeight where
  keeps := by
    intro r move h
    unfold DeadlockScenario.step
    cases move with
    | philosopher id =>
      cases hstep : r.table.deadlockStep id with
      | none => simpa [hstep] using h
      | some table => simpa [hstep] using h.philosopher hstep
    | closer =>
      dsimp only
      split_ifs with hdone
      · exact ⟨h.table, fun _ => hdone, fun _ => rfl⟩
      · exact h
    | timer => exact ⟨h.table, h.closed, h.returned⟩
    | select timedOut =>
      dsimp only
      split_ifs with hready
      · refine ⟨h.table, h.closed, fun hfalse => ?_⟩
        obtain rfl := Option.some.inj hfalse
        exact hready.2
      · exact h
  descends := by
    intro r move _
    unfold DeadlockScenario.step
    cases move with
    | philosopher id =>
      cases hstep : r.table.deadlockStep id with
      | none => exact .inl (by simp [hstep])
      | some table => exact .inr (by simpa [hstep] using weight_philosopher hstep)
    | closer =>
      dsimp only
      split_ifs
      · cases r with
        | mk _ closed _ _ => cases closed <;> simp [scenarioWeight]
      · exact .inl rfl
    | timer =>
      cases r with
      | mk _ _ fired _ => cases fired <;> simp [scenarioWeight]
    | select timedOut =>
      dsimp only
      split_ifs with hready
      · exact .inr (by simp [scenarioWeight, hready.1])
      · exact .inl rfl

/-- Where the scenario is stuck, every philosopher is. -/
theorem stuck_philosopher (hstuck : Stuck DeadlockScenario.step r) (id : Fin n) :
    r.table.deadlockStep id = none := by
  cases hstep : r.table.deadlockStep id with
  | none => rfl
  | some table =>
    have hsame : { r with table } = r := by
      have hmove := hstuck (.philosopher id)
      rwa [DeadlockScenario.step, hstep] at hmove
    have hlt := weight_philosopher hstep
    rw [hsame] at hlt
    exact absurd hlt (lt_irrefl _)

/-- The function has returned, by one of the branches of its `select`. -/
theorem stuck_returned (hstuck : Stuck DeadlockScenario.step r) : r.returned.isSome := by
  have hfired : r.fired = true := congrArg DeadlockScenario.fired (hstuck .timer).symm
  have hselect := congrArg DeadlockScenario.returned (hstuck (.select true))
  cases hr : r.returned with
  | some result => rfl
  | none => simp [DeadlockScenario.step, DeadlockScenario.ready, hr, hfired] at hselect

theorem scenarioInv_run (n : ℤ) (schedule : List (DeadlockMove (numPhilosophers n))) :
    ScenarioInv (runDeadlockScenario n schedule) :=
  deadlock_runsDown.foldl_keeps scenarioInv_init schedule

/-- **All eat or none does.**  When every philosopher, the closer, the timer and both branches of
the `select` get their turn in `8 · n + 3` sweeps, in any order, nothing moves any more and the
function has returned.  Then all are done and each has eaten once; or each holds its left fork and waits
for the right one, nobody has eaten, and the result is `true`.  Whatever the schedule, fair or not,
`false` is returned only when each has eaten.
SOURCE: pkg/concurrency/dining_philosophers.go:38-87 -/
theorem runDeadlockScenario_all_or_none (n : ℤ)
    {sweeps : List (List (DeadlockMove (numPhilosophers n)))}
    (hsweeps : ∀ sweep ∈ sweeps, ∀ move, move ∈ sweep)
    (hlen : numPhilosophers n * 8 + 3 ≤ sweeps.length) :
    let r := runDeadlockScenario n sweeps.flatten
    (∀ rest, runDeadlockScenario n (sweeps.flatten ++ rest) = r) ∧
    (r.returned.isSome ∧ (∀ id, r.table.pc id = .done ∧ r.table.mealsEaten id = 1) ∨
      r.returned = some true ∧ ∀ id, r.table.pc id = .lockSecond ∧
        r.table.locked (.fork id) = true ∧ r.table.mealsEaten id = 0) ∧
    ∀ schedule, (runDeadlockScenario n schedule).returned = some false →
      ∀ id, (runDeadlockScenario n schedule).table.mealsEaten id = 1 := by
  intro r
  have hinv : ScenarioInv r := scenarioInv_run n _
  have hstuck : Stuck DeadlockScenario.step r :=
    deadlock_runsDown.stuck_of_sweeps scenarioInv_init hsweeps
      (by simpa [scenarioWeight, newDiningPhilosophers, pcWeight] using hlen)
  have hreturned := stuck_returned hstuck
  refine ⟨fun rest => List.foldl_append.trans (hstuck.foldl_eq rest), ?_, ?_⟩
  · rcases all_wait hinv.table (stuck_philosopher hstuck) with hdone | hwait
    · exact .inl ⟨hreturned, fun id => ⟨hdone id, hinv.table.eaten_of_done (hdone id)⟩⟩
    · refine .inr ⟨?_, fun id => ⟨hwait id, ?_, ?_⟩⟩
      · obtain ⟨result, hresult⟩ := Option.isSome_iff_exists.mp hreturned
        cases result with
        | true => exact hresult
        | false =>
          have hpos : 0 < numPhilosophers n := by
            unfold numPhilosophers
            split_ifs <;> omega
          have hdone := hinv.closed (hinv.returned hresult) ⟨0, hpos⟩
          cases (hwait ⟨0, hpos⟩).symm.trans hdone
      · exact (hinv.table.locks.locked_iff _).mpr ⟨id, by simp [hwait, heldLocks, leftFork]⟩
      · have hbooks := hinv.table.books id
        rw [hwait, hinv.table.first_meal] at hbooks
        exact hbooks.1
  · intro schedule hfalse id
    have hrun := scenarioInv_run n schedule
    exact hrun.table.eaten_of_done (hrun.closed (hrun.returned hfalse) id)

/-- Two philosophers, in turn. -/
theorem runDeadlockScenario_all_or_none_two :
    let p : Fin 2 → DeadlockMove (numPhilosophers 2) := fun i => .philosopher (i.cast (by decide))
    let sweeps := List.replicate 19 [p 0, p 1, .closer, .timer, .select false, .select true]
    let r := runDeadlockScenario 2 sweeps.flatten
    (∀ id, r.table.mealsEaten id = 1) ∨ ∀ id, r.table.mealsEaten id = 0 := by
  intro p sweeps
  have hsweep : ∀ move, move ∈ [p 0, p 1, .closer, .timer, .select false, .select true] := by
    rintro (id | _ | _ | b)
    · revert id
      decide
    · decide
    · decide
    · revert b
      decide
  have hsweeps : ∀ sweep ∈ sweeps, ∀ move, move ∈ sweep :=
    fun sweep h => List.eq_of_mem_replicate h ▸ hsweep
  have hlen : numPhilosophers 2 * 8 + 3 ≤ sweeps.length := by decide
  clear_value sweeps
  obtain ⟨-, hend, -⟩ := runDeadlockScenario_all_or_none 2 hsweeps hlen
  exact hend.imp (fun h id => (h.2 id).2) fun h id => (h.2 id).2.2

/-- The result `true` is no proof of a deadlock: both philosophers have eaten, one after the other,
before the `select`, which takes the branch of the timer. -/
example :
    let p : Fin 2 → DeadlockMove (numPhilosophers 2) := fun i => .philosopher (i.cast (by decide))
    let r := runDeadlockScenario 2 (List.replicate 8 (p 0) ++ List.replicate 8 (p 1) ++
      [.closer, .timer, .select true])
    r.returned = some true ∧ ∀ id, r.table.mealsEaten id = 1 := by
  decide

end CircularWait

end OsSimulator.Analysis
