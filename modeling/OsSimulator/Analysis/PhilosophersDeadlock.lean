import OsSimulator.Model.Philosophers
import OsSimulator.Library.LockOrder
import Mathlib.Data.Int.Order.Basic
import Mathlib.Order.Fin.Basic

/-!
# Ordered forks keep the philosophers from deadlock

A philosopher locks the fork of the smaller number first, then the other fork, then `mu`: each lock
it wants ranks above all it holds.  So of the philosophers that are not done one can always go on
(`DiningInv.progress`), and where none can, all have eaten.

A goal below zero is reached at once, so what a philosopher has eaten at the end is the larger one
of zero and the goal.
-/

set_option autoImplicit false

namespace OsSimulator.Analysis

open Model Library

section Philosophers

variable {n : ℕ}

/-! ## The specification -/

/-- The locks a philosopher holds, by its next operation, where it locks the fork `first id` and
then `second id`. -/
def heldLocks (first second : Fin n → Fin n) (pc : DiningPc) (id : Fin n) : List (DiningLock n) :=
  match pc with
  | .loop | .lockFirst | .done => []
  | .lockSecond | .unlockFirst => [.fork (first id)]
  | .lockMu | .unlockSecond => [.fork (first id), .fork (second id)]
  | .eat | .unlockMu => [.fork (first id), .fork (second id), .mu]

/-- The philosopher has got both forks and has not put one back. -/
def Eating (s : DiningPhilosophers n) (id : Fin n) : Prop :=
  s.pc id = .lockMu ∨ s.pc id = .eat ∨ s.pc id = .unlockMu ∨ s.pc id = .unlockSecond

/-- What the order of the forks is there for. -/
structure DiningSafe (mealsGoal : ℤ) (s : DiningPhilosophers n) : Prop where
  /-- no deadlock -/
  progress : (∃ id, s.pc id ≠ .done) → ∃ id, (s.step mealsGoal id).isSome
  fork_exclusive : ∀ f id id', .fork f ∈ heldLocks firstFork secondFork (s.pc id) id →
    .fork f ∈ heldLocks firstFork secondFork (s.pc id') id' → id = id'
  neighbours : ∀ id id', leftFork id' = rightFork id → ¬ (Eating s id ∧ Eating s id')
  meals : (∀ id, s.step mealsGoal id = none) → ∀ id, s.mealsEaten id = max 0 mealsGoal

/-! ## The order of the locks -/

/-- The lock that the next operation of a philosopher locks. -/
def wantedLock (pc : DiningPc) (id : Fin n) : Option (DiningLock n) :=
  match pc with
  | .lockFirst => some (.fork (firstFork id))
  | .lockSecond => some (.fork (secondFork id))
  | .lockMu => some .mu
  | _ => none

/-- The forks by number, then `mu`. -/
def lockRank : DiningLock n → ℕ
  | .fork i => i
  | .mu => n

theorem lockRank_le (l : DiningLock n) : lockRank l ≤ n := by
  cases l with
  | fork i => exact Nat.le_of_lt i.isLt
  | mu => exact Nat.le_refl n

theorem leftFork_ne_rightFork (hn : 2 ≤ n) (id : Fin n) : leftFork id ≠ rightFork id := by
  intro heq
  have hval : (id : ℕ) = (id + 1) % n := congrArg Fin.val heq
  have hlt := id.isLt
  rcases Nat.lt_or_ge (id + 1) n with hnext | hwrap
  · rw [Nat.mod_eq_of_lt hnext] at hval
    omega
  · have hlast : (id : ℕ) + 1 = n := by omega
    rw [hlast, Nat.mod_self] at hval
    omega

/-- The fork locked first has the smaller number. -/
theorem firstFork_lt_secondFork (hn : 2 ≤ n) (id : Fin n) : firstFork id < secondFork id := by
  unfold firstFork secondFork
  by_cases hswap : leftFork id > rightFork id
  · rw [if_pos hswap, if_pos hswap]
    exact hswap
  · rw [if_neg hswap, if_neg hswap]
    exact lt_of_le_of_ne (not_lt.mp hswap) (leftFork_ne_rightFork hn id)

/-- Each lock that a philosopher wants ranks above those it holds. -/
theorem lockRank_lt_of_wanted (hn : 2 ≤ n) {pc : DiningPc} {id : Fin n} {l m : DiningLock n}
    (hheld : l ∈ heldLocks firstFork secondFork pc id) (hwanted : wantedLock pc id = some m) :
    lockRank l < lockRank m := by
  cases pc <;> simp only [heldLocks, wantedLock, List.not_mem_nil, List.mem_cons, or_false,
    reduceCtorEq, Option.some.injEq] at hheld hwanted
  case lockSecond =>
    rw [hheld, ← hwanted]
    exact firstFork_lt_secondFork hn id
  case lockMu =>
    rw [← hwanted]
    rcases hheld with rfl | rfl
    · exact (firstFork id).isLt
    · exact (secondFork id).isLt

/-! ## The table of locks -/

/-- The locked locks are those that some philosopher holds, one philosopher each. -/
def LocksRight (first second : Fin n → Fin n) (s : DiningPhilosophers n) : Prop :=
  LocksHeld s.locked fun id l => l ∈ heldLocks first second (s.pc id) id

section LocksRight

variable {first second : Fin n → Fin n} {s s' : DiningPhilosophers n} {id : Fin n}
  {l : DiningLock n} {next : DiningPc}

theorem locksRight_init : LocksRight first second ({} : DiningPhilosophers n) :=
  locksHeld_init fun _ _ => List.not_mem_nil

/-- A philosopher goes on with the locks it has. -/
theorem LocksRight.same (h : LocksRight first second s)
    (hheld : heldLocks first second next id = heldLocks first second (s.pc id) id) :
    LocksRight first second { s with pc := Function.update s.pc id next } := by
  refine LocksHeld.congr h fun b m => ?_
  by_cases hb : b = id
  · subst hb
    simp only [Function.update_self, hheld]
  · simp only [Function.update_of_ne hb]

/-- `Lock`, where it returns. -/
theorem LocksRight.lock (h : LocksRight first second s) (hstep : s.lock l next id = some s')
    (hheld : ∀ m, m ∈ heldLocks first second next id ↔
      m = l ∨ m ∈ heldLocks first second (s.pc id) id) : LocksRight first second s' := by
  unfold DiningPhilosophers.lock at hstep
  split at hstep
  · cases hstep
  · rename_i hfree
    cases hstep
    refine LocksHeld.acquire (a := id) h (Bool.not_eq_true _ ▸ hfree) fun b m => ?_
    by_cases hb : b = id
    · subst hb
      simp [hheld]
    · simp [hb]

/-- `Unlock` of a lock that the philosopher holds. -/
theorem LocksRight.unlock (h : LocksRight first second s)
    (hl : l ∈ heldLocks first second (s.pc id) id)
    (hheld : ∀ m, m ∈ heldLocks first second next id ↔
      m ≠ l ∧ m ∈ heldLocks first second (s.pc id) id) :
    LocksRight first second (s.unlock l next id) := by
  refine LocksHeld.release h hl fun b m => ?_
  dsimp only [DiningPhilosophers.unlock]
  by_cases hb : b = id
  · subst hb
    simp [hheld]
  · simp [hb]

/-- The operations of a meal.  The philosopher keeps its first fork when it puts the second one
back, since that is another. -/
theorem LocksRight.dine (h : LocksRight first second s)
    (hforks : s.pc id = .unlockSecond → first id ≠ second id)
    (hstep : s.dine (first id) (second id) id = some s') : LocksRight first second s' := by
  unfold DiningPhilosophers.dine at hstep
  cases hpc : s.pc id <;> simp only [hpc, reduceCtorEq, Option.some.injEq] at hstep
  case lockFirst => exact h.lock hstep (by simp [hpc, heldLocks])
  case lockSecond => exact h.lock hstep (by simp [hpc, heldLocks, or_comm])
  case lockMu =>
    refine h.lock hstep fun m => ?_
    simp only [hpc, heldLocks, List.mem_cons, List.not_mem_nil, or_false]
    tauto
  case eat => exact hstep ▸ h.same (by rw [hpc]; rfl)
  case unlockMu =>
    subst hstep
    refine h.unlock (by simp [hpc, heldLocks]) fun m => ?_
    cases m <;> simp [hpc, heldLocks]
  case unlockSecond =>
    subst hstep
    refine h.unlock (by simp [hpc, heldLocks]) fun m => ?_
    simp only [hpc, heldLocks, List.mem_cons, List.not_mem_nil, or_false]
    constructor
    · rintro rfl
      exact ⟨fun heq => hforks hpc (DiningLock.fork.inj heq), .inl rfl⟩
    · rintro ⟨hne, hm⟩
      exact hm.resolve_right hne

theorem LocksRight.unlockFirst (h : LocksRight first second s) (hpc : s.pc id = .unlockFirst)
    (hnone : heldLocks first second next id = []) :
    LocksRight first second (s.unlock (.fork (first id)) next id) := by
  refine h.unlock (by simp [hpc, heldLocks]) fun m => ?_
  rw [hnone]
  simp [hpc, heldLocks]

end LocksRight

/-! ## The invariant -/

/-- The loop counter and the meals of a philosopher, by its next operation. -/
def DinerBooks (mealsGoal : ℤ) (pc : DiningPc) (meal eaten : ℤ) : Prop :=
  match pc with
  | .loop => eaten = meal ∧ 0 ≤ meal ∧ meal ≤ max 0 mealsGoal
  | .lockFirst | .lockSecond | .lockMu | .eat => eaten = meal ∧ 0 ≤ meal ∧ meal < mealsGoal
  | .unlockMu | .unlockSecond | .unlockFirst =>
    eaten = meal + 1 ∧ 0 ≤ meal ∧ meal < mealsGoal
  | .done => eaten = max 0 mealsGoal

/-- The locks are held by those whose next operation says so, and the meals are counted. -/
structure DiningInv (first second : Fin n → Fin n) (mealsGoal : ℤ) (s : DiningPhilosophers n) :
    Prop where
  locks : LocksRight first second s
  books : ∀ id, DinerBooks mealsGoal (s.pc id) (s.meal id) (s.mealsEaten id)

/-- An operation of a meal, the one after it, and the meals that it counts. -/
inductive Dines : DiningPc → DiningPc → ℤ → Prop
  | lockFirst : Dines .lockFirst .lockSecond 0
  | lockSecond : Dines .lockSecond .lockMu 0
  | lockMu : Dines .lockMu .eat 0
  | eat : Dines .eat .unlockMu 1
  | unlockMu : Dines .unlockMu .unlockSecond 0
  | unlockSecond : Dines .unlockSecond .unlockFirst 0

variable {first second : Fin n → Fin n} {mealsGoal : ℤ} {s s' : DiningPhilosophers n} {id : Fin n}
  {l : DiningLock n} {next : DiningPc}

/-- What the operations of a meal do besides the locks. -/
theorem dine_effect {f g : Fin n} (hstep : s.dine f g id = some s') :
    ∃ next meals, Dines (s.pc id) next meals ∧ s'.pc = Function.update s.pc id next ∧
      s'.meal = s.meal ∧
      s'.mealsEaten = Function.update s.mealsEaten id (s.mealsEaten id + meals) ∧
      (s.pc id = .lockSecond → s.locked (.fork g) = false) := by
  unfold DiningPhilosophers.dine DiningPhilosophers.lock at hstep
  cases hpc : s.pc id <;> simp only [hpc, reduceCtorEq, Option.ite_none_left_eq_some,
    Option.some.injEq] at hstep
  case lockFirst => exact ⟨_, 0, .lockFirst, by simp [← hstep.2]⟩
  case lockSecond => exact ⟨_, 0, .lockSecond, by simpa [← hstep.2] using hstep.1⟩
  case lockMu => exact ⟨_, 0, .lockMu, by simp [← hstep.2]⟩
  case eat => exact ⟨_, 1, .eat, by simp [← hstep]⟩
  case unlockMu => exact ⟨_, 0, .unlockMu, by simp [← hstep, DiningPhilosophers.unlock]⟩
  case unlockSecond => exact ⟨_, 0, .unlockSecond, by simp [← hstep, DiningPhilosophers.unlock]⟩

/-- The books of the others stay as they are. -/
theorem DiningInv.books_update (h : DiningInv first second mealsGoal s) (id : Fin n)
    {meal eaten : ℤ} (hid : DinerBooks mealsGoal next meal eaten) (b : Fin n) :
    DinerBooks mealsGoal (Function.update s.pc id next b) (Function.update s.meal id meal b)
      (Function.update s.mealsEaten id eaten b) := by
  by_cases hb : b = id
  · subst hb
    rw [Function.update_self, Function.update_self, Function.update_self]
    exact hid
  · rw [Function.update_of_ne hb, Function.update_of_ne hb, Function.update_of_ne hb]
    exact h.books b

theorem DiningInv.books_goto (h : DiningInv first second mealsGoal s)
    (hid : DinerBooks mealsGoal next (s.meal id) (s.mealsEaten id)) (b : Fin n) :
    DinerBooks mealsGoal (Function.update s.pc id next b) (s.meal b) (s.mealsEaten b) := by
  have hbooks := h.books_update id hid b
  rwa [Function.update_eq_self, Function.update_eq_self] at hbooks

theorem diningInv_init (first second : Fin n → Fin n) (mealsGoal : ℤ) :
    DiningInv first second mealsGoal ({} : DiningPhilosophers n) where
  locks := locksRight_init
  books := fun _ => ⟨rfl, le_rfl, le_max_left 0 mealsGoal⟩

/-- **A meal keeps the invariant**, whatever the order of the forks. -/
theorem DiningInv.dine (h : DiningInv first second mealsGoal s)
    (hforks : s.pc id = .unlockSecond → first id ≠ second id)
    (hstep : s.dine (first id) (second id) id = some s') :
    DiningInv first second mealsGoal s' := by
  refine ⟨h.locks.dine hforks hstep, fun b => ?_⟩
  obtain ⟨next, meals, hdines, hpc, hmeal, heaten, -⟩ := dine_effect hstep
  have hid := h.books id
  have hbooks : DinerBooks mealsGoal next (s.meal id) (s.mealsEaten id + meals) := by
    generalize s.pc id = pc at hdines hid
    cases hdines <;> simpa [DinerBooks] using hid
  rw [hpc, hmeal, heaten]
  have hall := h.books_update id hbooks b
  rwa [Function.update_eq_self] at hall

/-- Every step of a philosopher keeps the invariant. -/
theorem DiningInv.step (hn : 2 ≤ n) (h : DiningInv firstFork secondFork mealsGoal s)
    (hstep : s.step mealsGoal id = some s') : DiningInv firstFork secondFork mealsGoal s' := by
  have hid := h.books id
  unfold DiningPhilosophers.step at hstep
  split at hstep
  · rename_i hpc
    rw [hpc] at hid
    obtain ⟨heaten, hmeal, hgoal⟩ := hid
    split at hstep
    · rename_i hlt
      cases hstep
      exact ⟨h.locks.same (by rw [hpc]; rfl), h.books_goto ⟨heaten, hmeal, hlt⟩⟩
    · rename_i hge
      cases hstep
      refine ⟨h.locks.same (by rw [hpc]; rfl), h.books_goto ?_⟩
      show s.mealsEaten id = max 0 mealsGoal
      omega
  · rename_i hpc
    rw [hpc] at hid
    cases hstep
    obtain ⟨heaten, hmeal, hgoal⟩ := hid
    refine ⟨h.locks.unlockFirst hpc rfl, fun b => ?_⟩
    have hbooks : DinerBooks mealsGoal .loop (s.meal id + 1) (s.mealsEaten id) :=
      ⟨heaten, by omega, by omega⟩
    have hall := h.books_update id hbooks b
    rwa [Function.update_eq_self] at hall
  · exact h.dine (fun _ => (firstFork_lt_secondFork hn id).ne) hstep

/-! ## What the invariant gives -/

theorem lock_isSome (hfree : s.locked l ≠ true) : (s.lock l next id).isSome := by
  unfold DiningPhilosophers.lock
  rw [if_neg hfree]
  rfl

/-- Who is not done and not blocked can go on. -/
theorem step_isSome (mealsGoal : ℤ) (hdone : s.pc id ≠ .done)
    (hfree : ¬ Blocked s.locked (fun b m => wantedLock (s.pc b) b = some m) id) :
    (s.step mealsGoal id).isSome := by
  have hlock : ∀ m, wantedLock (s.pc id) id = some m → s.locked m ≠ true :=
    fun m hm hlocked => hfree ⟨m, hm, hlocked⟩
  unfold DiningPhilosophers.step DiningPhilosophers.dine
  cases hpc : s.pc id <;> simp only [hpc, wantedLock, Option.some.injEq, forall_eq'] at hlock ⊢
  case loop => split <;> rfl
  case lockFirst => exact lock_isSome hlock
  case lockSecond => exact lock_isSome hlock
  case lockMu => exact lock_isSome hlock
  case done => exact absurd hpc hdone
  all_goals rfl

/-- Of the philosophers that are not done, one can go on. -/
theorem DiningInv.progress (hn : 2 ≤ n) (h : DiningInv firstFork secondFork mealsGoal s)
    (hid : s.pc id ≠ .done) : ∃ b, (s.step mealsGoal b).isSome := by
  by_cases hblocked : Blocked s.locked (fun b m => wantedLock (s.pc b) b = some m) id
  · obtain ⟨b, l, hheld, hfree⟩ := LocksHeld.exists_unblocked h.locks lockRank n lockRank_le
      (fun _ _ _ => lockRank_lt_of_wanted hn) hblocked
    have hdone : s.pc b ≠ .done := by
      intro hb
      simp [hb, heldLocks] at hheld
    exact ⟨b, step_isSome mealsGoal hdone hfree⟩
  · exact ⟨id, step_isSome mealsGoal hid hblocked⟩

theorem Eating.holds (h : Eating s id) :
    .fork (leftFork id) ∈ heldLocks firstFork secondFork (s.pc id) id ∧
      .fork (rightFork id) ∈ heldLocks firstFork secondFork (s.pc id) id := by
  have hforks : leftFork id = firstFork id ∧ rightFork id = secondFork id ∨
      leftFork id = secondFork id ∧ rightFork id = firstFork id := by
    unfold firstFork secondFork
    split
    · exact .inr ⟨rfl, rfl⟩
    · exact .inl ⟨rfl, rfl⟩
  have hheld : .fork (firstFork id) ∈ heldLocks firstFork secondFork (s.pc id) id ∧
      .fork (secondFork id) ∈ heldLocks firstFork secondFork (s.pc id) id := by
    rcases h with hpc | hpc | hpc | hpc <;> simp [hpc, heldLocks]
  rcases hforks with ⟨hleft, hright⟩ | ⟨hleft, hright⟩
  · rw [hleft, hright]
    exact hheld
  · rw [hleft, hright]
    exact hheld.symm

theorem DiningInv.safe (hn : 2 ≤ n) (h : DiningInv firstFork secondFork mealsGoal s) :
    DiningSafe mealsGoal s where
  progress := fun ⟨_, hid⟩ => h.progress hn hid
  fork_exclusive := fun f id id' hid hid' => LocksHeld.unique h.locks (.fork f) id id' hid hid'
  neighbours := by
    rintro id id' hshared ⟨heat, heat'⟩
    have hright := heat.holds.2
    have hleft := heat'.holds.1
    rw [hshared] at hleft
    have hsame := LocksHeld.unique h.locks _ _ _ hright hleft
    rw [← hsame] at hshared
    exact leftFork_ne_rightFork hn id hshared
  meals := by
    intro hstuck id
    have hdone : s.pc id = .done := by
      by_contra hid
      obtain ⟨b, hb⟩ := h.progress hn hid
      rw [hstuck b] at hb
      cases hb
    have hbooks := h.books id
    rw [hdone] at hbooks
    exact hbooks

theorem diningInv_run (n mealsGoal : ℤ) (hn : 2 ≤ numPhilosophers n)
    (schedule : List (Fin (numPhilosophers n))) :
    DiningInv firstFork secondFork mealsGoal (runSafeResourceHierarchy n mealsGoal schedule) := by
  unfold runSafeResourceHierarchy
  refine List.foldlRecOn schedule _ (diningInv_init _ _ mealsGoal) fun s hs id _ => ?_
  cases hstep : s.step mealsGoal id with
  | none => exact hs
  | some s' => exact hs.step hn hstep

/-- **Ordered forks keep the philosophers from deadlock.**  For two philosophers or more, any goal
and any schedule: while one is not done, one can go on; a fork is held by one philosopher at most;
neighbours do not eat at the same time; and where nobody can go on, everybody has eaten as often as
the goal says, or not at all if the goal is below zero. -/
theorem runSafeResourceHierarchy_safe (n mealsGoal : ℤ) (hn : 2 ≤ n)
    (schedule : List (Fin (numPhilosophers n))) :
    DiningSafe mealsGoal (runSafeResourceHierarchy n mealsGoal schedule) := by
  have htwo : 2 ≤ numPhilosophers n := by
    unfold numPhilosophers
    rw [if_neg (by omega)]
    omega
  exact (diningInv_run n mealsGoal htwo schedule).safe htwo

/-- Of five philosophers, number 0 has eaten a first time and number 3 holds both of its forks, for
which number 4 waits. -/
theorem runSafeResourceHierarchy_safe_five :
    let p : Fin 5 → Fin (numPhilosophers 5) := Fin.cast (by decide)
    let s := runSafeResourceHierarchy 5 3
      (List.replicate 8 (p 0) ++ List.replicate 3 (p 3) ++ List.replicate 3 (p 4))
    (s.mealsEaten (p 0) = 1 ∧ s.pc (p 3) = .lockMu ∧ s.pc (p 4) = .lockSecond ∧
      (s.step 3 (p 4)).isNone) ∧ DiningSafe 3 s :=
  ⟨by decide, runSafeResourceHierarchy_safe 5 3 (by decide) _⟩

/-- With a goal of -1 both of two philosophers are done without a meal. -/
theorem meals_ne_negative_goal :
    let s := runSafeResourceHierarchy 2 (-1) [⟨0, by decide⟩, ⟨1, by decide⟩]
    (∀ id, s.step (-1) id = none) ∧ ∀ id, s.mealsEaten id = 0 ∧ s.mealsEaten id ≠ -1 := by
  have hdone : ∀ id, (runSafeResourceHierarchy 2 (-1) [⟨0, by decide⟩, ⟨1, by decide⟩]).pc id =
      .done := by decide
  refine ⟨fun id => ?_, by decide⟩
  simp only [DiningPhilosophers.step, DiningPhilosophers.dine, hdone]

end Philosophers

end OsSimulator.Analysis
