import Mathlib.Data.Int.Notation
import Mathlib.Data.Nat.Notation
import Mathlib.Logic.Function.Basic

/-!
# The dining philosophers with ordered forks (`pkg/concurrency/dining_philosophers.go`)

`RunSafeResourceHierarchy` starts one goroutine for each philosopher.  One step is one operation of
one goroutine: the test of its loop, locking or unlocking one mutex, or eating; steps of different
goroutines interleave in any order.  A goroutine that locks a locked mutex has no step until the
mutex is unlocked.

The forks and the mutex `mu` that protects the counters are one table of locks.  The loop counter
and the number of meals grow by one at a time up to the goal and are unbounded; the logs and the
pauses (`time.Sleep`) are left out.

* `newDiningPhilosophers`: pkg/concurrency/dining_philosophers.go:21-35
* `runSafeResourceHierarchy`: pkg/concurrency/dining_philosophers.go:91-129
-/

set_option autoImplicit false

namespace OsSimulator.Model

/-- `Forks[i]`, and `mu` -/
inductive DiningLock (n : ℕ) where
  | fork (i : Fin n)
  | mu
deriving DecidableEq, Repr

/-- The next operation of a philosopher. -/
inductive DiningPc where
  /-- the test of the loop -/
  | loop
  | lockFirst
  | lockSecond
  | lockMu
  /-- `dp.MealsEaten[id]++` -/
  | eat
  | unlockMu
  | unlockSecond
  | unlockFirst
  | done
deriving DecidableEq, Repr

structure DiningPhilosophers (n : ℕ) where
  locked : DiningLock n → Bool := fun _ => false
  mealsEaten : Fin n → ℤ := fun _ => 0
  /-- the loop counters -/
  meal : Fin n → ℤ := fun _ => 0
  pc : Fin n → DiningPc := fun _ => .loop

/-- How many philosophers `NewDiningPhilosophers(n)` seats. -/
def numPhilosophers (n : ℤ) : ℕ := if n ≤ 0 then 5 else n.toNat

/-- SOURCE: pkg/concurrency/dining_philosophers.go:21-35 -/
def newDiningPhilosophers (n : ℤ) : DiningPhilosophers (numPhilosophers n) := {}

def leftFork {n : ℕ} (id : Fin n) : Fin n := id

def rightFork {n : ℕ} (id : Fin n) : Fin n := ⟨(id + 1) % n, Nat.mod_lt _ id.pos⟩

def firstFork {n : ℕ} (id : Fin n) : Fin n :=
  if leftFork id > rightFork id then rightFork id else leftFork id

def secondFork {n : ℕ} (id : Fin n) : Fin n :=
  if leftFork id > rightFork id then leftFork id else rightFork id

namespace DiningPhilosophers

variable {n : ℕ}

/-- `Lock`, by philosopher `id`: no step while the mutex is locked. -/
def lock (l : DiningLock n) (next : DiningPc) (id : Fin n) (s : DiningPhilosophers n) :
    Option (DiningPhilosophers n) :=
  if s.locked l then none
  else some { s with
    locked := Function.update s.locked l true, pc := Function.update s.pc id next }

/-- `Unlock`, by philosopher `id` -/
def unlock (l : DiningLock n) (next : DiningPc) (id : Fin n) (s : DiningPhilosophers n) :
    DiningPhilosophers n :=
  { s with locked := Function.update s.locked l false, pc := Function.update s.pc id next }

/-- The operations of a meal, from locking the first fork to unlocking the second one.  Both
functions of the package have them, each with its own forks.
SOURCE: pkg/concurrency/dining_philosophers.go:56-69, 114-122 -/
def dine (first second id : Fin n) (s : DiningPhilosophers n) : Option (DiningPhilosophers n) :=
  match s.pc id with
  | .lockFirst => s.lock (.fork first) .lockSecond id
  | .lockSecond => s.lock (.fork second) .lockMu id
  | .lockMu => s.lock .mu .eat id
  | .eat =>
    some { s with
      mealsEaten := Function.update s.mealsEaten id (s.mealsEaten id + 1)
      pc := Function.update s.pc id .unlockMu }
  | .unlockMu => some (s.unlock .mu .unlockSecond id)
  | .unlockSecond => some (s.unlock (.fork second) .unlockFirst id)
  | _ => none

/-- The next operation of philosopher `id`, if it can be done.
SOURCE: pkg/concurrency/dining_philosophers.go:107-125 -/
def step (mealsGoal : ℤ) (id : Fin n) (s : DiningPhilosophers n) : Option (DiningPhilosophers n) :=
  match s.pc id with
  | .loop =>
    if s.meal id < mealsGoal then some { s with pc := Function.update s.pc id .lockFirst }
    else some { s with pc := Function.update s.pc id .done }
  | .unlockFirst =>
    -- the end of the body, and `meal++`
    some { s.unlock (.fork (firstFork id)) .loop id with
      meal := Function.update s.meal id (s.meal id + 1) }
  | _ => s.dine (firstFork id) (secondFork id) id

end DiningPhilosophers

/-- `NewDiningPhilosophers(n)` and `RunSafeResourceHierarchy(mealsGoal)`, after the given
philosophers have been scheduled in turn; one that cannot go on is passed over. -/
def runSafeResourceHierarchy (n mealsGoal : ℤ) (schedule : List (Fin (numPhilosophers n))) :
    DiningPhilosophers (numPhilosophers n) :=
  schedule.foldl (fun s id => (s.step mealsGoal id).getD s) (newDiningPhilosophers n)

end OsSimulator.Model
