import OsSimulator.Model.Philosophers

/-!
# The dining philosophers without an order (`pkg/concurrency/dining_philosophers.go`)

`RunDeadlockScenario` starts one goroutine for each philosopher.  Each waits at a barrier, locks its
left fork, then its right one, eats once and puts the forks back.  The steps are those of
`Model.Philosophers`; `loop` is the barrier, which is open when the goroutines run.

One more goroutine waits for all of them and closes the channel `deadlockDetected`, and a timer
fires. The function returns by its `select`, which takes either branch where both are ready; the
goroutines go on after it.  There is no clock: the timer may fire at any time, whatever `timeoutMs`
is, and the pauses (`time.Sleep`) are left out.
-/

set_option autoImplicit false

namespace OsSimulator.Model

/-- The next operation of philosopher `id`, if it can be done.
SOURCE: pkg/concurrency/dining_philosophers.go:51-72 -/
def DiningPhilosophers.deadlockStep {n : ℕ} (id : Fin n) (s : DiningPhilosophers n) :
    Option (DiningPhilosophers n) :=
  match s.pc id with
  | .loop => some { s with pc := Function.update s.pc id .lockFirst }
  | .unlockFirst => some (s.unlock (.fork (leftFork id)) .done id)
  | _ => s.dine (leftFork id) (rightFork id) id

/-- The philosophers at the table, and what the function itself waits for. -/
structure DeadlockScenario (n : ℕ) where
  table : DiningPhilosophers n := {}
  /-- `deadlockDetected` is closed -/
  closed : Bool := false
  /-- the channel of `time.After` has its value -/
  fired : Bool := false
  /-- the result, once the function has returned -/
  returned : Option Bool := none

inductive DeadlockMove (n : ℕ) where
  | philosopher (id : Fin n)
  /-- `wg.Wait()` returns, and `close(deadlockDetected)` -/
  | closer
  | timer
  /-- the `select`, with the branch that it tries -/
  | select (timedOut : Bool)
deriving DecidableEq, Repr

/-- The branch of the `select` can be taken. -/
def DeadlockScenario.ready {n : ℕ} (s : DeadlockScenario n) (timedOut : Bool) : Bool :=
  if timedOut then s.fired else s.closed

/-- One step.  Who cannot go on is passed over.
SOURCE: pkg/concurrency/dining_philosophers.go:74-86 -/
def DeadlockScenario.step {n : ℕ} (s : DeadlockScenario n) : DeadlockMove n → DeadlockScenario n
  | .philosopher id => { s with table := (s.table.deadlockStep id).getD s.table }
  | .closer => if ∀ id, s.table.pc id = .done then { s with closed := true } else s
  | .timer => { s with fired := true }
  | .select timedOut =>
    if s.returned = none ∧ s.ready timedOut then { s with returned := some timedOut } else s

/-- `NewDiningPhilosophers(n)` and `RunDeadlockScenario`, after the given steps.
SOURCE: pkg/concurrency/dining_philosophers.go:38-87 -/
def runDeadlockScenario (n : ℤ) (schedule : List (DeadlockMove (numPhilosophers n))) :
    DeadlockScenario (numPhilosophers n) :=
  schedule.foldl DeadlockScenario.step { table := newDiningPhilosophers n }

end OsSimulator.Model
