import OsSimulator.Model.Scheduler
import Mathlib.Logic.Function.Basic

/-!
# The goroutine scheduler (`pkg/cpu/gmp_runtime.go`)

Goroutines (G), OS threads (M) and logical processors (P) are objects behind pointers.  A
pointer is the index of the object in `AllGs`, `AllMs` or `AllPs`; `gs`, `ms` and `ps` are the
objects, of which the first `gCount`, `numMs` and `numPs` exist.

* `newGMPRuntime`: pkg/cpu/gmp_runtime.go:73-108
* `spawnGoroutine`: pkg/cpu/gmp_runtime.go:111-138
* `step`: pkg/cpu/gmp_runtime.go:141-226, its loop bodies are `stepP` and `wake`
* `findRunnableG`: pkg/cpu/gmp_runtime.go:228-280
* `acquireM`: pkg/cpu/gmp_runtime.go:282-289

Left out: the program counter and stack pointer of a goroutine and the network poller, which
nothing uses, the lock, and `RenderStatus`.
-/

set_option autoImplicit false

namespace OsSimulator.Model

inductive GoroutineStatus where
  | idle
  | runnable
  | running
  | syscall
  | waiting
  | dead
deriving DecidableEq, Repr

/-- `remainingWork` is a Go `int` that the runtime counts down. -/
structure Goroutine where
  gid : ℕ
  name : String
  status : GoroutineStatus
  stackSize : ℕ
  remainingWork : Int64
  assignedM : ℤ
  assignedP : ℤ
  isSyscall : Bool
  syscallTicks : ℕ := 0
deriving DecidableEq, Repr

structure OSThread where
  mid : ℕ
  osStack : ℕ := 8 * 1024 * 1024
  curG : Option ℕ := none
  boundP : Option ℕ := none
  isBlocked : Bool := false
deriving DecidableEq, Repr

structure LogicalProcessor where
  pid : ℕ
  localQueue : List ℕ := []
  runNext : Option ℕ := none
  boundM : Option ℕ := none
  tickCount : ℕ := 0
deriving DecidableEq, Repr

structure GMPRuntime where
  gomaxprocs : ℤ
  gCount : ℕ := 0
  gs : ℕ → Goroutine := fun _ => ⟨0, "", .idle, 0, 0, 0, 0, false, 0⟩
  numMs : ℕ := 0
  ms : ℕ → OSThread := fun _ => { mid := 0 }
  numPs : ℕ := 0
  ps : ℕ → LogicalProcessor := fun _ => { pid := 0 }
  globalRunQueue : List ℕ := []
  completedGs : List ℕ := []
  workStealEvents : List String := []
  handoffEvents : List String := []
  rng : Rand
  draws : ℕ := 0

namespace GMPRuntime

def modifyG (rt : GMPRuntime) (g : ℕ) (f : Goroutine → Goroutine) : GMPRuntime :=
  { rt with gs := Function.update rt.gs g (f (rt.gs g)) }

def modifyM (rt : GMPRuntime) (m : ℕ) (f : OSThread → OSThread) : GMPRuntime :=
  { rt with ms := Function.update rt.ms m (f (rt.ms m)) }

def modifyP (rt : GMPRuntime) (p : ℕ) (f : LogicalProcessor → LogicalProcessor) : GMPRuntime :=
  { rt with ps := Function.update rt.ps p (f (rt.ps p)) }

/-- A new M in `AllMs`; the first component is the pointer to it. -/
def appendM (rt : GMPRuntime) (m : OSThread) : ℕ × GMPRuntime :=
  (rt.numMs, { rt with ms := Function.update rt.ms rt.numMs m, numMs := rt.numMs + 1 })

/-- One round of the loop of `newGMPRuntime`. -/
def addP (rt : GMPRuntime) (i : ℕ) : GMPRuntime :=
  let p := rt.numPs
  let (m, rt) := rt.appendM { mid := i, boundP := some p }
  { rt with
    ps := Function.update rt.ps p { pid := i, boundM := some m }
    numPs := rt.numPs + 1 }

end GMPRuntime

/-- SOURCE: pkg/cpu/gmp_runtime.go:73-108 -/
def newGMPRuntime (gomaxprocs : ℤ) (rng : Rand) : GMPRuntime :=
  let gomaxprocs := if gomaxprocs ≤ 0 then 2 else gomaxprocs
  (List.range gomaxprocs.toNat).foldl GMPRuntime.addP { gomaxprocs, rng }

namespace GMPRuntime

/-- The first component is the pointer to the new goroutine.
SOURCE: pkg/cpu/gmp_runtime.go:111-138 -/
def spawnGoroutine (rt : GMPRuntime) (name : String) (workUnits : Int64) (isSyscall : Bool) :
    ℕ × GMPRuntime :=
  let g := rt.gCount
  let rt := { rt with
    gCount := rt.gCount + 1
    gs := Function.update rt.gs g {
      gid := rt.gCount + 1
      name
      status := .runnable
      stackSize := 2048
      remainingWork := workUnits
      assignedM := -1
      assignedP := -1
      isSyscall } }
  let targetP := rt.gCount % rt.numPs
  if (rt.ps targetP).localQueue.length < 256 then
    (g, rt.modifyP targetP fun p => { p with localQueue := p.localQueue ++ [g] })
  else (g, { rt with globalRunQueue := rt.globalRunQueue ++ [g] })

/-- The last half of the queue of `victim` goes to `p`, but for its first goroutine.
SOURCE: pkg/cpu/gmp_runtime.go:265-274 -/
def stealFrom (rt : GMPRuntime) (p : ℕ) (tick : ℤ) (victim : ℕ) : Option ℕ × GMPRuntime :=
  let queue := (rt.ps victim).localQueue
  let stealCount := (queue.length + 1) / 2
  let stolen := queue.drop (queue.length - stealCount)
  let event := s!"[Tick {tick}] Work Stealing: P{(rt.ps p).pid} stole {stolen.length}" ++
    s!" Goroutine(s) from P{(rt.ps victim).pid}"
  let rt := rt.modifyP victim fun v =>
    { v with localQueue := queue.take (queue.length - stealCount) }
  let rt := { rt with workStealEvents := rt.workStealEvents ++ [event] }
  (stolen.head?, rt.modifyP p fun p => { p with localQueue := p.localQueue ++ stolen.tail })

/-- The first processor from `startIdx` on, in a circle, that `p` can steal from. -/
def findVictim (rt : GMPRuntime) (p startIdx : ℕ) : Option ℕ :=
  ((List.range rt.numPs).map fun i => (startIdx + i) % rt.numPs).find? fun victim =>
    (rt.ps victim).pid ≠ (rt.ps p).pid ∧ 0 < (rt.ps victim).localQueue.length

/-- SOURCE: pkg/cpu/gmp_runtime.go:228-280 -/
def findRunnableG (rt : GMPRuntime) (p : ℕ) (tick : ℤ) : Option ℕ × GMPRuntime :=
  if (rt.ps p).tickCount % 61 = 0 ∧ 0 < rt.globalRunQueue.length then
    (rt.globalRunQueue.head?, { rt with globalRunQueue := rt.globalRunQueue.tail })
  else if (rt.ps p).runNext ≠ none then
    ((rt.ps p).runNext, rt.modifyP p fun p => { p with runNext := none })
  else if 0 < (rt.ps p).localQueue.length then
    ((rt.ps p).localQueue.head?, rt.modifyP p fun p => { p with localQueue := p.localQueue.tail })
  else if 0 < rt.globalRunQueue.length then
    (rt.globalRunQueue.head?, { rt with globalRunQueue := rt.globalRunQueue.tail })
  else if 1 < rt.numPs then
    let startIdx := (rt.rng.intn rt.draws rt.numPs).toNat
    let rt := { rt with draws := rt.draws + 1 }
    match rt.findVictim p startIdx with
    | some victim => rt.stealFrom p tick victim
    | none => (none, rt)
  else (none, rt)

/-- SOURCE: pkg/cpu/gmp_runtime.go:282-289 -/
def acquireM (rt : GMPRuntime) : Option ℕ :=
  (List.range rt.numMs).find? fun m => !(rt.ms m).isBlocked ∧ (rt.ms m).boundP = none

/-! ## One step -/

/-- A P without an M takes an idle one.  SOURCE: pkg/cpu/gmp_runtime.go:149-157 -/
def bindM (rt : GMPRuntime) (p : ℕ) : GMPRuntime :=
  match (rt.ps p).boundM with
  | some _ => rt
  | none =>
    match rt.acquireM with
    | none => rt
    | some m => (rt.modifyP p fun p => { p with boundM := some m }).modifyM m fun m =>
      { m with boundP := some p }

/-- `m` blocks in the system call of `g`, and `p` gets a new M.
SOURCE: pkg/cpu/gmp_runtime.go:164-181 -/
def handoff (rt : GMPRuntime) (tick : ℤ) (p m g : ℕ) : GMPRuntime :=
  let rt := rt.modifyG g fun g => { g with status := .syscall }
  let rt := rt.modifyM m fun m => { m with isBlocked := true }
  let event := s!"[Tick {tick}] Handoff: G{(rt.gs g).gid} made syscall -> M{(rt.ms m).mid}" ++
    s!" blocked, P{(rt.ps p).pid} handed off to new M"
  let rt := { rt with handoffEvents := rt.handoffEvents ++ [event] }
  let rt := rt.modifyP p fun p => { p with boundM := none }
  let rt := rt.modifyM m fun m => { m with boundP := none }
  let (newM, rt) := rt.appendM { mid := rt.numMs, boundP := some p }
  rt.modifyP p fun p => { p with boundM := some newM }

/-- `g` works for one tick and may be done.  SOURCE: pkg/cpu/gmp_runtime.go:185-193 -/
def work (rt : GMPRuntime) (m g : ℕ) : GMPRuntime :=
  if (rt.gs g).status = .running then
    let rt := rt.modifyG g fun g => { g with remainingWork := g.remainingWork - 1 }
    if (rt.gs g).remainingWork ≤ 0 then
      let rt := rt.modifyG g fun g => { g with status := .dead }
      let rt := { rt with completedGs := rt.completedGs ++ [g] }
      rt.modifyM m fun m => { m with curG := none }
    else rt
  else rt

/-- An idle M of `p` looks for a goroutine.  SOURCE: pkg/cpu/gmp_runtime.go:201-209 -/
def dispatch (rt : GMPRuntime) (tick : ℤ) (p : ℕ) : GMPRuntime :=
  match (rt.ps p).boundM with
  | none => rt
  | some m =>
    if (rt.ms m).curG = none then
      match rt.findRunnableG p tick with
      | (none, rt) => rt
      | (some nextG, rt) =>
        let rt := rt.modifyG nextG fun g => { g with
          status := .running
          assignedM := (rt.ms m).mid
          assignedP := (rt.ps p).pid }
        rt.modifyM m fun m => { m with curG := some nextG }
    else rt

/-- The body of the loop over the Ps. -/
def stepP (tick : ℤ) (rt : GMPRuntime) (p : ℕ) : GMPRuntime :=
  let rt := rt.modifyP p fun p => { p with tickCount := p.tickCount + 1 }
  let rt := rt.bindM p
  match (rt.ps p).boundM with
  | none => rt.dispatch tick p
  | some m =>
    match (rt.ms m).curG with
    | none => rt.dispatch tick p
    | some g =>
      if (rt.gs g).isSyscall ∧ (rt.gs g).status = .running ∧ (rt.gs g).syscallTicks = 0 then
        rt.handoff tick p m g
      else (rt.work m g).dispatch tick p

/-- The body of the loop over the Ms: a blocked goroutine wakes up after three ticks. -/
def wake (rt : GMPRuntime) (m : ℕ) : GMPRuntime :=
  match (rt.ms m).curG with
  | none => rt
  | some g =>
    if (rt.ms m).isBlocked then
      let rt := rt.modifyG g fun g => { g with syscallTicks := g.syscallTicks + 1 }
      if 3 ≤ (rt.gs g).syscallTicks then
        let rt := rt.modifyM m fun m => { m with isBlocked := false }
        let rt := rt.modifyG g fun g => { g with status := .runnable, isSyscall := false }
        let rt := { rt with globalRunQueue := rt.globalRunQueue ++ [g] }
        rt.modifyM m fun m => { m with curG := none }
      else rt
    else rt

/-- SOURCE: pkg/cpu/gmp_runtime.go:141-226 -/
def step (rt : GMPRuntime) (tick : ℤ) : GMPRuntime :=
  let rt := (List.range rt.numPs).foldl (stepP tick) rt
  (List.range rt.numMs).foldl wake rt

end GMPRuntime

/-! ## Interleavings -/

inductive GmpCall where
  | spawnGoroutine (name : String) (workUnits : Int64) (isSyscall : Bool)
  | step (tick : ℤ)
deriving DecidableEq, Repr

namespace GMPRuntime

def call (rt : GMPRuntime) : GmpCall → GMPRuntime
  | .spawnGoroutine name workUnits isSyscall => (rt.spawnGoroutine name workUnits isSyscall).2
  | .step tick => rt.step tick

/-- The state after a sequence of calls. -/
def run (rt : GMPRuntime) (calls : List GmpCall) : GMPRuntime := calls.foldl call rt

end GMPRuntime

end OsSimulator.Model
