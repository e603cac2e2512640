import Mathlib.Data.List.FinRange
import Mathlib.Logic.Function.Basic

/-!
# The banker's algorithm (`pkg/concurrency/deadlock_banker.go`)

`BankersState n m` is the source's `BankersState` for `n` processes and `m`
resources.  The vectors and matrices are functions on `Fin n` and `Fin m`, so a
state whose dimensions do not match cannot be built.  The entries are the source's
`int`s: 64-bit machine integers whose sums wrap around.

A vector that is passed to `SetProcessClaim` or `RequestResources` is a value here.  The source
reads it entry by entry while it writes the state, so what is proved holds for calls whose vectors
share no memory with the state's own slices; a request that is `Available` itself is left out.

`safetyLoop` is the `for len(safeSeq) < b.NumProcesses` loop of `CheckSafeState`.
Its rounds are bounded by a fuel argument; `none` means that the fuel ran out
before the loop was left.
-/

set_option autoImplicit false

namespace OsSimulator.Model

/-- The resource state of `n` processes and `m` resources.  `Max` is written by
`SetProcessClaim` only.
SOURCE: pkg/concurrency/deadlock_banker.go:11-19 -/
structure BankersState (n m : ℕ) where
  resourceNames : Fin m → String
  available : Fin m → Int64
  max : Fin n → Fin m → Int64
  allocation : Fin n → Fin m → Int64
  need : Fin n → Fin m → Int64

/-- `NewBankersState`: everything is available, nothing is claimed.  The `copy` of the
source leaves a missing total at zero.
SOURCE: pkg/concurrency/deadlock_banker.go:21-45 -/
def newBankersState (procCount : ℕ) (resNames : List String) (totalResources : List Int64) :
    BankersState procCount resNames.length where
  resourceNames := resNames.get
  available := fun j => totalResources.getD j 0
  max := fun _ _ => 0
  allocation := fun _ _ => 0
  need := fun _ _ => 0

namespace BankersState

variable {n m : ℕ}

/-- `SetProcessClaim`.
SOURCE: pkg/concurrency/deadlock_banker.go:48-55 -/
def setProcessClaim (b : BankersState n m) (procIdx : Fin n) (maxClaim currentAlloc : Fin m → Int64) :
    BankersState n m :=
  { b with
    max := Function.update b.max procIdx maxClaim
    allocation := Function.update b.allocation procIdx currentAlloc
    need := Function.update b.need procIdx (fun j => maxClaim j - currentAlloc j)
    available := fun j => b.available j - currentAlloc j }

/-- The inner loop over the resources: no entry of `Need[i]` exceeds `work`.
SOURCE: pkg/concurrency/deadlock_banker.go:75-81 -/
def canExecute (b : BankersState n m) (work : Fin m → Int64) (i : Fin n) : Bool :=
  (List.finRange m).all fun j => !decide (b.need i j > work j)

/-- The variables of `CheckSafeState` that its loop carries. -/
structure Safety (n m : ℕ) where
  work : Fin m → Int64
  finish : Fin n → Bool
  safeSeq : List (Fin n)
  logSteps : List String

/-- What `CheckSafeState` returns; `safeSequence` is empty when the state is unsafe. -/
structure SafetyResult (n : ℕ) where
  isSafe : Bool
  safeSequence : List (Fin n)
  explanation : String

/-- The `%v` rendering of an `[]int`. -/
def showInts {k : ℕ} (v : Fin k → Int64) : String :=
  "[" ++ " ".intercalate ((List.finRange k).map fun j => toString (v j)) ++ "]"

/-- `visualizer.Red` and `visualizer.Green`: the text between an escape code and a reset.
SOURCE: pkg/visualizer/ansi.go:48-55 -/
def colorize (color text : String) : String := color ++ text ++ "\x1b[0m"

/-- The scan `for i := 0; i < b.NumProcesses; i++` up to its `break`: the first
unfinished process whose need fits.
SOURCE: pkg/concurrency/deadlock_banker.go:72-96 -/
def firstRunnable (b : BankersState n m) (s : Safety n m) : Option (Fin n) :=
  (List.finRange n).find? fun i => !s.finish i && b.canExecute s.work i

/-- Process `i` finishes and releases its allocation into `work`.
SOURCE: pkg/concurrency/deadlock_banker.go:84-93 -/
def release (b : BankersState n m) (s : Safety n m) (i : Fin n) : Safety n m :=
  let work := fun j => s.work j + b.allocation i j
  { work
    finish := Function.update s.finish i true
    safeSeq := s.safeSeq ++ [i]
    logSteps := s.logSteps ++
      ["P" ++ toString i.val ++ " can satisfy its Need " ++ showInts (b.need i) ++
        " <= Available -> Executes & releases resources. New Available: " ++ showInts work] }

/-- The main loop.
SOURCE: pkg/concurrency/deadlock_banker.go:69-106 -/
def safetyLoop (b : BankersState n m) : ℕ → Safety n m → Option (SafetyResult n)
  | 0, _ => none
  | fuel + 1, s =>
    if s.safeSeq.length < n then
      match b.firstRunnable s with
      | none => some
          { isSafe := false
            safeSequence := []
            explanation := "\n".intercalate (s.logSteps ++
              [colorize "\x1b[31m" "DEADLOCK RISK: No remaining process can satisfy its resource needs with currently available resources!"]) }
      | some i => safetyLoop b fuel (b.release s i)
    else some
      { isSafe := true
        safeSequence := s.safeSeq
        explanation := "\n".intercalate (s.logSteps ++
          [colorize "\x1b[32m" ("SAFE STATE CONFIRMED: Safe Execution Sequence: P[" ++
            " ".intercalate (s.safeSeq.map fun i => toString i.val) ++ "]")]) }

/-- The variables before the first round.
SOURCE: pkg/concurrency/deadlock_banker.go:60-67 -/
def initialSafety (b : BankersState n m) : Safety n m where
  work := b.available
  finish := fun _ => false
  safeSeq := []
  logSteps := ["Initial Available Vector: " ++ showInts b.available]

/-- `CheckSafeState`, with one round of fuel more than there are processes.
SOURCE: pkg/concurrency/deadlock_banker.go:59-107 -/
def checkSafeState (b : BankersState n m) : Option (SafetyResult n) :=
  b.safetyLoop (n + 1) b.initialSafety

/-- What `RequestResources` returns, and the state it leaves behind. -/
structure RequestResult (n m : ℕ) where
  granted : Bool
  message : String
  state : BankersState n m

/-- The two checking loops: some entry of the request exceeds the limit.
SOURCE: pkg/concurrency/deadlock_banker.go:112-116, 119-124 -/
def exceeds (request limit : Fin m → Int64) : Bool :=
  (List.finRange m).any fun j => decide (request j > limit j)

/-- The hypothetical allocation.
SOURCE: pkg/concurrency/deadlock_banker.go:127-131 -/
def allocate (b : BankersState n m) (procIdx : Fin n) (request : Fin m → Int64) :
    BankersState n m :=
  { b with
    available := fun j => b.available j - request j
    allocation := Function.update b.allocation procIdx fun j => b.allocation procIdx j + request j
    need := Function.update b.need procIdx fun j => b.need procIdx j - request j }

/-- SOURCE: pkg/concurrency/deadlock_banker.go:136-140 -/
def rollback (b : BankersState n m) (procIdx : Fin n) (request : Fin m → Int64) :
    BankersState n m :=
  { b with
    available := fun j => b.available j + request j
    allocation := Function.update b.allocation procIdx fun j => b.allocation procIdx j - request j
    need := Function.update b.need procIdx fun j => b.need procIdx j + request j }

/-- `RequestResources`; `none` only if the fuel of `CheckSafeState` ran out.
SOURCE: pkg/concurrency/deadlock_banker.go:110-145 -/
def requestResources (b : BankersState n m) (procIdx : Fin n) (request : Fin m → Int64) :
    Option (RequestResult n m) :=
  if exceeds request (b.need procIdx) then some
    { granted := false
      message := "ERROR: Process P" ++ toString procIdx.val ++
        " requested more than its declared maximum claim (Need: " ++ showInts (b.need procIdx) ++ ")"
      state := b }
  else if exceeds request b.available then some
    { granted := false
      message := "DENIED: Process P" ++ toString procIdx.val ++
        " must wait. Insufficient resources available (" ++ showInts request ++ " requested vs " ++
        showInts b.available ++ " available)"
      state := b }
  else
    (b.allocate procIdx request).checkSafeState.map fun r =>
      if !r.isSafe then
        { granted := false
          message := "REQUEST DENIED: Granting request would put system in an UNSAFE state (Deadlock Hazard)!\n" ++
            r.explanation
          state := (b.allocate procIdx request).rollback procIdx request }
      else
        { granted := true
          message := "REQUEST GRANTED: Safe sequence exists: P[" ++
            " ".intercalate (r.safeSequence.map fun i => toString i.val) ++ "]\n" ++ r.explanation
          state := b.allocate procIdx request }

end BankersState

/-- A call on the banker. -/
inductive BankerCall (n m : ℕ) where
  | claim (procIdx : Fin n) (maxClaim currentAlloc : Fin m → Int64)
  | request (procIdx : Fin n) (request : Fin m → Int64)

namespace BankersState

variable {n m : ℕ}

def call (b : BankersState n m) : BankerCall n m → Option (BankersState n m)
  | .claim procIdx maxClaim currentAlloc => some (b.setProcessClaim procIdx maxClaim currentAlloc)
  | .request procIdx request => (b.requestResources procIdx request).map RequestResult.state

/-- The state after a sequence of calls. -/
def run (b : BankersState n m) (calls : List (BankerCall n m)) : Option (BankersState n m) :=
  calls.foldlM call b

end BankersState

end OsSimulator.Model
