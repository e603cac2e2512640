import Mathlib.Algebra.Group.Nat.Defs
import Mathlib.Data.Int.Notation
import OsSimulator.Model.FreeList

/-!
# The buddy allocator (`pkg/memory/allocator.go`)

A node of the tree has no children or two: the source sets `Left` and `Right` together.  A pointer
to a node is the path to it from the root (`BuddyNode.nodeAt`, `BuddyNode.mark`).  Orders are
natural numbers; a shift by a negative order panics in the source.

* `BuddyNode`, `BuddyAllocator`, `newBuddyAllocator`: lines 187-214
* `allocate`: lines 217-233
* `findAndSplit`: lines 235-259
-/

set_option autoImplicit false

namespace OsSimulator.Model

inductive BuddyNode where
  | leaf (addr : UInt64) (order : ℕ) (isAllocated : Bool)
  | inner (addr : UInt64) (order : ℕ) (isAllocated : Bool) (left right : BuddyNode)
deriving DecidableEq, Repr

/-- A link of a node. -/
inductive Side where
  | left
  | right
deriving DecidableEq, Repr

namespace BuddyNode

/-- The node at the end of a path. -/
def nodeAt : BuddyNode → List Side → BuddyNode
  | inner _ _ _ left _, .left :: path => left.nodeAt path
  | inner _ _ _ _ right, .right :: path => right.nodeAt path
  | node, _ => node

def addr : BuddyNode → UInt64
  | leaf addr _ _ => addr
  | inner addr _ _ _ _ => addr

/-- Set `IsAllocated` of the node at the end of a path. -/
def mark : BuddyNode → List Side → BuddyNode
  | inner addr order allocated left right, .left :: path =>
    inner addr order allocated (left.mark path) right
  | inner addr order allocated left right, .right :: path =>
    inner addr order allocated left (right.mark path)
  | leaf addr order _, _ => leaf addr order true
  | inner addr order _ left right, [] => inner addr order true left right

/-- The search at a node without children: it is split down to the order asked for.
SOURCE: pkg/memory/allocator.go:236-253 -/
def splitLeaf (targetOrder : ℕ) (addr : UInt64) :
    (order : ℕ) → (isAllocated : Bool) → Option (List Side) × BuddyNode
  | order, true => (none, leaf addr order true)
  | 0, false =>
    if targetOrder = 0 then (some [], leaf addr 0 false) else (none, leaf addr 0 false)
  | childOrder + 1, false =>
    if childOrder + 1 = targetOrder then (some [], leaf addr (childOrder + 1) false)
    else if childOrder + 1 > targetOrder then
      let childSize := UInt64.ofNat (2 ^ childOrder)
      let (res, left) := splitLeaf targetOrder addr childOrder false
      (res.map (.left :: ·),
        inner addr (childOrder + 1) false left (leaf (addr + childSize) childOrder false))
    else (none, leaf addr (childOrder + 1) false)

/-- Find a free block of the order asked for, splitting a larger one on the way: the path to it,
and the tree with the new nodes.
SOURCE: pkg/memory/allocator.go:235-259 -/
def findAndSplit (targetOrder : ℕ) : BuddyNode → Option (List Side) × BuddyNode
  | leaf addr order isAllocated => splitLeaf targetOrder addr order isAllocated
  | inner addr order true left right => (none, inner addr order true left right)
  | inner addr order false left right =>
    match left.findAndSplit targetOrder with
    | (some res, left) => (some (.left :: res), inner addr order false left right)
    | (none, left) =>
      let (res, right) := right.findAndSplit targetOrder
      (res.map (.right :: ·), inner addr order false left right)

end BuddyNode

structure BuddyAllocator where
  baseAddr : UInt64
  minOrder : ℕ
  maxOrder : ℕ
  root : BuddyNode
deriving DecidableEq, Repr

/-- SOURCE: pkg/memory/allocator.go:204-214 -/
def newBuddyAllocator (baseAddr : UInt64) (minOrder maxOrder : ℕ) : BuddyAllocator where
  baseAddr := baseAddr
  minOrder := minOrder
  maxOrder := maxOrder
  root := .leaf baseAddr maxOrder false

/-- The errors of `Allocate`, with what they are formatted from. -/
inductive BuddyError where
  | exceedsCapacity (size : UInt64) (maxOrder : ℕ)
  | noBlock (targetOrder : ℕ)
deriving DecidableEq, Repr

/-- The `int` value of `1 << order`. -/
def shiftOne (order : ℕ) : ℤ := ((1 : BitVec 64) <<< order).toInt

def BuddyError.message : BuddyError → String
  | exceedsCapacity size maxOrder =>
    errOutOfMemory ++ ": requested size " ++ toString size ++ " exceeds max buddy capacity " ++
      toString (shiftOne maxOrder)
  | noBlock targetOrder =>
    errOutOfMemory ++ ": no buddy block available for order " ++ toString targetOrder ++ " (" ++
      toString (shiftOne targetOrder) ++ " bytes)"

/-- The loop that looks for the order of a request.  The `uint64` value of `1 << targetOrder` is
`0` from order `64` on, so a loop that gets there with `0 < size` goes on for ever (`none`);
`rounds` is what is left up to order `64`.
SOURCE: pkg/memory/allocator.go:218-221 -/
def targetOrderFor (size : UInt64) : (rounds targetOrder : ℕ) → Option ℕ
  | 0, targetOrder => if UInt64.ofNat (2 ^ targetOrder) < size then none else some targetOrder
  | rounds + 1, targetOrder =>
    if UInt64.ofNat (2 ^ targetOrder) < size then targetOrderFor size rounds (targetOrder + 1)
    else some targetOrder

namespace BuddyAllocator

/-- The call does not return when the search for the order does not end.
SOURCE: pkg/memory/allocator.go:217-233 -/
def allocate (size : UInt64) (ba : BuddyAllocator) :
    Option (Except BuddyError UInt64 × BuddyAllocator) :=
  (targetOrderFor size (64 - ba.minOrder) ba.minOrder).map fun targetOrder =>
    if targetOrder > ba.maxOrder then (.error (.exceedsCapacity size ba.maxOrder), ba)
    else
      match ba.root.findAndSplit targetOrder with
      | (none, root) => (.error (.noBlock targetOrder), { ba with root := root })
      | (some node, root) => (.ok (root.nodeAt node).addr, { ba with root := root.mark node })

end BuddyAllocator

/-- A call that succeeded. -/
structure Grant where
  size : UInt64
  addr : UInt64
deriving DecidableEq, Repr

namespace BuddyAllocator

/-- A call, with the record of the calls that have succeeded. -/
def request (size : UInt64) (st : BuddyAllocator × List Grant) :
    Option (BuddyAllocator × List Grant) :=
  (st.1.allocate size).map fun
    | (.ok addr, ba) => (ba, ⟨size, addr⟩ :: st.2)
    | (.error _, ba) => (ba, st.2)

/-- A sequence of calls; `none` when one of them does not return. -/
def requests : List UInt64 → BuddyAllocator × List Grant → Option (BuddyAllocator × List Grant)
  | [], st => some st
  | size :: sizes, st => (request size st).bind (requests sizes)

end BuddyAllocator

end OsSimulator.Model
