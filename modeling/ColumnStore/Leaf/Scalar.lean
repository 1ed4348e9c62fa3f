import ColumnStore.Leaf.Basic
import ColumnStore.Node.Aggregate

set_option autoImplicit false

/-!
Leaves of floating point numbers of one width. Values are kept as bits, so that every not-a-number
is stored as it came; only comparisons and sums read them as numbers.
-/
namespace ColumnStore

structure Single where
  bits : UInt32
  deriving DecidableEq, Repr, Inhabited

structure Double where
  bits : UInt64
  deriving DecidableEq, Repr, Inhabited

class Scalar (α : Type) where
  /-- Bytes of a stored value. -/
  width : Nat
  ofWord : UInt64 → α
  toWord : α → UInt64
  toFloat : α → Float
  holds : Comparison → α → α → Bool
  zero : α

def Single.float (x : Single) : Float32 := .ofBits x.bits

def Double.float (x : Double) : Float := .ofBits x.bits

instance : Scalar Single where
  width := 4
  ofWord w := ⟨w.toUInt32⟩
  toWord x := x.bits.toUInt64
  toFloat x := x.float.toFloat
  holds c a b := c.float32 a.float b.float
  zero := ⟨0⟩

instance : Scalar Double where
  width := 8
  ofWord w := ⟨w⟩
  toWord x := x.bits
  toFloat x := x.float
  holds c a b := c.float a.float b.float
  zero := ⟨0⟩

structure ScalarLeaf (α : Type) where
  node : Node
  deriving DecidableEq, Repr, Inhabited

namespace ScalarLeaf

open StoreM (modifyMemory)

variable {α : Type}

def edit {β : Type} (e : Edit Node β) : Edit (ScalarLeaf α) β :=
  Edit.focus ScalarLeaf.node (fun node _ => ⟨node⟩) e

variable [Scalar α]

def create : StoreM (ScalarLeaf α) :=
  ScalarLeaf.mk <$> Node.create .plain .bytes (Scalar.width α)

def size (l : ScalarLeaf α) : Nat := l.node.size

def slot (l : ScalarLeaf α) (i : Nat) : Nat := l.node.data + i * Scalar.width α

def get (m : Memory) (l : ScalarLeaf α) (i : Nat) : α :=
  Scalar.ofWord (m.wordOf (l.slot i) (Scalar.width α))

def store (i : Nat) (v : α) : Edit (ScalarLeaf α) Unit := do
  let l ← Edit.self
  modifyMemory fun m => m.setWordOf (l.slot i) (Scalar.toWord v) (Scalar.width α)

def set (i : Nat) (v : α) : Edit (ScalarLeaf α) Unit := do
  edit Node.copyOnWrite
  store i v

def insert (i : Nat) (v : α) : Edit (ScalarLeaf α) Unit := do
  let size := (← Edit.self).size
  edit Node.copyOnWrite
  edit (Node.reserve (size + 1) (Scalar.width α))
  let l ← Edit.self
  modifyMemory fun m => m.move (l.slot i) (l.slot (i + 1)) ((size - i) * Scalar.width α)
  edit (Node.setKnownSize (size + 1))
  store i v

def erase (i : Nat) : Edit (ScalarLeaf α) Unit := do
  edit Node.copyOnWrite
  let l ← Edit.self
  modifyMemory fun m => m.move (l.slot (i + 1)) (l.slot i) ((l.size - i - 1) * Scalar.width α)
  edit (Node.reserve (l.size - 1) (Scalar.width α))
  edit (Node.setKnownSize (l.size - 1))

def truncate (size : Nat) : Edit (ScalarLeaf α) Unit := edit (Node.truncate size)

instance : Leaf (ScalarLeaf α) α where
  create := create
  load m r := ⟨.load m r⟩
  ref l := l.node.ref
  size := size
  get := get
  set := set
  insert := insert
  erase := erase
  truncate := truncate
  destroy l := l.node.destroy

/-- The first index in a range that holds an equal number. -/
def findFirst (m : Memory) (l : ScalarLeaf α) (v : α) (start : Nat) (stop : Option Nat) :
    Option Nat :=
  firstInRange (fun i => Scalar.holds .equal (l.get m i) v) l.size start stop

def sumFrom (m : Memory) (l : ScalarLeaf α) : Nat → Nat → Float → Float
  | 0, _, total => total
  | count + 1, i, total => sumFrom m l count (i + 1) (total + Scalar.toFloat (l.get m i))

/-- The sum of a range in double precision; it starts from negative zero, which adds nothing. -/
def sum (m : Memory) (l : ScalarLeaf α) (start : Nat) (stop : Option Nat) : Float :=
  l.sumFrom m (Node.stopOf l.size stop - start) start (-0.0)

def extreme (m : Memory) (l : ScalarLeaf α) (better : Comparison) (start : Nat)
    (stop : Option Nat) : Option (α × Nat) :=
  let stop := Node.stopOf l.size stop
  if start < stop then
    some (Node.extremeFrom (l.get m) (Scalar.holds better) (stop - (start + 1)) (start + 1)
      (l.get m start, start))
  else none

def minimum (m : Memory) (l : ScalarLeaf α) : Nat → Option Nat → Option (α × Nat) :=
  l.extreme m .less

def maximum (m : Memory) (l : ScalarLeaf α) : Nat → Option Nat → Option (α × Nat) :=
  l.extreme m .greater

end ScalarLeaf

end ColumnStore
