import ColumnStore.Leaf.Scalar
import ColumnStore.Tree.Erase
import ColumnStore.Tree.Insert
import ColumnStore.Tree.Pieces
import ColumnStore.Tree.Update

set_option autoImplicit false

/-!
Columns of floating point numbers.
-/
namespace ColumnStore

abbrev ScalarColumn (α : Type) := Tree (ScalarLeaf α)

namespace ScalarColumn

variable {α : Type} [Scalar α]

def findFirst (m : Memory) (c : ScalarColumn α) (v : α) (start : Nat) (stop : Option Nat) :
    Option Nat :=
  Tree.findFirst m c (fun leaf s e => leaf.findFirst m v s (some e)) start stop

/-- The sums of the leaves added up, from positive zero. -/
def sum (m : Memory) (c : ScalarColumn α) (start : Nat) (stop : Option Nat) : Float :=
  (c.pieces m start stop).foldl (fun total p => total + p.leaf.sum m p.start (some p.stop)) 0.0

def minimum (m : Memory) (c : ScalarColumn α) (start : Nat) (stop : Option Nat) :
    Option (α × Nat) :=
  Tree.bestOf (fun leaf s e => leaf.minimum m s (some e)) (Scalar.holds .less)
    (c.pieces m start stop) none

def maximum (m : Memory) (c : ScalarColumn α) (start : Nat) (stop : Option Nat) :
    Option (α × Nat) :=
  Tree.bestOf (fun leaf s e => leaf.maximum m s (some e)) (Scalar.holds .greater)
    (c.pieces m start stop) none

/-- The mean of a range, zero if it is empty. -/
def average (m : Memory) (c : ScalarColumn α) (start : Nat) (stop : Option Nat) : Float :=
  let count := c.stopOf m stop - start
  if count = 0 then 0.0 else c.sum m start stop / Float.ofNat count

end ScalarColumn

end ColumnStore
