import ColumnStore.Node.Edit
import ColumnStore.Node.Image
import ColumnStore.Node.Search

set_option autoImplicit false

/-!
What a tree needs of its leaves: a sequence of values at a ref.
-/
namespace ColumnStore

class Leaf (L : Type) (V : outParam Type) where
  create : StoreM L
  load : Memory → Ref → L
  ref : L → Ref
  size : L → Nat
  get : Memory → L → Nat → V
  set : Nat → V → Edit L Unit
  insert : Nat → V → Edit L Unit
  erase : Nat → Edit L Unit
  truncate : Nat → Edit L Unit
  destroy : L → StoreM Unit

def Leaf.toList {L V : Type} [Leaf L V] (m : Memory) (leaf : L) : List V :=
  (List.range (Leaf.size leaf)).map (Leaf.get m leaf)

/-- The first place in a range where `test` holds. -/
def firstWhere (test : Nat → Bool) : Nat → Nat → Option Nat
  | 0, _ => none
  | count + 1, i => if test i then some i else firstWhere test count (i + 1)

/-- The first index of a range, cut to `size`, where `test` holds. -/
def firstInRange (test : Nat → Bool) (size start : Nat) (stop : Option Nat) : Option Nat :=
  firstWhere test (Node.stopOf size stop - start) start

end ColumnStore
