import ColumnStore.Leaf.Bytes
import ColumnStore.Tree.Erase
import ColumnStore.Tree.Insert
import ColumnStore.Tree.Pieces
import ColumnStore.Tree.Update

set_option autoImplicit false

/-!
Columns of byte strings.
-/
namespace ColumnStore

abbrev BytesColumn := Tree BytesLeaf

namespace BytesColumn

def findFirst (m : Memory) (c : BytesColumn) (v : ByteArray) (start : Nat) (stop : Option Nat) :
    Option Nat :=
  Tree.findFirst m c (fun leaf s e => leaf.findFirst m v s (some e)) start stop

/-- Every row of a range that holds `v`. -/
def findAll (m : Memory) (c : BytesColumn) (v : ByteArray) (start : Nat) (stop : Option Nat) :
    List Nat :=
  (c.pieces m start stop).flatMap fun p =>
    (((List.range p.stop).drop p.start).filter fun i => p.leaf.get m i == v).map (p.offset + ·)

end BytesColumn

end ColumnStore
