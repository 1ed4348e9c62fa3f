set_option autoImplicit false

/-!
A slot of a node with children holds a ref (even and not zero) or a tagged count (odd).
-/
namespace ColumnStore

/-- A ref is a byte offset in the store; nodes start at multiples of eight and 0 is no node. -/
abbrev Ref := Nat

namespace Slot

def isRef (v : Int64) : Bool := v != 0 && v &&& 1 == 0

def ofRef (r : Ref) : Int64 := Int64.ofNat r

def toRef (v : Int64) : Ref := v.toUInt64.toNat

def tag (n : Nat) : Int64 := 1 + 2 * Int64.ofNat n

/-- Division truncates, so a negative odd slot rounds up before it is read as unsigned. -/
def untag (v : Int64) : Nat := (v / 2).toUInt64.toNat

end Slot

end ColumnStore
