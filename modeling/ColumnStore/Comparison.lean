set_option autoImplicit false

/-!
Comparisons of a stored value with a needle.
-/
namespace ColumnStore

inductive Comparison where
  | equal
  | notEqual
  | greater
  | greaterEqual
  | less
  | lessEqual
  /-- Holds of everything. -/
  | always
  deriving DecidableEq, Repr, Inhabited

namespace Comparison

/-- A comparison by the equality and the order of a type; an order may leave values incomparable. -/
def holds {α : Type} (eq lt le : α → α → Bool) : Comparison → α → α → Bool
  | equal, a, b => eq a b
  | notEqual, a, b => !eq a b
  | greater, a, b => lt b a
  | greaterEqual, a, b => le b a
  | less, a, b => lt a b
  | lessEqual, a, b => le a b
  | always, _, _ => true

def int (c : Comparison) (a b : Int64) : Bool :=
  c.holds (· == ·) (fun a b => a < b) (fun a b => a ≤ b) a b

def float (c : Comparison) (a b : Float) : Bool :=
  c.holds (· == ·) (fun a b => a < b) (fun a b => a ≤ b) a b

def float32 (c : Comparison) (a b : Float32) : Bool :=
  c.holds (· == ·) (fun a b => a < b) (fun a b => a ≤ b) a b

/-- Some value from `lower` to `upper` may satisfy the comparison with `needle`. -/
def mayHold (c : Comparison) (needle lower upper : Int64) : Bool :=
  match c with
  | equal => lower ≤ needle && needle ≤ upper
  | notEqual => !(needle == 0 && lower == 0 && upper == 0)
  | greater => needle < upper
  | greaterEqual => needle ≤ upper
  | less => lower < needle
  | lessEqual => lower ≤ needle
  | always => true

/-- Every value from `lower` to `upper` satisfies the comparison with `needle`. -/
def mustHold (c : Comparison) (needle lower upper : Int64) : Bool :=
  match c with
  | equal => needle == 0 && lower == 0 && upper == 0
  | notEqual => upper < needle || needle < lower
  | greater => needle < lower
  | greaterEqual => needle ≤ lower
  | less => upper < needle
  | lessEqual => upper ≤ needle
  | always => true

end Comparison

end ColumnStore
