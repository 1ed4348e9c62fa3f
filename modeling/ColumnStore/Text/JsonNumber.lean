import ColumnStore.Text.Json

set_option autoImplicit false

/-!
The value of a JSON number: exact for natural numbers below 2^64, and for all others a
64-bit significand scaled by a power of ten.
-/
namespace ColumnStore.Text.JsonNumber

def wordLimit : Nat := UInt64.size

def natOfDigits (ds : List Nat) : Nat := ds.foldl (fun n d => 10 * n + d) 0

/-- Only a literal without sign, point and exponent is a natural number. -/
def nat? (n : JsonNumber) : Option Nat :=
  if n.negative ∨ n.fraction ≠ [] ∨ n.exponent.isSome then none
  else
    let v := natOfDigits n.whole
    if v < wordLimit then some v else none

/-- Digits are taken while the significand stays a word; the count of the others is returned. -/
def takeDigits : Nat → List Nat → Nat × Nat
  | s, [] => (s, 0)
  | s, d :: ds => if 10 * s + d < wordLimit then takeDigits (10 * s + d) ds else (s, ds.length + 1)

/-- The significand, and the power of ten it is scaled by before the exponent part is added. -/
def significand (n : JsonNumber) : Nat × Int :=
  let (s, dropped) := takeDigits 0 n.whole
  let (s', unread) := takeDigits s n.fraction
  (s', (dropped : Int) - ((n.fraction.length - unread : Nat) : Int))

def powerOfTen (k : Nat) : Float := Float.ofScientific 1 false k

/-- Scaling divides by at most `10^308` at a time; what leaves the range upwards has no value. -/
def scale (f : Float) (e : Int) : Option Float :=
  if 308 < e then if f == 0.0 then some f else none
  else if 0 ≤ e then
    let g := f * powerOfTen e.toNat
    if g.isInf then none else some g
  else if -308 ≤ e then some (f / powerOfTen (-e).toNat)
  else if f == 0.0 then some f
  else scale (f / powerOfTen 308) (e + 308)
termination_by (-e).toNat
decreasing_by omega

def exponentLimit : Nat := 1 <<< 31

def clampExponent (e : Int) : Int := max (-exponentLimit) (min (exponentLimit - 1) e)

def magnitude? (n : JsonNumber) : Option Float :=
  let (s, e) := n.significand
  match n.exponent with
  | none => scale (UInt64.ofNat s).toFloat e
  | some (negative, ds) =>
      let x := natOfDigits ds
      if exponentLimit ≤ x then if s ≠ 0 ∧ ¬ negative then none else some 0.0
      else scale (UInt64.ofNat s).toFloat (clampExponent (if negative then e - x else e + x))

def float? (n : JsonNumber) : Option Float :=
  n.magnitude?.map fun f => if n.negative then -f else f

end ColumnStore.Text.JsonNumber
