set_option autoImplicit false

/-!
Widths of packed elements: 0, 1, 2 and 4 bits hold unsigned values, 8 to 64 bits signed ones.
-/
namespace ColumnStore

namespace Width

def legal : List Nat := [0, 1, 2, 4, 8, 16, 32, 64]

/-- The smallest legal width that represents a value. -/
def ofValue (v : Int64) : Nat :=
  if v.toUInt64 >>> 4 = 0 then
    if v = 0 then 0 else if v = 1 then 1 else if v < 4 then 2 else 4
  else
    let a := if v < 0 then ~~~v else v
    if a >>> 31 ≠ 0 then 64 else if a >>> 15 ≠ 0 then 32 else if a >>> 7 ≠ 0 then 16 else 8

def lower (w : Nat) : Int64 :=
  if w < 8 then 0
  else if w = 8 then -0x80
  else if w = 16 then -0x8000
  else if w = 32 then -0x80000000
  else Int64.minValue

def upper (w : Nat) : Int64 :=
  if w = 0 then 0
  else if w = 1 then 0x1
  else if w = 2 then 0x3
  else if w = 4 then 0xF
  else if w = 8 then 0x7F
  else if w = 16 then 0x7FFF
  else if w = 32 then 0x7FFFFFFF
  else Int64.maxValue

def fits (w : Nat) (v : Int64) : Bool := lower w ≤ v && v ≤ upper w

/-- A width as a three-bit code. -/
def code (w : Nat) : Nat := if w = 0 then 0 else w.log2 + 1

def ofCode (c : Nat) : Nat := 1 <<< c >>> 1

theorem ofCode_code : ∀ w ∈ legal, ofCode (code w) = w := by decide +kernel

theorem code_ofCode : ∀ c < 8, code (ofCode c) = c := by decide +kernel

end Width

/-- How a node's width and size translate into bytes. -/
inductive Layout where
  /-- The width is in bits. -/
  | bits
  /-- The width is in bytes. -/
  | bytes
  /-- Elements are bytes, and the width means nothing. -/
  | raw
  deriving DecidableEq, Repr, Inhabited

namespace Layout

def code : Layout → Nat
  | bits => 0
  | bytes => 1
  | raw => 2

def ofCode : Nat → Layout
  | 1 => bytes
  | 2 => raw
  | _ => bits

def dataSize (l : Layout) (size width : Nat) : Nat :=
  match l with
  | bits => (size * width + 7) / 8
  | bytes => size * width
  | raw => size

end Layout

end ColumnStore
