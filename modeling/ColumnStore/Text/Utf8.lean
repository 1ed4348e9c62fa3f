set_option autoImplicit false

/-!
Text as bytes. Bytes that are no text are read as one replacement character for each longest part
that begins a character and is not one.
-/
namespace ColumnStore.Text

/-- How many bytes follow a first byte, and the range of the next one. -/
def following (a : UInt8) : Option (Nat × UInt8 × UInt8) :=
  if a < 0x80 then some (0, 0, 0)
  else if a < 0xC2 then none
  else if a < 0xE0 then some (1, 0x80, 0xBF)
  else if a = 0xE0 then some (2, 0xA0, 0xBF)
  else if a = 0xED then some (2, 0x80, 0x9F)
  else if a < 0xF0 then some (2, 0x80, 0xBF)
  else if a = 0xF0 then some (3, 0x90, 0xBF)
  else if a < 0xF4 then some (3, 0x80, 0xBF)
  else if a = 0xF4 then some (3, 0x80, 0x8F)
  else none

/-- The bits of a first byte that belong to the character. -/
def leadBits (a : UInt8) (count : Nat) : Nat :=
  a.toNat % (if count = 0 then 128 else 1 <<< (6 - count))

mutual

/-- The characters of a text; `none` stands for a part that is none. -/
def decodeParts : List UInt8 → List (Option Char)
  | [] => []
  | a :: r =>
      match following a with
      | none => none :: decodeParts r
      | some (count, low, high) => continueChar low high (leadBits a count) count r
termination_by r => (r.length, 0)

/-- The rest of a character of which `count` bytes are missing; `low` and `high` bound the next. -/
def continueChar (low high : UInt8) (value : Nat) : Nat → List UInt8 → List (Option Char)
  | 0, r => some (Char.ofNat value) :: decodeParts r
  | _ + 1, [] => [none]
  | count + 1, b :: r =>
      if low ≤ b ∧ b ≤ high then continueChar 0x80 0xBF (value * 64 + b.toNat % 64) count r
      else none :: decodeParts (b :: r)
termination_by count r => (r.length, count + 1)

end

def replacement : Char := Char.ofNat 0xFFFD

def decodeLossy (b : ByteArray) : String :=
  String.ofList ((decodeParts b.toList).map (·.getD replacement))

/-- The characters of bytes that are text throughout. -/
def decode? (b : ByteArray) : Option (List Char) := (decodeParts b.toList).mapM id

def encode (s : String) : ByteArray := s.toUTF8

end ColumnStore.Text
