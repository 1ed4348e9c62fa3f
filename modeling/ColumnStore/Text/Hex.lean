set_option autoImplicit false

/-!
Hexadecimal text: lower-case digits of natural numbers, with or without a fixed width, and of bytes.
-/
namespace ColumnStore.Text

def hexDigit (n : Nat) : Char :=
  if n < 10 then Char.ofNat (48 + n) else Char.ofNat (87 + n)

/-- Exactly `width` digits, the high ones cut off. -/
def hexPadded : Nat → Nat → List Char
  | 0, _ => []
  | width + 1, n => hexPadded width (n / 16) ++ [hexDigit (n % 16)]

def hexLength (n : Nat) : Nat := n.log2 / 4 + 1

/-- As few digits as the number needs. -/
def hex (n : Nat) : String := String.ofList (hexPadded (hexLength n) n)

def hex32 (n : UInt32) : String := String.ofList (hexPadded 8 n.toNat)

def hex64 (n : UInt64) : String := String.ofList (hexPadded 16 n.toNat)

def hexBytes (b : ByteArray) : String :=
  String.ofList (b.toList.flatMap fun x => hexPadded 2 x.toNat)

/-- The value of a digit of either case; any other character counts as zero. -/
def digitValue (c : Char) : Nat :=
  if '0' ≤ c ∧ c ≤ '9' then c.toNat - 48
  else if 'a' ≤ c ∧ c ≤ 'f' then c.toNat - 87
  else if 'A' ≤ c ∧ c ≤ 'F' then c.toNat - 55
  else 0

def ofDigits (digits : List Char) : Nat := digits.foldl (fun n c => 16 * n + digitValue c) 0

def ofHex (s : String) : Nat := ofDigits s.toList

/-- Bytes from pairs of digits, after the given ones. -/
def pushHex (acc : ByteArray) : List Char → ByteArray
  | a :: b :: r => pushHex (acc.push (UInt8.ofNat (ofDigits [a, b]))) r
  | _ => acc

def bytesOfHex (s : String) : ByteArray := pushHex .empty s.toList

@[simp] theorem length_hexPadded (width n : Nat) : (hexPadded width n).length = width := by
  induction width generalizing n with
  | zero => rfl
  | succ width ih => simp [hexPadded, ih]

end ColumnStore.Text
