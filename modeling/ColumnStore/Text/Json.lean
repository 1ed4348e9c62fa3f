set_option autoImplicit false

/-!
JSON text read into a tree that keeps numbers and strings as they are written.
-/
namespace ColumnStore.Text

/-- A character of a quoted string, or a `\u` escape as its 16-bit unit. -/
inductive JsonUnit where
  | plain (c : Char)
  | escaped (unit : Nat)
  deriving DecidableEq, Repr

structure JsonNumber where
  negative : Bool
  whole : List Nat
  /-- Empty iff there is no decimal point. -/
  fraction : List Nat
  /-- Sign and digits of the exponent part. -/
  exponent : Option (Bool × List Nat)
  deriving DecidableEq, Repr

inductive Json where
  | null
  | bool (b : Bool)
  | number (n : JsonNumber)
  | string (s : List JsonUnit)
  | array (items : List Json)
  | object (fields : List (List JsonUnit × Json))

namespace Json

def isBlank (c : Char) : Bool := c == ' ' || c == '\n' || c == '\t' || c == '\r'

def skipBlank (s : List Char) : List Char := s.dropWhile isBlank

def digit? (c : Char) : Option Nat :=
  if '0' ≤ c ∧ c ≤ '9' then some (c.toNat - 48) else none

def hexDigit? (c : Char) : Option Nat :=
  if '0' ≤ c ∧ c ≤ '9' then some (c.toNat - 48)
  else if 'a' ≤ c ∧ c ≤ 'f' then some (c.toNat - 87)
  else if 'A' ≤ c ∧ c ≤ 'F' then some (c.toNat - 55)
  else none

def digits : List Char → List Nat × List Char
  | [] => ([], [])
  | c :: r =>
      match digit? c with
      | some d => let (ds, rest) := digits r; (d :: ds, rest)
      | none => ([], c :: r)

/-- At least one digit. -/
def digits1? (s : List Char) : Option (List Nat × List Char) :=
  match digits s with
  | ([], _) => none
  | r => some r

/-- No leading zero but a lone one. -/
def whole? (s : List Char) : Option (List Nat × List Char) :=
  match digits1? s with
  | some (0 :: _ :: _, _) => none
  | r => r

def fraction? : List Char → Option (List Nat × List Char)
  | '.' :: r => digits1? r
  | r => some ([], r)

def exponentSign : List Char → Bool × List Char
  | '+' :: r => (false, r)
  | '-' :: r => (true, r)
  | r => (false, r)

def exponent? : List Char → Option (Option (Bool × List Nat) × List Char)
  | c :: r =>
      if c = 'e' ∨ c = 'E' then
        let (negative, r) := exponentSign r
        (digits1? r).map fun (ds, r) => (some (negative, ds), r)
      else some (none, c :: r)
  | [] => some (none, [])

def unsigned? (negative : Bool) (s : List Char) : Option (JsonNumber × List Char) := do
  let (whole, s) ← whole? s
  let (fraction, s) ← fraction? s
  let (exponent, s) ← exponent? s
  return ({ negative, whole, fraction, exponent }, s)

def escape? : Char → Option Char
  | '"' => some '"'
  | '\\' => some '\\'
  | '/' => some '/'
  | 'b' => some '\x08'
  | 'f' => some '\x0c'
  | 'n' => some '\n'
  | 'r' => some '\r'
  | 't' => some '\t'
  | _ => none

/-- The rest of a string after its opening quote; control characters must be escaped. -/
def units? : List Char → Option (List JsonUnit × List Char)
  | [] => none
  | '"' :: r => some ([], r)
  | '\\' :: 'u' :: a :: b :: c :: d :: r => do
      let unit := (← hexDigit? a) * 4096 + (← hexDigit? b) * 256 + (← hexDigit? c) * 16 + (← hexDigit? d)
      let (us, r) ← units? r
      return (.escaped unit :: us, r)
  | '\\' :: c :: r => do
      let c ← escape? c
      let (us, r) ← units? r
      return (.plain c :: us, r)
  | c :: r =>
      if c.toNat < 32 ∨ c = '\\' then none
      else do
        let (us, r) ← units? r
        return (.plain c :: us, r)

def literal? (word : String) (value : Json) (s : List Char) : Option (Json × List Char) :=
  if word.toList.isPrefixOf s then some (value, s.drop word.length) else none

mutual

/-- Every nested value takes at least one character, so `fuel` may be the length of the text. -/
def value? : Nat → List Char → Option (Json × List Char)
  | 0, _ => none
  | fuel + 1, s =>
      match skipBlank s with
      | 'n' :: r => literal? "ull" .null r
      | 't' :: r => literal? "rue" (.bool true) r
      | 'f' :: r => literal? "alse" (.bool false) r
      | '"' :: r => (units? r).map fun (us, r) => (.string us, r)
      | '-' :: r => (unsigned? true r).map fun (n, r) => (.number n, r)
      | '[' :: r =>
          match skipBlank r with
          | ']' :: r => some (.array [], r)
          | r => (items? fuel r).map fun (vs, r) => (.array vs, r)
      | '\x7b' :: r =>
          match skipBlank r with
          | '\x7d' :: r => some (.object [], r)
          | r => (fields? fuel r).map fun (fs, r) => (.object fs, r)
      | r => (unsigned? false r).map fun (n, r) => (.number n, r)

def items? : Nat → List Char → Option (List Json × List Char)
  | 0, _ => none
  | fuel + 1, s =>
      match value? fuel s with
      | none => none
      | some (v, r) =>
          match skipBlank r with
          | ']' :: r => some ([v], r)
          | ',' :: r => (items? fuel r).map fun (vs, r) => (v :: vs, r)
          | _ => none

def fields? : Nat → List Char → Option (List (List JsonUnit × Json) × List Char)
  | 0, _ => none
  | fuel + 1, s =>
      match skipBlank s with
      | '"' :: r =>
          match units? r with
          | none => none
          | some (key, r) =>
              match skipBlank r with
              | ':' :: r =>
                  match value? fuel r with
                  | none => none
                  | some (v, r) =>
                      match skipBlank r with
                      | '\x7d' :: r => some ([(key, v)], r)
                      | ',' :: r => (fields? fuel r).map fun (fs, r) => ((key, v) :: fs, r)
                      | _ => none
              | _ => none
      | _ => none

end

/-- A whole text: one value, and blanks around it. -/
def parse? (text : String) : Option Json :=
  let s := text.toList
  match value? (s.length + 1) s with
  | some (v, r) => if (skipBlank r).isEmpty then some v else none
  | none => none

/-- The text of a string; escaped surrogates must come in pairs. -/
def text? : List JsonUnit → Option (List Char)
  | [] => some []
  | .plain c :: r => (text? r).map (c :: ·)
  | .escaped u :: r =>
      if u < 0xD800 ∨ 0xDFFF < u then (text? r).map (Char.ofNat u :: ·)
      else if 0xDC00 ≤ u then none
      else
        match r with
        | .escaped v :: r =>
            if 0xDC00 ≤ v ∧ v ≤ 0xDFFF then
              (text? r).map (Char.ofNat (0x10000 + (u - 0xD800) * 1024 + (v - 0xDC00)) :: ·)
            else none
        | _ => none

end Json

end ColumnStore.Text
