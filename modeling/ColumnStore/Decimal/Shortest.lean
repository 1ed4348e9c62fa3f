set_option autoImplicit false

/-!
The decimal text of a binary fraction: the fewest digits that read back to the same double, and of
those the nearest, written positionally.
-/
namespace ColumnStore.Decimal

/-- The reals `lo/den .. hi/den` that round to the double `mid/den`; `closed` takes the ends in. -/
structure Rounding where
  lo : Nat
  mid : Nat
  hi : Nat
  den : Nat
  closed : Bool

/-- The rounding interval of `m * 2^q`; below a power of two (`narrow`) the gap is half as wide. -/
def Rounding.ofBinary (m : Nat) (q : Int) (narrow : Bool) : Rounding :=
  let up := 1 <<< q.toNat
  let down := 1 <<< (-q).toNat
  { lo := (4 * m - if narrow then 1 else 2) * up
    mid := 4 * m * up
    hi := (4 * m + 2) * up
    den := 4 * down
    closed := m % 2 == 0 }

def tenTo (n : Nat) : Nat := Nat.pow 10 n

/-- The decimal `c * 10^g` lies in the interval. -/
def Rounding.contains (r : Rounding) (c : Nat) (g : Int) : Bool :=
  let x := c * tenTo g.toNat * r.den
  let s := tenTo (-g).toNat
  if r.closed then r.lo * s ≤ x && x ≤ r.hi * s else r.lo * s < x && x < r.hi * s

/-- The greatest `c` with `c * 10^g` at most the value. -/
def Rounding.floorAt (r : Rounding) (g : Int) : Nat :=
  r.mid * tenTo (-g).toNat / (r.den * tenTo g.toNat)

/-- The lower grid neighbour is strictly nearer than the upper one. -/
def Rounding.lowerNearer (r : Rounding) (c : Nat) (g : Int) : Bool :=
  2 * r.mid * tenTo (-g).toNat < (2 * c + 1) * tenTo g.toNat * r.den

/-- The grid point in the interval nearest to the value; a tie goes up. -/
def Rounding.onGrid (r : Rounding) (g : Int) : Option Nat :=
  let c := r.floorAt g
  match r.contains c g, r.contains (c + 1) g with
  | true, true => some (if r.lowerNearer c g then c else c + 1)
  | true, false => some c
  | false, true => some (c + 1)
  | false, false => none

/-- Refines the grid until a point falls in the interval; `steps` bounds the refinements. -/
def Rounding.refine (r : Rounding) : Nat → Int → Nat × Int
  | 0, g => (r.floorAt g, g)
  | steps + 1, g =>
      match r.onGrid g with
      | some c => (c, g)
      | none => r.refine steps (g - 1)

/-- One more than the decimal exponent of the leading digit, or more. -/
def Rounding.leading (r : Rounding) : Int :=
  let bits : Int := (r.mid.log2 : Int) - r.den.log2 + 2
  if 0 ≤ bits then bits * 30103 / 100000 + 1 else bits * 30102 / 100000 + 1

/-- Digits `c` and exponent `g` of the shortest decimal `c * 10^g` that reads back. -/
def Rounding.shortest (r : Rounding) : Nat × Int := r.refine 25 r.leading

def mantissaBits : Nat := 52

/-- Mantissa, exponent and gap of a positive finite double, from its bits without the sign. -/
def binaryParts (bits : Nat) : Nat × Int × Bool :=
  let e := bits >>> mantissaBits
  let f := bits % 1 <<< mantissaBits
  if e = 0 then (f, -1074, false)
  else (1 <<< mantissaBits + f, (e : Int) - 1075, f == 0 && e != 1)

/-- Digits with the decimal point `g` places from their right end, no exponent and no spare zeros. -/
def positional (c : Nat) (g : Int) : String :=
  let digits := Nat.toDigits 10 c
  if 0 ≤ g then String.ofList (digits ++ List.replicate g.toNat '0')
  else
    let places := (-g).toNat
    let padded := List.replicate (places + 1 - digits.length) '0' ++ digits
    let whole := padded.take (padded.length - places)
    String.ofList (whole ++ '.' :: padded.drop (padded.length - places))

/-- A whole number has no point, a negative zero keeps its sign, and a NaN has none. -/
def ofBits (bits : UInt64) : String :=
  let b := bits.toNat % 1 <<< 63
  let sign := if bits.toNat >>> 63 = 1 then "-" else ""
  if 2047 <<< mantissaBits < b then "NaN"
  else if b = 2047 <<< mantissaBits then sign ++ "inf"
  else if b = 0 then sign ++ "0"
  else
    let (m, q, narrow) := binaryParts b
    let (c, g) := (Rounding.ofBinary m q narrow).shortest
    sign ++ positional c g

end ColumnStore.Decimal
