import ColumnStore.Node.Search

set_option autoImplicit false

/-!
Sums, extremes and counts over a range of a node's elements. Below eight bits a sum goes word by
word: each bit plane counts its set bits.
-/
namespace ColumnStore.Node

/-- The sum of `count` elements from `i` on, modulo 2^64. -/
def sumFrom (m : Memory) (n : Node) : Nat → Nat → Int64 → Int64
  | 0, _, total => total
  | count + 1, i, total => sumFrom m n count (i + 1) (total + n.get m i)

/-- The lanes of a word added up by their bit planes. -/
def planeSum (w : Nat) (word : UInt64) : Nat → Int64
  | 0 => 0
  | bit + 1 =>
      planeSum w word bit +
        Int64.ofNat (Receiver.popCount ((word >>> UInt64.ofNat bit) &&& Search.lowBits w)) <<<
          Int64.ofNat bit

/-- The sum of `count` aligned words from element `i` on. -/
def sumWords (m : Memory) (n : Node) : Nat → Nat → Int64 → Int64
  | 0, _, total => total
  | count + 1, i, total =>
      sumWords m n count (i + 64 / n.width)
        (total + planeSum n.width (m.word (n.data + i * n.width / 8)) n.width)

def sumRange (m : Memory) (n : Node) (start stop : Nat) : Int64 :=
  if n.width = 0 then 0
  else if n.width < 8 then
    let lanes := 64 / n.width
    let first := min ((start + lanes - 1) / lanes * lanes) stop
    let count := (stop - first) / lanes
    let last := first + count * lanes
    let total := n.sumWords m count first (n.sumFrom m (first - start) start 0)
    n.sumFrom m (stop - last) last total
  else n.sumFrom m (stop - start) start 0

def sum (m : Memory) (n : Node) (start : Nat) (stop : Option Nat) : Int64 :=
  let stop := stopOf n.size stop
  if start < stop then n.sumRange m start stop else 0

/-- The better of `best` and `count` elements from `i` on; the earlier one wins a tie. -/
def extremeFrom {α : Type} (get : Nat → α) (better : α → α → Bool) : Nat → Nat → α × Nat → α × Nat
  | 0, _, best => best
  | count + 1, i, best =>
      let v := get i
      extremeFrom get better count (i + 1) (if better v best.1 then (v, i) else best)

/-- An extreme of a range with its first index. -/
def extreme (m : Memory) (n : Node) (better : Int64 → Int64 → Bool) (start : Nat)
    (stop : Option Nat) : Option (Int64 × Nat) :=
  let stop := stopOf n.size stop
  if start < stop then
    let best := (n.get m start, start)
    if n.width = 0 then some best
    else some (extremeFrom (n.get m) better (stop - (start + 1)) (start + 1) best)
  else none

def minimum (m : Memory) (n : Node) : Nat → Option Nat → Option (Int64 × Nat) :=
  n.extreme m fun v best => v < best

def maximum (m : Memory) (n : Node) : Nat → Option Nat → Option (Int64 × Nat) :=
  n.extreme m fun v best => v > best

def count (m : Memory) (n : Node) (v : Int64) : Nat :=
  (n.find m .count .equal v 0 none 0 0).1

end ColumnStore.Node
