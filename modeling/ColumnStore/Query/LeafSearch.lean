import ColumnStore.Column.Int
import ColumnStore.Column.Scalar

set_option autoImplicit false

/-!
Searches for the first row of a range, leaf by leaf through cursors.
-/
namespace ColumnStore

namespace Cursor

variable {L V : Type} [Leaf L V]

/-- Searches from row `start` on with `find`, which searches a range within a leaf. -/
def findFrom (m : Memory) (t : Tree L) (find : L → Nat → Nat → Option Nat) (stop : Nat) :
    Nat → Nat → Cursor L → Option Nat × Cursor L
  | 0, _, c => (none, c)
  | fuel + 1, start, c =>
      if start < stop then
        let ((leaf, first), c) := c.leafFor m t start
        let next := first + Leaf.size leaf
        match find leaf (start - first) (min next stop - first) with
        | some i => (some (first + i), c)
        | none => findFrom m t find stop fuel next c
      else (none, c)

def findLeafwise (m : Memory) (t : Tree L) (find : L → Nat → Nat → Option Nat) (start stop : Nat)
    (c : Cursor L) : Option Nat × Cursor L :=
  c.findFrom m t find stop (stop - start) start

/-- The first row of a range whose value passes. -/
def findWhere (m : Memory) (t : Tree L) (test : V → Bool) (start stop : Nat) (c : Cursor L) :
    Option Nat × Cursor L :=
  c.findLeafwise m t
    (fun leaf s e => firstWhere (fun i => test (Leaf.get m leaf i)) (e - s) s) start stop

/-- The first row whose integer satisfies a comparison. -/
def findInt (m : Memory) (t : IntColumn) (test : Comparison) (needle : Int64) (start stop : Nat)
    (c : Cursor Node) : Option Nat × Cursor Node :=
  c.findLeafwise m t (fun leaf s e => leaf.findFirst m test needle s (some e)) start stop

/-- The first of `count` rows whose two values pass, row by row. -/
def findPair (m : Memory) (t u : Tree L) (test : V → V → Bool) :
    Nat → Nat → Cursor L × Cursor L → Option Nat × Cursor L × Cursor L
  | 0, _, cursors => (none, cursors)
  | count + 1, row, (c, d) =>
      let (v, c) := c.get m t row
      let (w, d) := d.get m u row
      if test v w then (some row, c, d) else findPair m t u test count (row + 1) (c, d)

/-- The first row where a comparison of two integers holds. Each step compares as many rows as both
leaves have left. -/
def findIntPair (m : Memory) (t u : IntColumn) (test : Comparison) (stop : Nat) :
    Nat → Nat → Cursor Node × Cursor Node → Option Nat × Cursor Node × Cursor Node
  | 0, _, cursors => (none, cursors)
  | fuel + 1, start, (c, d) =>
      if start < stop then
        let ((leaf, first), c) := c.leafFor m t start
        let ((other, second), d) := d.leafFor m u start
        let next := min (min (first + leaf.size) (second + other.size)) stop
        match (leaf.compareFrom m other .first test (start - first) (start - second) start
            (next - start) none).1 with
        | some row => (some row, c, d)
        | none => findIntPair m t u test stop fuel next (c, d)
      else (none, c, d)

end Cursor

end ColumnStore
