import ColumnStore.Node.Basic

set_option autoImplicit false

/-!
Searches in a node whose elements are in ascending order.
-/
namespace ColumnStore

/-- The first place from `lo` below `hi` where `before` fails, if it fails from some place on. -/
def bisect (before : Nat → Bool) (lo hi : Nat) : Nat :=
  if h : lo < hi then
    let mid := lo + (hi - lo) / 2
    if before mid then bisect before (mid + 1) hi else bisect before lo mid
  else lo
termination_by hi - lo
decreasing_by all_goals omega

/-- Doubles the distance from `start` while `before` holds there: a range for `bisect`. -/
def gallop (before : Nat → Bool) (size start distance lo : Nat) : Nat × Nat :=
  if _h : start + distance < size then
    if before (start + distance) then
      gallop before size start (max 1 (2 * distance)) (start + distance + 1)
    else (lo, start + distance)
  else (lo, start + distance)
termination_by size - (start + distance)
decreasing_by omega

namespace Node

/-- How many elements are below `v`. -/
def lowerBound (m : Memory) (n : Node) (v : Int64) : Nat := bisect (fun i => n.get m i < v) 0 n.size

/-- How many elements are at most `v`. -/
def upperBound (m : Memory) (n : Node) (v : Int64) : Nat := bisect (fun i => n.get m i ≤ v) 0 n.size

/-- The first index from `start` on whose element is at least `v`. -/
def findAtLeast (m : Memory) (n : Node) (v : Int64) (start : Nat) : Option Nat :=
  if start < n.size then
    let before := fun i => n.get m i < v
    let (lo, hi) := gallop before n.size start 0 start
    let i := bisect before lo (min hi n.size)
    if i < n.size then some i else none
  else none

end Node

end ColumnStore
