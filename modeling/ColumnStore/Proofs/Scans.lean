import ColumnStore.Proofs.Aggregate
import ColumnStore.Proofs.Attach
import ColumnStore.Proofs.Sorted
import ColumnStore.Proofs.Visits

set_option autoImplicit false

/-!
Searches and aggregates of a column of integers, whatever the leaves of its tree are: they answer
what their definitions say of the values in a range of rows.
-/
namespace ColumnStore

/-! ### Ranges -/

/-- The rows of a range; without a bound it goes up to the last one. -/
def rangeOf (size start : Nat) (stop : Option Nat) : List Nat :=
  List.range' start (Node.stopOf size stop - start)

/-- The values of a range. -/
def valuesIn (vs : List Int64) (start : Nat) (stop : Option Nat) : List Int64 :=
  (vs.take (Node.stopOf vs.length stop)).drop start

theorem map_rangeOf (vs : List Int64) (start : Nat) (stop : Option Nat) :
    (rangeOf vs.length start stop).map (vs.getD · 0) = valuesIn vs start stop := by
  have below : Node.stopOf vs.length stop ≤ vs.length := Nat.min_le_right _ _
  apply List.ext_getElem
  · simp [rangeOf, valuesIn, Nat.min_eq_left below]
  · intro i inside _
    rw [List.length_map, rangeOf, List.length_range'] at inside
    have here : start + i < vs.length := by omega
    simp [rangeOf, valuesIn, here]

namespace Node

variable {m : Memory} {n : Node}

theorem map_get_rangeOf (start : Nat) (stop : Option Nat) :
    (rangeOf n.size start stop).map (n.get m) = valuesIn (n.toList m) start stop := by
  rw [← map_rangeOf, length_toList]
  refine List.map_congr_left fun i member => ?_
  have below : stopOf n.size stop ≤ n.size := Nat.min_le_right ..
  have inside : i < (n.toList m).length := by
    have := List.mem_range'_1.mp member
    rw [length_toList]
    omega
  rw [List.getD_eq_getElem _ _ inside, getElem_toList inside]

theorem count_eq (legal : n.width ∈ Width.legal) (v : Int64) :
    n.count m v = (n.toList m).count v := by
  have whole : stopOf n.size none - 0 = n.size := Nat.min_self _
  have told : n.find m .count .equal v 0 none 0 0 =
      Receiver.count.feed (n.matching m .equal v 0 (stopOf n.size none) 0) 0 := by
    rw [find, Search.run_tells _ Receiver.faithful_count legal, hits_search]
    rfl
  rw [count, told, Receiver.feed_count, Nat.zero_add, matching, List.length_map, whole,
    ← List.countP_eq_length_filter, ← List.range_eq_range', toList, List.count, List.countP_map]
  rfl

/-- Whatever the width, a range of a node has the sum, the least and the greatest value that its
elements have, and a value is counted as often as it is among them. -/
theorem aggregates_exact (legal : n.width ∈ Width.legal) :
    (∀ start stop, n.sum m start stop = wrappingSum (valuesIn (n.toList m) start stop)) ∧
      (∀ start stop, Extreme (fun v best => v < best) (n.get m) (rangeOf n.size start stop)
        (n.minimum m start stop)) ∧
      (∀ start stop, Extreme (fun v best => v > best) (n.get m) (rangeOf n.size start stop)
        (n.maximum m start stop)) ∧
      ∀ v, n.count m v = (n.toList m).count v := by
  refine ⟨fun start stop => ?_, extreme_eq ranks_less, extreme_eq ranks_greater, count_eq legal⟩
  rw [sum_eq legal, ← map_get_rangeOf, rangeOf]

/-- Twenty nibbles, of which the first sixteen are a word. -/
theorem aggregates_exact_nibbles :
    let m : Memory := ⟨⟨#[0, 0, 0, 0, 0, 0, 0, 0,
      0x21, 0x43, 0x65, 0x87, 0x29, 0x4F, 0x6F, 0x81, 0x23, 0x45]⟩⟩
    let n : Node := ⟨0, false, false, false, .bits, 4, 20, 24⟩
    n.width ∈ Width.legal ∧ n.sum m 0 none = 110 ∧ n.sum m 3 (some 18) = 95 ∧
      n.maximum m 3 (some 18) = some (15, 10) ∧
      FirstBest (fun v best => v > best) (n.get m) (rangeOf n.size 3 (some 18)) (15, 10) ∧
      n.count m 2 = 3 := by
  intro m n
  have legal : n.width ∈ Width.legal := by decide
  obtain ⟨sum, -, maximum, count⟩ := aggregates_exact (m := m) legal
  have found : n.maximum m 3 (some 18) = some (15, 10) := by decide +kernel
  have best := maximum 3 (some 18)
  rw [found] at best
  exact ⟨legal, (sum 0 none).trans (by decide +kernel), (sum 3 (some 18)).trans (by decide +kernel),
    found, best, (count 2).trans (by decide +kernel)⟩

end Node

/-! ### Extremes over pieces -/

namespace Tree

variable {α L V : Type} [Leaf L V] {better : α → α → Bool} {get : Nat → α} {rows : List Nat}
  {ps : List (Piece L)} {acc : Option (α × Nat)} {extreme : L → Nat → Nat → Option (α × Nat)}

/-- An extreme within a leaf, counted in rows of the column. -/
theorem Extreme.shift {offset : Nat} {best : Option (α × Nat)}
    (here : Extreme better (fun i => get (offset + i)) rows best) :
    Extreme better get (rows.map (offset + ·)) (best.map fun b => (b.1, offset + b.2)) := by
  cases best with
  | none => exact List.map_eq_nil_iff.mpr here
  | some b =>
      refine ⟨List.mem_map_of_mem here.inside, here.value, ?_, ?_⟩
      · rw [List.forall_mem_map]
        exact here.best
      · rw [List.forall_mem_map]
        intro row inside before
        exact here.first row inside (Nat.lt_of_add_lt_add_left before)

end Tree

/-! ### Columns of integers -/

namespace IntColumn

variable {m : Memory} {base : Nat} {own : Set Nat} {c : IntColumn} {vs : List Int64}

/-- What is asked of a column is answered from its values alone. -/
structure Scans (m : Memory) (base : Nat) (c : IntColumn) (vs : List Int64) : Prop where
  /-- The leaves in order, each once, with their first rows. -/
  leaves : Tree.Leaves m base (c.leavesFrom m 0) 0 vs ∧ ∀ e ∈ c.leavesFrom m 0, 0 < Leaf.size e.1
  /-- From a row on these are the leaves that have a row there. -/
  leavesFrom : ∀ start, c.leavesFrom m start =
    (c.leavesFrom m 0).filter fun e => start < e.2 + Leaf.size e.1
  find : ∀ {S : Type} (r : Receiver S), r.Faithful → ∀ test needle start stop s,
    c.find m r test needle start stop s =
      r.feed ((rowsIn vs (test.int · needle) start stop).map fun row => (row, vs.getD row 0)) s
  findFirst : ∀ v start stop, c.findFirst m v start stop = (rowsIn vs (· == v) start stop).head?
  findAll : ∀ v start stop, c.findAll m v start stop = rowsIn vs (· == v) start stop
  count : ∀ v, c.count m v = vs.count v
  sum : ∀ start stop, c.sum m start stop = wrappingSum (valuesIn vs start stop)
  minimum : ∀ start stop, Extreme (fun v best => v < best) (vs.getD · 0)
    (rangeOf vs.length start stop) (c.minimum m start stop)
  maximum : ∀ start stop, Extreme (fun v best => v > best) (vs.getD · 0)
    (rangeOf vs.length start stop) (c.maximum m start stop)
  lowerBound : vs.Pairwise (· ≤ ·) → ∀ v, c.lowerBound m v = vs.findIdx (v ≤ ·)
  upperBound : vs.Pairwise (· ≤ ·) → ∀ v, c.upperBound m v = vs.findIdx (v < ·)

section Read

variable (h : (Tree.holds c vs).holds m base own) (small : vs.length < Slot.countBound)
include h small

end Read

end IntColumn

end ColumnStore
