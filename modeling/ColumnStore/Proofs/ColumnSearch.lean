import ColumnStore.Column.Bytes
import ColumnStore.Column.Int
import ColumnStore.Proofs.BytesLeaf
import ColumnStore.Proofs.Pieces
import ColumnStore.Proofs.Search

set_option autoImplicit false

/-!
Searches of columns leaf by leaf. They find what a scan of the values finds.
-/
namespace ColumnStore

/-! ### Receivers -/

namespace Receiver

theorem feed_first (told : List (Nat × Int64)) (s : Option Nat) :
    (first.feed told s).1 = ((told.head?.map Prod.fst).or s) := by
  rcases told with - | ⟨⟨i, v⟩, told⟩ <;> rfl

theorem feed_collect (told : List (Nat × Int64)) (found : List Nat) :
    collect.feed told found = ((told.map Prod.fst).reverse ++ found, true) := by
  induction told generalizing found with
  | nil => rfl
  | cons e told ih => exact (ih (e.1 :: found)).trans (by simp)

theorem feed_count (told : List (Nat × Int64)) (k : Nat) :
    count.feed told k = (k + told.length, true) := by
  induction told generalizing k with
  | nil => rfl
  | cons e told ih =>
      refine (ih (k + 1)).trans ?_
      rw [List.length_cons, Nat.add_assoc, Nat.add_comm 1]

theorem declines_first : first.Declines := ⟨fun _ _ _ => rfl, fun _ _ _ => rfl⟩

theorem declines_collect : collect.Declines := ⟨fun _ _ _ => rfl, fun _ _ _ => rfl⟩

theorem bitCount_eq {n : Nat} (w : UInt64) (small : n ≤ 64) :
    bitCount n w = ((List.range n).filter (Search.hasBit w)).length := by
  induction n generalizing w with
  | zero => rfl
  | succ n ih =>
      have rest : (List.range n).filter (Search.hasBit w ∘ Nat.succ) =
          (List.range n).filter (Search.hasBit (w >>> 1)) := by
        apply List.filter_congr
        intro b inside
        have := List.mem_range.mp inside
        rw [Function.comp, Search.hasBit_eq_testBit _ _ (by omega),
          Search.hasBit_eq_testBit _ _ (by omega), UInt64.toNat_shiftRight, Nat.testBit_shiftRight,
          Nat.add_comm]
        rfl
      have low : Search.hasBit w 0 = !decide (w &&& 1 = 0) := by
        rw [Search.hasBit, show UInt64.ofNat 0 = 0 from rfl, UInt64.shiftRight_zero]
        rfl
      rw [bitCount, ih _ (by omega), List.range_succ_eq_map, List.filter_cons, List.filter_map, rest,
        low]
      by_cases zero : w &&& 1 = 0 <;> simp [zero]

theorem faithful_count : count.Faithful where
  batch k i mask k' _ taken told same := by
    cases taken
    rw [feed_count, same, popCount, bitCount_eq mask (Nat.le_refl 64)]
  range k start stop answer _ taken told same := by
    cases taken
    rw [feed_count, same]

end Receiver

/-! ### Pieces -/

theorem firstWhere_eq (test : Nat → Bool) (count i : Nat) :
    firstWhere test count i = (List.range' i count).find? test := by
  induction count generalizing i with
  | zero => rfl
  | succ count ih =>
      rw [firstWhere, List.range'_succ, List.find?_cons, ih]
      cases test i <;> rfl

theorem firstInRange_eq (test : Nat → Bool) (size start : Nat) (stop : Option Nat) :
    firstInRange test size start stop =
      (List.range' start (Node.stopOf size stop - start)).find? test := firstWhere_eq ..

namespace Piece

variable {L V : Type} [Leaf L V] [ListLeaf L] {m : Memory} {base : Nat} {vs : List V} {p : Piece L}

theorem rows_eq_map (p : Piece L) :
    p.rows = (List.range' p.start (p.stop - p.start)).map (p.offset + ·) :=
  (List.map_add_range' ..).symm

theorem Lies.get {i : Nat} (h : p.Lies m base vs) (inside : i < p.stop) :
    vs[p.offset + i]? = some (Leaf.get m p.leaf i) := by
  obtain ⟨ws, own, held, stop, same⟩ := h
  have here := Nat.lt_of_lt_of_le inside stop
  rw [same i here, ListLeaf.get held here, List.getElem?_eq_getElem here]

theorem Lies.any (h : p.Lies m base vs) (test : V → Bool) {i : Nat}
    (inside : i ∈ List.range' p.start (p.stop - p.start)) :
    vs[p.offset + i]?.any test = test (Leaf.get m p.leaf i) := by
  have := List.mem_range'_1.mp inside
  rw [h.get (by omega), Option.any_some]

/-- The values of a piece are read in its leaf. -/
theorem Lies.getD (h : p.Lies m base vs) {i : Nat}
    (inside : i ∈ List.range' p.start (p.stop - p.start)) (d : V) :
    vs.getD (p.offset + i) d = Leaf.get m p.leaf i := by
  have := List.mem_range'_1.mp inside
  rw [List.getD_eq_getElem?_getD, h.get (by omega), Option.getD_some]

theorem Lies.stop_le (h : p.Lies m base vs) : p.stop ≤ Leaf.size p.leaf := by
  obtain ⟨ws, own, held, stop, same⟩ := h
  rwa [ListLeaf.size held]

end Piece

namespace Tree

variable {L V S : Type} [Leaf L V] {ps : List (Piece L)} {q : Nat → Bool}

theorem firstOf_eq {find : L → Nat → Nat → Option Nat}
    (each : ∀ p ∈ ps, find p.leaf p.start p.stop =
      (List.range' p.start (p.stop - p.start)).find? fun i => q (p.offset + i)) :
    firstOf find ps = (ps.flatMap Piece.rows).find? q := by
  induction ps with
  | nil => rfl
  | cons p ps ih =>
      obtain ⟨here, each⟩ := List.forall_mem_cons.mp each
      have moved : (fun i => q (p.offset + i)) = q ∘ (p.offset + ·) := rfl
      rw [List.flatMap_cons, List.find?_append, Piece.rows_eq_map, List.find?_map, ← ih each, firstOf,
        here, moved]
      cases (List.range' p.start (p.stop - p.start)).find? (q ∘ (p.offset + ·)) <;> rfl

theorem walk_eq {r : Receiver S} {step : Piece L → S → S × Bool} {told : Piece L → List (Nat × Int64)}
    (each : ∀ p ∈ ps, ∀ s, step p s = r.feed (told p) s) (s : S) :
    walk step ps s = r.feed (ps.flatMap told) s := by
  induction ps generalizing s with
  | nil => rfl
  | cons p ps ih =>
      obtain ⟨here, each⟩ := List.forall_mem_cons.mp each
      rw [walk, here, List.flatMap_cons, Search.feed_append]
      congr 1
      funext s
      exact ih each s

end Tree

/-! ### Columns -/

/-- The rows of a range whose values pass a test. -/
def rowsIn {V : Type} (vs : List V) (test : V → Bool) (start : Nat) (stop : Option Nat) : List Nat :=
  (List.range' start (Node.stopOf vs.length stop - start)).filter fun row => vs[row]?.any test

section Rows

variable {V W : Type} {vs : List V} {start : Nat} {stop : Option Nat}

theorem ascends_rowsIn (vs : List V) (test : V → Bool) (start : Nat) (stop : Option Nat) :
    (rowsIn vs test start stop).Pairwise (· < ·) := (List.pairwise_lt_range' 1).filter _

theorem mem_rowsIn {test : V → Bool} {row : Nat} : row ∈ rowsIn vs test start stop ↔
    start ≤ row ∧ row < Node.stopOf vs.length stop ∧ vs[row]?.any test := by
  have bounds : start ≤ row ∧ row < start + (Node.stopOf vs.length stop - start) ↔
      start ≤ row ∧ row < Node.stopOf vs.length stop := by omega
  rw [rowsIn, List.mem_filter, List.mem_range'_1, bounds, and_assoc]

theorem rowsIn_congr {test test' : V → Bool} (same : ∀ v ∈ vs, test v = test' v) :
    rowsIn vs test start stop = rowsIn vs test' start stop := by
  refine List.filter_congr fun row _ => ?_
  cases here : vs[row]? with
  | none => rfl
  | some v => exact same v (List.mem_of_getElem? here)

theorem rowsIn_map (f : W → V) (vs : List W) (test : V → Bool) :
    rowsIn (vs.map f) test start stop = rowsIn vs (test ∘ f) start stop := by
  rw [rowsIn, rowsIn, List.length_map]
  simp only [List.getElem?_map, Option.any_map]
  rfl

end Rows

variable {m : Memory} {base : Nat} {own : Set Nat}

namespace BytesColumn

variable {c : BytesColumn} {vs : List ByteArray} (h : (Tree.holds c vs).holds m base own)
  (small : vs.length < Slot.countBound) (v : ByteArray) (start : Nat) (stop : Option Nat)
include h small

theorem findFirst_of_holds : c.findFirst m v start stop = (rowsIn vs (· == v) start stop).head? := by
  obtain ⟨rows, lie⟩ := Tree.pieces_of_holds h small start stop
  rw [BytesColumn.findFirst, Tree.findFirst, rowsIn, List.head?_filter, ← rows]
  refine Tree.firstOf_eq fun p inside => ?_
  have lies := lie p inside
  have whole : Node.stopOf p.leaf.size (some p.stop) = p.stop := Nat.min_eq_left lies.stop_le
  rw [BytesLeaf.findFirst, firstInRange_eq, whole, ← List.head?_filter, ← List.head?_filter]
  exact congrArg List.head? (List.filter_congr fun i here => (lies.any (· == v) here).symm)

theorem findAll_of_holds : c.findAll m v start stop = rowsIn vs (· == v) start stop := by
  obtain ⟨rows, lie⟩ := Tree.pieces_of_holds h small start stop
  rw [BytesColumn.findAll, rowsIn, ← rows, List.filter_flatMap]
  refine List.flatMap_congr fun p inside => ?_
  rw [Piece.rows_eq_map, List.filter_map, List.range_eq_range', List.drop_range', Nat.zero_add,
    Nat.mul_one]
  exact congrArg _ (List.filter_congr fun i here => ((lie p inside).any (· == v) here).symm)

end BytesColumn

namespace IntColumn

variable {c : IntColumn} {vs : List Int64} {S : Type} (h : (Tree.holds c vs).holds m base own)
  (small : vs.length < Slot.countBound)
include h small

/-- A search tells the rows that a scan of the values would tell. -/
theorem find_of_holds (r : Receiver S) (faithful : r.Faithful) (test : Comparison) (needle : Int64)
    (start : Nat) (stop : Option Nat) (s : S) :
    c.find m r test needle start stop s =
      r.feed ((rowsIn vs (test.int · needle) start stop).map fun row => (row, vs.getD row 0)) s := by
  obtain ⟨rows, lie⟩ := Tree.pieces_of_holds h small start stop
  rw [IntColumn.find, rowsIn, ← rows, List.filter_flatMap, List.map_flatMap]
  refine Tree.walk_eq (fun p inside s => ?_) s
  have lies := lie p inside
  have legal : p.leaf.width ∈ Width.legal := by
    obtain ⟨ws, own, held, -⟩ := lies
    exact held.2.1.legal
  have whole : Node.stopOf p.leaf.size (some p.stop) = p.stop := Nat.min_eq_left lies.stop_le
  rw [Node.find, Search.run_tells _ faithful legal, whole, Search.hits, Piece.rows_eq_map,
    List.filter_map, List.map_map]
  refine congrArg (fun told => r.feed told s) ?_
  have tests : (List.range' p.start (p.stop - p.start)).filter
      (p.leaf.search m r test needle p.offset).matching =
        (List.range' p.start (p.stop - p.start)).filter
          ((fun row => vs[row]?.any (test.int · needle)) ∘ (p.offset + ·)) :=
    List.filter_congr fun i here => (lies.any (test.int · needle) here).symm
  rw [tests]
  refine List.map_congr_left fun i here => ?_
  have inside := List.mem_range'_1.mp (List.mem_filter.mp here).1
  have value := lies.get (i := i) (by omega)
  rw [Search.pair, Function.comp, List.getD_eq_getElem?_getD, value, Nat.add_comm]
  rfl

theorem findFirst_of_holds (v : Int64) (start : Nat) (stop : Option Nat) :
    c.findFirst m v start stop = (rowsIn vs (· == v) start stop).head? := by
  rw [IntColumn.findFirst, find_of_holds h small _ Receiver.declines_first.faithful,
    Receiver.feed_first, List.head?_map, Option.map_map, Option.or_none]
  exact Option.map_id'

theorem findAll_of_holds (v : Int64) (start : Nat) (stop : Option Nat) :
    c.findAll m v start stop = rowsIn vs (· == v) start stop := by
  rw [IntColumn.findAll, find_of_holds h small _ Receiver.declines_collect.faithful,
    Receiver.feed_collect, List.append_nil, List.reverse_reverse, List.map_map]
  exact List.map_id _

theorem count_of_holds (v : Int64) : c.count m v = (rowsIn vs (· == v) 0 none).length := by
  rw [IntColumn.count, find_of_holds h small _ Receiver.faithful_count, Receiver.feed_count,
    List.length_map, Nat.zero_add]
  rfl

end IntColumn

end ColumnStore
