import ColumnStore.Proofs.ColumnSearch
import ColumnStore.Proofs.Turns
import ColumnStore.Proofs.View
import ColumnStore.Query.LeafSearch
import ColumnStore.Query.Operand

set_option autoImplicit false

/-!
Searches leaf by leaf find the first row of a range that passes, whichever leaf the cursor was in
before, and also where two columns are cut into leaves at different rows.
-/
namespace ColumnStore

theorem find?_first (q : Nat → Bool) (start count : Nat) :
    First q start (start + count) ((List.range' start count).find? q) := by
  rw [← firstWhere_eq]
  exact firstWhere_first q count start

namespace Node

variable {m : Memory} {n : Node} {test : Comparison} {needle : Int64} {start stop : Nat}

theorem findFirst_eq (legal : n.width ∈ Width.legal) (start : Nat) (stop : Option Nat) :
    n.findFirst m test needle start stop =
      (List.range' start (stopOf n.size stop - start)).find?
        fun i => test.int (n.get m i) needle := by
  rw [findFirst, find, Search.run_tells _ Receiver.declines_first.faithful legal, Search.hits]
  have fed := Receiver.feed_first (((List.range' start (stopOf n.size stop - start)).filter
    (n.search m .first test needle 0).matching).map (n.search m .first test needle 0).pair) none
  refine fed.trans ?_
  rw [List.head?_map, List.head?_filter, Option.or_none, Option.map_map]
  exact Option.map_id'

theorem findFirst_first (legal : n.width ∈ Width.legal) (lower : start ≤ stop)
    (inside : stop ≤ n.size) :
    First (fun i => test.int (n.get m i) needle) start stop
      (n.findFirst m test needle start (some stop)) := by
  have whole : stopOf n.size (some stop) = stop := Nat.min_eq_left inside
  have first := find?_first (fun i => test.int (n.get m i) needle) start (stop - start)
  rwa [Nat.add_sub_cancel' lower, ← whole, ← findFirst_eq legal, whole] at first

/-- Pairs of elements are compared in order. -/
theorem compareFrom_first {a b : Node} {q : Nat → Bool} {i j base count : Nat}
    (tests : ∀ k < count, q (base + k) = test.int (a.get m (i + k)) (b.get m (j + k))) :
    First q base (base + count) (a.compareFrom m b .first test i j base count none).1 := by
  induction count generalizing i j base with
  | zero => exact .empty (Nat.le_refl _)
  | succ count ih =>
      have here := tests 0 (Nat.succ_pos count)
      rw [Nat.add_zero, Nat.add_zero, Nat.add_zero] at here
      have later : ∀ k < count, q (base + 1 + k) =
          test.int (a.get m (i + 1 + k)) (b.get m (j + 1 + k)) := by
        intro k few
        have := tests (k + 1) (Nat.succ_lt_succ few)
        rwa [Nat.add_comm k, ← Nat.add_assoc, ← Nat.add_assoc, ← Nat.add_assoc] at this
      rw [compareFrom]
      cases passes : test.int (a.get m i) (b.get m j) with
      | true => exact .found (Nat.le_refl _) (by omega) (here.trans passes) fun _ low less => by omega
      | false =>
          have rest := ih later
          rw [Nat.add_right_comm] at rest
          refine rest.extend (Nat.le_succ _) fun row low less => ?_
          rw [Nat.le_antisymm (Nat.le_of_lt_succ less) low, here, passes]

end Node

namespace Cursor

variable {L V : Type} [Leaf L V] [ListLeaf L] {w : View} {t u : Tree L} {vs us : List V}
  {m : Memory} {c d : Cursor L} {start stop fuel : Nat} {q : Nat → Bool}

section

variable (sees : w.Sees (t.holds vs)) (same : w.Same m) (small : vs.length < Slot.countBound)
include sees same small

/-- A search finds the first row if it does so within every leaf. -/
theorem findFrom_first {find : L → Nat → Nat → Option Nat}
    (each : ∀ leaf first, w.InLeaf vs leaf first → ∀ start stop, start ≤ stop →
      stop ≤ Leaf.size leaf → First (fun i => q (first + i)) start stop (find leaf start stop))
    (valid : c.Valid w vs) (inside : stop ≤ vs.length) (fueled : stop - start ≤ fuel) :
    ∃ r c', c.findFrom m t find stop fuel start = (r, c') ∧ c'.Valid w vs ∧ First q start stop r := by
  induction fuel generalizing start c with
  | zero => exact ⟨none, c, rfl, valid, .empty (by omega)⟩
  | succ fuel ih =>
      rw [findFrom]
      split
      next some =>
        obtain ⟨leaf, first, c', found, valid, inLeaf, low, high⟩ :=
          leafFor_valid sees same small valid (Nat.lt_of_lt_of_le some inside)
        have here := (each leaf first inLeaf (start - first)
          (min (first + Leaf.size leaf) stop - first) (by omega) (by omega)).shift
        have last : first + (min (first + Leaf.size leaf) stop - first) =
            min (first + Leaf.size leaf) stop := by omega
        rw [Nat.add_sub_cancel' low, last] at here
        simp only [found]
        cases result : find leaf (start - first) (min (first + Leaf.size leaf) stop - first) with
        | some i =>
            rw [result] at here
            exact ⟨_, c', rfl, valid, here.widen (Nat.min_le_right _ _)⟩
        | none =>
            rw [result] at here
            have fueled : stop - (first + Leaf.size leaf) ≤ fuel := by omega
            obtain ⟨r, c'', run, valid, rest⟩ := ih valid fueled
            exact ⟨r, c'', run, valid, rest.after (Nat.le_of_lt high) here⟩
      next none => exact ⟨_, c, rfl, valid, .empty (Nat.not_lt.mp none)⟩

theorem findWhere_first {test : V → Bool} (valid : c.Valid w vs) (inside : stop ≤ vs.length) :
    ∃ r c', c.findWhere m t test start stop = (r, c') ∧ c'.Valid w vs ∧
      First (fun row => vs[row]?.any test) start stop r := by
  refine findFrom_first sees same small (fun leaf first inLeaf s e lower last => ?_) valid inside
    (Nat.le_refl _)
  have found := firstWhere_first (fun i => test (Leaf.get m leaf i)) (e - s) s
  rw [Nat.add_sub_cancel' lower] at found
  refine found.congr last fun i here => ?_
  rw [inLeaf.get same here, Option.any_some]

theorem getRows_valid {start count : Nat} (valid : c.Valid w vs)
    (inside : start + count ≤ vs.length) : ∃ c',
      c.getRows m t count start = ((vs.drop start).take count, c') ∧ c'.Valid w vs := by
  induction count generalizing start c with
  | zero => exact ⟨c, rfl, valid⟩
  | succ count ih =>
      obtain ⟨v, c', first, valid, value⟩ :=
        get_valid sees same small valid (show start < vs.length by omega)
      obtain ⟨c'', rest, valid⟩ := ih valid (show start + 1 + count ≤ vs.length by omega)
      refine ⟨c'', ?_, valid⟩
      obtain ⟨here, value⟩ := List.getElem?_eq_some_iff.mp value
      rw [getRows, first]
      simp only [rest]
      rw [List.drop_eq_getElem_cons here, List.take_succ_cons, value]

variable (sees' : w.Sees (u.holds us)) (small' : us.length < Slot.countBound)
include sees' small'

theorem findPair_first {test : V → V → Bool} {count : Nat} (valid : c.Valid w vs)
    (valid' : d.Valid w us) (inside : start + count ≤ vs.length)
    (inside' : start + count ≤ us.length) :
    ∃ r c' d', findPair m t u test count start (c, d) = (r, c', d') ∧ c'.Valid w vs ∧
      d'.Valid w us ∧
      First (fun row => vs[row]?.any fun v => us[row]?.any (test v)) start (start + count) r := by
  induction count generalizing start c d with
  | zero => exact ⟨none, c, d, rfl, valid, valid', .empty (Nat.le_refl _)⟩
  | succ count ih =>
      obtain ⟨v, c', first, valid, value⟩ :=
        get_valid sees same small valid (show start < vs.length by omega)
      obtain ⟨x, d', second, valid', value'⟩ :=
        get_valid sees' same small' valid' (show start < us.length by omega)
      have here : (vs[start]?.any fun v => us[start]?.any (test v)) = test v x := by
        rw [value, value', Option.any_some, Option.any_some]
      rw [findPair, first]
      simp only [second]
      cases passes : test v x with
      | true =>
          rw [if_pos rfl]
          exact ⟨_, c', d', rfl, valid, valid',
            .found (Nat.le_refl _) (by omega) (here.trans passes) fun _ low less => by omega⟩
      | false =>
          rw [if_neg Bool.false_ne_true]
          have later : start + 1 + count ≤ vs.length ∧ start + 1 + count ≤ us.length := by omega
          obtain ⟨r, c'', d'', run, valid, valid', rest⟩ := ih valid valid' later.1 later.2
          rw [Nat.add_right_comm] at rest
          refine ⟨r, c'', d'', run, valid, valid', rest.extend (Nat.le_succ _) ?_⟩
          intro row low less
          rw [Nat.le_antisymm (Nat.le_of_lt_succ less) low, here, passes]

end

end Cursor

/-! ### Integers -/

namespace Cursor

variable {w : View} {t u : IntColumn} {vs us : List Int64} {m : Memory} {c d : Cursor Node}
  {start stop fuel : Nat} {test : Comparison} (sees : w.Sees (t.holds vs)) (same : w.Same m)
  (small : vs.length < Slot.countBound)
include sees same small

theorem findInt_first {needle : Int64} (valid : c.Valid w vs) (inside : stop ≤ vs.length) :
    ∃ r c', c.findInt m t test needle start stop = (r, c') ∧ c'.Valid w vs ∧
      First (fun row => vs[row]?.any (test.int · needle)) start stop r := by
  refine findFrom_first sees same small (fun leaf first inLeaf s e lower last => ?_) valid inside
    (Nat.le_refl _)
  obtain ⟨ws, ⟨own, -, held⟩, -⟩ := id inLeaf
  refine (Node.findFirst_first (m := m) held.2.1.legal lower last).congr last fun i here => ?_
  rw [inLeaf.get same here, Option.any_some]
  rfl

/-- Each step compares as many rows as both leaves have left. -/
theorem findIntPair_first (sees' : w.Sees (u.holds us)) (small' : us.length < Slot.countBound)
    (valid : c.Valid w vs) (valid' : d.Valid w us) (inside : stop ≤ vs.length)
    (inside' : stop ≤ us.length) (fueled : stop - start ≤ fuel) :
    ∃ r c' d', findIntPair m t u test stop fuel start (c, d) = (r, c', d') ∧ c'.Valid w vs ∧
      d'.Valid w us ∧
      First (fun row => vs[row]?.any fun v => us[row]?.any (test.int v)) start stop r := by
  induction fuel generalizing start c d with
  | zero => exact ⟨none, c, d, rfl, valid, valid', .empty (by omega)⟩
  | succ fuel ih =>
      rw [findIntPair]
      split
      next some =>
        obtain ⟨leaf, first, c', found, valid, inLeaf, low, high⟩ :=
          leafFor_valid sees same small valid (Nat.lt_of_lt_of_le some inside)
        obtain ⟨other, second, d', found', valid', inLeaf', low', high'⟩ :=
          leafFor_valid sees' same small' valid' (Nat.lt_of_lt_of_le some inside')
        simp only [found, found']
        have high : start < first + leaf.size := high
        have high' : start < second + other.size := high'
        have next : start < min (min (first + leaf.size) (second + other.size)) stop := by omega
        have values : ∀ k < min (min (first + leaf.size) (second + other.size)) stop - start,
            (vs[start + k]?.any fun v => us[start + k]?.any (test.int v)) =
              test.int (leaf.get m (start - first + k)) (other.get m (start - second + k)) := by
          intro k few
          have value := inLeaf.get same (j := start - first + k)
            (show start - first + k < leaf.size by omega)
          have value' := inLeaf'.get same (j := start - second + k)
            (show start - second + k < other.size by omega)
          rw [← Nat.add_assoc, Nat.add_sub_cancel' low] at value
          rw [← Nat.add_assoc, Nat.add_sub_cancel' low'] at value'
          rw [value, value', Option.any_some, Option.any_some]
          rfl
        have here := Node.compareFrom_first (q := fun row => vs[row]?.any fun v =>
          us[row]?.any (test.int v)) values
        rw [Nat.add_sub_cancel' (Nat.le_of_lt next)] at here
        cases result : (leaf.compareFrom m other .first test (start - first) (start - second) start
            (min (min (first + leaf.size) (second + other.size)) stop - start) none).1 with
        | some row =>
            rw [result] at here
            exact ⟨_, c', d', rfl, valid, valid', here.widen (Nat.min_le_right _ _)⟩
        | none =>
            rw [result] at here
            have fueled :
                stop - min (min (first + leaf.size) (second + other.size)) stop ≤ fuel := by omega
            obtain ⟨r, c'', d'', run, valid, valid', rest⟩ := ih valid valid' fueled
            refine ⟨r, c'', d'', run, valid, valid', rest.after (Nat.le_of_lt next) ?_⟩
            rwa [Nat.min_eq_left (Nat.min_le_right _ _)]
      next none => exact ⟨_, c, d, rfl, valid, valid', .empty (Nat.not_lt.mp none)⟩

end Cursor

end ColumnStore
