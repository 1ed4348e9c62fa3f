import ColumnStore.Proofs.Binding
import ColumnStore.Proofs.LeafSearch

set_option autoImplicit false

/-!
Cursors into the columns of a view. Whatever leaf a cursor was in before, it reads what the column
reads row by row, and a search through it finds the first row whose value passes.
-/
namespace ColumnStore.Cursor

section

variable {L V : Type} [Leaf L V] [ListLeaf L] {w : View} {t u : Tree L} {m : Memory}
  {c d : Cursor L} {size row start stop count : Nat}

theorem Reads.values (reads : c.Reads w size t) (small : size < Slot.countBound) : ∃ vs,
    w.Sees (t.holds vs) ∧ vs.length = size ∧ c.Valid w vs ∧
      ∀ row < size, vs[row]? = some (t.get w.memory row) := by
  obtain ⟨vs, sees, rfl, valid⟩ := reads
  exact ⟨vs, sees, rfl, valid, fun row inside => Tree.get_of_sees sees w.same_self small inside⟩

variable (reads : c.Reads w size t) (same : w.Same m) (small : size < Slot.countBound)
include reads same small

theorem Reads.leafFor (inside : row < size) : (c.leafFor m t row).2.Reads w size t := by
  obtain ⟨vs, sees, rfl, valid⟩ := reads
  obtain ⟨_, _, c', found, valid, -⟩ := leafFor_valid sees same small valid inside
  rw [found]
  exact ⟨vs, sees, rfl, valid⟩

theorem Reads.get (inside : row < size) :
    (c.get m t row).1 = t.get w.memory row ∧ (c.get m t row).2.Reads w size t := by
  obtain ⟨vs, sees, rfl, valid, value⟩ := reads.values small
  obtain ⟨v, c', got, valid, here⟩ := get_valid sees same small valid inside
  rw [value row inside] at here
  rw [got]
  exact ⟨(Option.some.inj here).symm, vs, sees, rfl, valid⟩

theorem Reads.getRows (inside : start + count ≤ size) :
    (c.getRows m t count start).1 = (List.range' start count).map (t.get w.memory) ∧
      (c.getRows m t count start).2.Reads w size t := by
  obtain ⟨vs, sees, rfl, valid, value⟩ := reads.values small
  obtain ⟨c', got, valid⟩ := getRows_valid sees same small valid inside
  rw [got]
  refine ⟨?_, vs, sees, rfl, valid⟩
  apply List.ext_getElem?
  intro k
  by_cases few : k < count
  · rw [List.getElem?_take_of_lt few, List.getElem?_drop, value (start + k) (by omega)]
    simp [few]
  · rw [List.getElem?_eq_none (by simp; omega), List.getElem?_eq_none (by simp; omega)]

theorem Reads.findWhere (inside : stop ≤ size) (test : V → Bool) :
    (c.findWhere m t test start stop).2.Reads w size t ∧
      First (fun row => test (t.get w.memory row)) start stop
        (c.findWhere m t test start stop).1 := by
  obtain ⟨vs, sees, rfl, valid, value⟩ := reads.values small
  obtain ⟨r, c', run, valid, first⟩ : ∃ r c', c.findWhere m t test start stop = (r, c') ∧ _ :=
    findWhere_first sees same small valid inside
  rw [run]
  refine ⟨⟨vs, sees, rfl, valid⟩, first.congr inside fun row here => ?_⟩
  rw [value row here, Option.any_some]

theorem Reads.findPair (reads' : d.Reads w size u) (inside : stop ≤ size) (test : V → V → Bool) :
    (Cursor.findPair m t u test (stop - start) start (c, d)).2.1.Reads w size t ∧
      (Cursor.findPair m t u test (stop - start) start (c, d)).2.2.Reads w size u ∧
      First (fun row => test (t.get w.memory row) (u.get w.memory row)) start stop
        (Cursor.findPair m t u test (stop - start) start (c, d)).1 := by
  by_cases lower : start ≤ stop
  · obtain ⟨vs, sees, rfl, valid, value⟩ := reads.values small
    obtain ⟨us, sees', length, valid', value'⟩ := reads'.values small
    have last : start + (stop - start) ≤ vs.length := by omega
    obtain ⟨r, c', d', run, valid, valid', first⟩ : ∃ r c' d',
        Cursor.findPair m t u test (stop - start) start (c, d) = (r, c', d') ∧ _ :=
      findPair_first sees same small sees' (length ▸ small) valid valid' last (length ▸ last)
    rw [Nat.add_sub_cancel' lower] at first
    rw [run]
    refine ⟨⟨vs, sees, rfl, valid⟩, ⟨us, sees', length, valid'⟩,
      first.congr inside fun row here => ?_⟩
    rw [value row here, value' row here, Option.any_some, Option.any_some]
  · have none := Nat.le_of_not_le lower
    rw [Nat.sub_eq_zero_of_le none]
    exact ⟨reads, reads', .empty none⟩

end

section

variable {w : View} {t u : IntColumn} {m : Memory} {c d : Cursor Node} {size start stop : Nat}
  (reads : c.Reads w size t) (same : w.Same m) (small : size < Slot.countBound)
include reads same small

theorem Reads.findInt (inside : stop ≤ size) (test : Comparison) (needle : Int64) :
    (c.findInt m t test needle start stop).2.Reads w size t ∧
      First (fun row => test.int (t.get w.memory row) needle) start stop
        (c.findInt m t test needle start stop).1 := by
  obtain ⟨vs, sees, rfl, valid, value⟩ := reads.values small
  obtain ⟨r, c', run, valid, first⟩ : ∃ r c', c.findInt m t test needle start stop = (r, c') ∧ _ :=
    findInt_first sees same small valid inside
  rw [run]
  refine ⟨⟨vs, sees, rfl, valid⟩, first.congr inside fun row here => ?_⟩
  rw [value row here, Option.any_some]

/-- The leaves of the two columns may end at different rows. -/
theorem Reads.findIntPair (reads' : d.Reads w size u) (inside : stop ≤ size) (test : Comparison) :
    (Cursor.findIntPair m t u test stop (stop - start) start (c, d)).2.1.Reads w size t ∧
      (Cursor.findIntPair m t u test stop (stop - start) start (c, d)).2.2.Reads w size u ∧
      First (fun row => test.int (t.get w.memory row) (u.get w.memory row)) start stop
        (Cursor.findIntPair m t u test stop (stop - start) start (c, d)).1 := by
  obtain ⟨vs, sees, rfl, valid, value⟩ := reads.values small
  obtain ⟨us, sees', length, valid', value'⟩ := reads'.values small
  obtain ⟨r, c', d', run, valid, valid', first⟩ : ∃ r c' d',
      Cursor.findIntPair m t u test stop (stop - start) start (c, d) = (r, c', d') ∧ _ :=
    findIntPair_first sees same small sees' (length ▸ small) valid valid' inside (length ▸ inside)
      (Nat.le_refl (stop - start))
  rw [run]
  refine ⟨⟨vs, sees, rfl, valid⟩, ⟨us, sees', length, valid'⟩,
    first.congr inside fun row here => ?_⟩
  rw [value row here, value' row here, Option.any_some, Option.any_some]

end

end ColumnStore.Cursor
