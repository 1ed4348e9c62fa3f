import ColumnStore.Proofs.TreeRead
import ColumnStore.Tree.Pieces

set_option autoImplicit false

/-!
Reading while others write. A view is a part of a store that nobody changes; what it shows can be
read from every memory in which it is the same, also through leaves that were remembered from an
earlier one.
-/
namespace ColumnStore

/-- An image, some addresses above it, and what both hold. -/
structure View where
  memory : Memory
  base : Nat
  own : Set Nat

namespace View

variable {w : View} {A R : Assertion} {m : Memory} {own : Set Nat} {s : Store}

/-- The memory holds what the view shows. -/
def Same (w : View) (m : Memory) : Prop := ∀ i, i ∈ w.own ∨ i < w.base → m.get i = w.memory.get i

def Sees (w : View) (A : Assertion) : Prop := ∃ own ⊆ w.own, A.holds w.memory w.base own

/-- All of the view is there. -/
def frame (w : View) : Assertion where
  holds m base own := base = w.base ∧ own = w.own ∧ w.Same m
  stable := by
    rintro m m' _ _ same ⟨rfl, rfl, before⟩
    exact ⟨rfl, rfl, fun i inside => (same i inside).trans (before i inside)⟩

theorem same_self (w : View) : w.Same w.memory := fun _ _ => rfl

theorem same_of_holds (h : s.Holds (w.frame * R)) : w.Same s.memory := by
  obtain ⟨_, -, -, same⟩ := h.reads
  exact same

theorem Sees.holds (sees : w.Sees A) (same : w.Same m) :
    ∃ own ⊆ w.own, A.holds m w.base own := by
  obtain ⟨own, part, h⟩ := sees
  exact ⟨own, part, A.stable (fun i inside => same i (inside.imp_left (part ·))) h⟩

theorem sees_of_holds (same : w.Same m) (part : own ⊆ w.own) (h : A.holds m w.base own) :
    w.Sees A :=
  ⟨own, part, A.stable (fun i inside => (same i (inside.imp_left (part ·))).symm) h⟩

end View

/-- All that is allocated. -/
def Store.view (s : Store) : View where
  memory := s.memory
  base := s.baseline
  own := {i | s.baseline ≤ i ∧ i ∉ s.spare}

theorem Store.view_frame {s : Store} (sound : s.Sound) : s.Holds (s.view.frame * 1) := by
  rw [mul_one]
  refine ⟨sound, s.view.own, ⟨fun _ inside => inside.1, ?_⟩, rfl, rfl, s.view.same_self⟩
  exact Set.disjoint_left.mpr fun _ inside => inside.2

theorem Store.Holds.sees {s : Store} {A R : Assertion} (h : s.Holds (A * R)) : s.view.Sees A := by
  obtain ⟨-, own, owns, here⟩ := h.left
  exact ⟨own, fun i inside => ⟨owns.above i inside, Set.disjoint_left.mp owns.apart inside⟩, here⟩

/-! ### Leaves -/

variable {L V : Type} [Leaf L V] [ListLeaf L]

namespace View

variable {w : View} {vs : List V} {leaf : L} {m : Memory} {first i j : Nat}

/-- The leaf holds the rows from `first` on of a column with the values `vs`. -/
def InLeaf (w : View) (vs : List V) (leaf : L) (first : Nat) : Prop :=
  ∃ ws, w.Sees (ListLeaf.holds leaf ws) ∧ ∀ j < ws.length, vs[first + j]? = ws[j]?

theorem InLeaf.get (inLeaf : w.InLeaf vs leaf first) (same : w.Same m) (inside : j < Leaf.size leaf) :
    vs[first + j]? = some (Leaf.get m leaf j) := by
  obtain ⟨ws, sees, values⟩ := inLeaf
  obtain ⟨own, -, held⟩ := sees.holds same
  rw [ListLeaf.size held] at inside
  rw [values j inside, ListLeaf.get held inside, List.getElem?_eq_getElem inside]

end View

namespace Tree

variable {w : View} {t : Tree L} {vs : List V} {m : Memory} {i : Nat}

theorem leafAt_of_sees (sees : w.Sees (t.holds vs)) (same : w.Same m)
    (small : vs.length < Slot.countBound) (inside : i < vs.length) :
    ∃ leaf first, t.leafAt m i = (leaf, first) ∧ w.InLeaf vs leaf first ∧ first ≤ i ∧
      i < first + Leaf.size leaf := by
  obtain ⟨own, part, h⟩ := sees.holds same
  cases root : t.root with
  | leaf l =>
      have held := leafAt_of_holds h root
      refine ⟨l, 0, ?_, ⟨vs, View.sees_of_holds same part held, fun j _ => by rw [Nat.zero_add]⟩,
        Nat.zero_le i, ?_⟩
      · simp only [leafAt, root, ListLeaf.load held]
      · rwa [Nat.zero_add, ListLeaf.size held]
  | inner n =>
      obtain ⟨below, bound, h⟩ := over_of_holds h root
      obtain ⟨front, ws, back, r, own', rfl, lower, upper, found, smaller, leaf⟩ :=
        leafWithin_over h small inside
      obtain ⟨l, rfl, held⟩ := holds_leaf.mp leaf
      refine ⟨l, front.length, ?_, ⟨ws, View.sees_of_holds same (smaller.trans part) held, ?_⟩,
        lower, ?_⟩
      · simp only [leafAt, root, Branch.leafAt, bound, found, ListLeaf.load held]
        congr 1
        omega
      · intro j here
        rw [List.append_assoc, List.getElem?_append_right (Nat.le_add_right ..),
          Nat.add_sub_cancel_left, List.getElem?_append_left here]
      · rwa [ListLeaf.size held]

theorem get_of_sees (sees : w.Sees (t.holds vs)) (same : w.Same m)
    (small : vs.length < Slot.countBound) (inside : i < vs.length) : vs[i]? = some (t.get m i) := by
  obtain ⟨own, -, h⟩ := sees.holds same
  rw [get_of_holds h small inside, List.getElem?_eq_getElem inside]

end Tree

/-! ### Cursors -/

namespace Cursor

variable {w : View} {t : Tree L} {vs : List V} {m : Memory} {c : Cursor L} {i : Nat}

/-- The leaf that the cursor remembers is one of the column's, at its place. -/
def Valid (w : View) (vs : List V) (c : Cursor L) : Prop :=
  ∀ e ∈ c.cached, w.InLeaf vs e.1 e.2.1 ∧ e.2.2 = e.2.1 + Leaf.size e.1

theorem valid_new (w : View) (vs : List V) : Valid w vs ({} : Cursor L) := fun _ none => nomatch none

section

variable (sees : w.Sees (t.holds vs)) (same : w.Same m) (small : vs.length < Slot.countBound)
include sees same small

theorem leafFor_valid (valid : c.Valid w vs) (inside : i < vs.length) :
    ∃ leaf first c', c.leafFor m t i = ((leaf, first), c') ∧ c'.Valid w vs ∧
      w.InLeaf vs leaf first ∧ first ≤ i ∧ i < first + Leaf.size leaf := by
  have fresh : ∃ leaf first c', ((t.leafAt m i, (⟨some ((t.leafAt m i).1, (t.leafAt m i).2,
      (t.leafAt m i).2 + Leaf.size (t.leafAt m i).1)⟩ : Cursor L)) = ((leaf, first), c')) ∧
      c'.Valid w vs ∧ w.InLeaf vs leaf first ∧ first ≤ i ∧ i < first + Leaf.size leaf := by
    obtain ⟨leaf, first, found, inLeaf, low, high⟩ := Tree.leafAt_of_sees sees same small inside
    refine ⟨leaf, first, _, by rw [found], ?_, inLeaf, low, high⟩
    rintro e ⟨⟩
    exact ⟨inLeaf, rfl⟩
  cases cached : c.cached with
  | none =>
      simp only [leafFor, cached]
      exact fresh
  | some e =>
      obtain ⟨leaf, first, stop⟩ := e
      simp only [leafFor, cached]
      split
      next here =>
        obtain ⟨inLeaf, ends⟩ := valid _ cached
        exact ⟨leaf, first, c, rfl, valid, inLeaf, here.1, ends ▸ here.2⟩
      next => exact fresh

/-- A cursor reads what the column reads. -/
theorem get_valid (valid : c.Valid w vs) (inside : i < vs.length) :
    ∃ v c', c.get m t i = (v, c') ∧ c'.Valid w vs ∧ vs[i]? = some v := by
  obtain ⟨leaf, first, c', found, valid, inLeaf, low, high⟩ :=
    leafFor_valid sees same small valid inside
  refine ⟨_, c', by rw [get, found], valid, ?_⟩
  have value := inLeaf.get same (j := i - first) (by omega)
  rwa [Nat.add_sub_cancel' low] at value

end

end Cursor

end ColumnStore
