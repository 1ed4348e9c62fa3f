import ColumnStore.Proofs.TreeClear
import ColumnStore.Proofs.TreeUpdate

set_option autoImplicit false

/-!
Trees with node sizes with which they can grow, and what is appended one after the other.
-/
namespace ColumnStore

open Assertion (fact)

/-- Appending each of some values appends them all, up to a length. -/
theorem Edit.forM_holds {σ β : Type} {A : σ → List β → Assertion} {e : β → Edit σ Unit}
    {bound : Nat}
    (step : ∀ {a a' s s' R vs v}, s.Holds (A a vs * R) → vs.length + 1 < bound →
      e v (a, s) = (.ok (), (a', s')) → s'.Holds (A a' (vs ++ [v]) * R))
    {a a' : σ} {s s' : Store} {R : Assertion} {vs ws : List β} (h : s.Holds (A a vs * R))
    (small : vs.length + ws.length < bound) (run : ws.forM e (a, s) = (.ok (), (a', s'))) :
    s'.Holds (A a' (vs ++ ws) * R) := by
  induction ws generalizing a s vs with
  | nil =>
      obtain ⟨-, same⟩ := Edit.pure_ok.mp run
      cases same
      rwa [List.append_nil]
  | cons w ws ih =>
      rw [List.length_cons] at small
      obtain ⟨_, ⟨a₁, s₁⟩, first, run⟩ := Edit.bind_ok.mp run
      have h := step h (by omega) first
      have h := ih h (by rw [List.length_append, List.length_singleton]; omega) run
      rwa [List.append_assoc, List.singleton_append] at h

namespace Tree

variable {L V : Type} [Leaf L V] {t t' : Tree L} {s s' : Store} {R : Assertion} {vs : List V}
  {v : V} {row : Nat} {m : Memory} {base : Nat} {own : Set Nat}

/-- Nodes are split before the size of one does not fit its header. -/
def Fits (t : Tree L) : Prop := 0 < t.maxNodeSize ∧ t.maxNodeSize < 2 ^ 24 - 2

/-- The tree holds `vs` and can grow. -/
def growing [ListLeaf L] (t : Tree L) (vs : List V) : Assertion := fact t.Fits * holds t vs

section

variable [ListLeaf L]

theorem growing_mul : s.Holds (t.growing vs * R) ↔ t.Fits ∧ s.Holds (holds t vs * R) := by
  rw [growing, mul_assoc, Store.holds_fact_mul]

end

section

variable [EditableLeaf L]

theorem create_growing {maxNodeSize : Nat} (h : s.Holds R) (room : 0 < maxNodeSize)
    (max : maxNodeSize < 2 ^ 24 - 2) (run : create maxNodeSize s = (.ok t, s')) :
    s'.Holds (t.growing [] * R) := by
  obtain ⟨leaf, s₁, created, run⟩ := StoreM.bind_ok.mp run
  obtain ⟨rfl, rfl⟩ := StoreM.pure_ok.mp run
  exact growing_mul.mpr ⟨⟨room, max⟩, EditableLeaf.create h created⟩

variable (h : s.Holds (t.growing vs * R))
include h

theorem insert_growing (inside : row ≤ vs.length) (small : vs.length + 1 < Slot.countBound)
    (run : insert (some row) v (t, s) = (.ok (), (t', s'))) :
    s'.Holds (t'.growing (vs.insertIdx row v) * R) := by
  obtain ⟨fits, h⟩ := growing_mul.mp h
  obtain ⟨kept, h⟩ := insert_holds (i := some row) h inside small fits.1 fits.2 run
  exact growing_mul.mpr ⟨by rwa [Fits, kept], h⟩

theorem add_growing (small : vs.length + 1 < Slot.countBound)
    (run : add v (t, s) = (.ok (), (t', s'))) : s'.Holds (t'.growing (vs ++ [v]) * R) := by
  obtain ⟨fits, h⟩ := growing_mul.mp h
  obtain ⟨kept, h⟩ := insert_holds (i := none) h (Nat.le_refl _) small fits.1 fits.2 run
  rw [Option.getD_none, List.insertIdx_length_self] at h
  exact growing_mul.mpr ⟨by rwa [Fits, kept], h⟩

theorem set_growing (inside : row < vs.length) (small : vs.length < Slot.countBound)
    (run : set row v (t, s) = (.ok (), (t', s'))) : s'.Holds (t'.growing (vs.set row v) * R) := by
  obtain ⟨fits, h⟩ := growing_mul.mp h
  obtain ⟨kept, h⟩ := set_holds h inside small run
  exact growing_mul.mpr ⟨by rwa [Fits, kept], h⟩

end

section

variable [LawfulLeaf L] (h : s.Holds (t.growing vs * R))
include h

theorem erase_growing (inside : row < vs.length) (small : vs.length < Slot.countBound)
    (run : erase (some row) (t, s) = (.ok (), (t', s'))) :
    s'.Holds (t'.growing (vs.eraseIdx row) * R) := by
  obtain ⟨fits, h⟩ := growing_mul.mp h
  obtain ⟨kept, h⟩ := erase_holds (i := some row) h inside small run
  exact growing_mul.mpr ⟨by rwa [Fits, kept], h⟩

theorem clear_growing (run : clear (t, s) = (.ok (), (t', s'))) :
    s'.Holds (t'.growing [] * R) := by
  obtain ⟨fits, h⟩ := growing_mul.mp h
  obtain ⟨kept, h⟩ := clear_holds h run
  exact growing_mul.mpr ⟨by rwa [Fits, kept], h⟩

theorem destroy_growing (run : t.destroy s = (.ok (), s')) : s'.Holds R :=
  destroy_holds (growing_mul.mp h).2 run

end

end Tree

end ColumnStore
