import ColumnStore.Node.Basic
import Mathlib.Data.Fintype.Card

set_option autoImplicit false

/-!
How far down refs lead. Parents at different heights are at different refs, so the height of a
parent is below any bound on the refs of parents.
-/
namespace ColumnStore

/-- Whichever way is taken down from `r`, at most `height` steps lead out of parents. -/
def Height (parent : Ref → Prop) (below : Ref → Ref → Prop) : Nat → Ref → Prop
  | 0, r => ¬ parent r
  | height + 1, r => parent r → ∀ c, below r c → Height parent below height c

namespace Height

variable {parent : Ref → Prop} {below : Ref → Ref → Prop} {height height' : Nat} {r : Ref}

theorem succ (h : Height parent below height r) : Height parent below (height + 1) r := by
  induction height generalizing r with
  | zero => exact fun up => absurd up h
  | succ height ih => exact fun up c step => ih (h up c step)

theorem mono (h : Height parent below height r) (le : height ≤ height') :
    Height parent below height' r := by
  induction le with
  | refl => exact h
  | step _ ih => exact ih.succ

theorem parent_of_not (high : ¬ Height parent below height r) : parent r := by
  cases height with
  | zero => exact Classical.not_not.mp high
  | succ height => exact Classical.byContradiction fun leaf => high fun up => absurd up leaf

/-- Some way down takes `level + 1` steps, and none takes more. -/
def Exact (parent : Ref → Prop) (below : Ref → Ref → Prop) (level : Nat) (r : Ref) : Prop :=
  Height parent below (level + 1) r ∧ ¬ Height parent below level r

theorem Exact.next {level : Nat} (h : Exact parent below (level + 1) r) :
    ∃ c, Exact parent below level c := by
  obtain ⟨within, high⟩ := h
  have up := parent_of_not high
  simp only [Height, up, true_implies, not_forall] at high
  obtain ⟨c, step, high⟩ := high
  exact ⟨c, within up c step, high⟩

theorem Exact.all_below {level level' : Nat} (h : Exact parent below level r) (le : level' ≤ level) :
    ∃ c, Exact parent below level' c := by
  induction level generalizing r with
  | zero =>
      obtain rfl := Nat.le_zero.mp le
      exact ⟨r, h⟩
  | succ level ih =>
      rcases Nat.eq_or_lt_of_le le with rfl | lt
      · exact ⟨r, h⟩
      · obtain ⟨c, next⟩ := h.next
        exact ih next (Nat.le_of_lt_succ lt)

theorem Exact.unique {level level' : Nat} (h : Exact parent below level r)
    (h' : Exact parent below level' r) : level = level' := by
  rcases Nat.lt_trichotomy level level' with lt | same | lt
  · exact absurd (h.1.mono lt) h'.2
  · exact same
  · exact absurd (h'.1.mono lt) h.2

variable {bound : Nat} (inside : ∀ r, parent r → r < bound)
include inside

theorem Exact.lt_bound {level : Nat} (h : Exact parent below level r) : level < bound := by
  -- Some ref stands at each level down to zero, and no ref at two levels.
  choose refs levels using fun i : Fin (level + 1) => h.all_below (Nat.le_of_lt_succ i.isLt)
  have within (i : Fin (level + 1)) : refs i < bound := inside _ (parent_of_not (levels i).2)
  have injective : Function.Injective fun i => (⟨refs i, within i⟩ : Fin bound) := by
    intro i j same
    have same : refs i = refs j := Fin.mk.inj same
    exact Fin.ext ((levels i).unique (same ▸ levels j))
  have := Fintype.card_le_of_injective _ injective
  rwa [Fintype.card_fin, Fintype.card_fin] at this

theorem bounded (h : Height parent below height r) : Height parent below bound r := by
  by_contra high
  have above : bound < height := Nat.lt_of_not_le fun le => high (h.mono le)
  -- Otherwise some ref would be exactly as high as the bound.
  obtain ⟨level, le, here⟩ : ∃ level, bound ≤ level ∧ Exact parent below level r := by
    induction height with
    | zero => cases above
    | succ height ih =>
        by_cases sooner : Height parent below height r
        · exact ih sooner (Nat.lt_of_not_le fun le => high (sooner.mono le))
        · exact ⟨height, Nat.le_of_lt_succ above, h, sooner⟩
  exact absurd (here.lt_bound inside) (Nat.not_lt_of_le le)

end Height

/-- A header with flags is not behind the last byte. -/
theorem Node.lt_size_of_flags {m : Memory} {r : Ref} (some : m.get (r + 4) ≠ 0) :
    r < m.bytes.size := by
  by_contra beyond
  rw [Memory.get, dif_neg fun inside => beyond (Nat.lt_of_le_of_lt (Nat.le_add_right r 4) inside)] at some
  exact some rfl

end ColumnStore
