import ColumnStore.Proofs.Store
import Mathlib.Algebra.BigOperators.Group.List.Basic
import Mathlib.Algebra.Group.Defs

set_option autoImplicit false

/-!
Assertions about what a store holds. Their product splits the owned addresses, and whatever edits
one factor leaves the others as they are.
-/
namespace ColumnStore

/-- A statement about a memory, a baseline and the owned addresses. It reads only these addresses
and the image below the baseline. -/
@[ext] structure Assertion where
  holds : Memory → Nat → Set Nat → Prop
  stable : ∀ {m m' : Memory} {base : Nat} {own : Set Nat},
    (∀ i, i ∈ own ∨ i < base → m'.get i = m.get i) → holds m base own → holds m' base own

namespace Assertion

variable {A A' B B' C : Assertion} {α : Type} {m : Memory} {base : Nat} {own : Set Nat}

theorem ext_holds (h : ∀ m base own, A.holds m base own ↔ B.holds m base own) : A = B := by
  ext m base own
  exact h m base own

/-- Both hold, each of addresses of its own. -/
def both (A B : Assertion) : Assertion where
  holds m base own := ∃ x y, own = x ∪ y ∧ Disjoint x y ∧ A.holds m base x ∧ B.holds m base y
  stable same := by
    rintro ⟨x, y, rfl, apart, left, right⟩
    exact ⟨x, y, rfl, apart, A.stable (fun i h => same i (h.imp_left .inl)) left,
      B.stable (fun i h => same i (h.imp_left .inr)) right⟩

def nothing : Assertion where
  holds _ _ own := own = ∅
  stable _ h := h

instance : Mul Assertion := ⟨both⟩

instance : One Assertion := ⟨nothing⟩

theorem holds_mul : (A * B).holds m base own ↔
    ∃ x y, own = x ∪ y ∧ Disjoint x y ∧ A.holds m base x ∧ B.holds m base y := Iff.rfl

theorem holds_one : (1 : Assertion).holds m base own ↔ own = ∅ := Iff.rfl

instance : CommMonoid Assertion where
  mul_assoc A B C := by
    apply ext_holds
    intro m base own
    constructor
    · rintro ⟨_, z, rfl, apart, ⟨x, y, rfl, apart', a, b⟩, c⟩
      rw [Set.disjoint_union_left] at apart
      exact ⟨x, y ∪ z, Set.union_assoc .., Set.disjoint_union_right.mpr ⟨apart', apart.1⟩, a,
        y, z, rfl, apart.2, b, c⟩
    · rintro ⟨x, _, rfl, apart, a, y, z, rfl, apart', b, c⟩
      rw [Set.disjoint_union_right] at apart
      exact ⟨x ∪ y, z, (Set.union_assoc ..).symm, Set.disjoint_union_left.mpr ⟨apart.2, apart'⟩,
        ⟨x, y, rfl, apart.1, a, b⟩, c⟩
  mul_comm A B := by
    apply ext_holds
    intro m base own
    constructor <;> rintro ⟨x, y, rfl, apart, a, b⟩ <;>
      exact ⟨y, x, Set.union_comm .., apart.symm, b, a⟩
  one_mul A := by
    apply ext_holds
    intro m base own
    constructor
    · rintro ⟨_, y, rfl, -, rfl, a⟩
      rwa [Set.empty_union]
    · intro a
      exact ⟨∅, own, (Set.empty_union _).symm, Set.empty_disjoint _, rfl, a⟩
  mul_one A := by
    apply ext_holds
    intro m base own
    constructor
    · rintro ⟨x, _, rfl, -, a, rfl⟩
      rwa [Set.union_empty]
    · intro a
      exact ⟨own, ∅, (Set.union_empty _).symm, Set.disjoint_empty _, a, rfl⟩

/-- A statement that needs no memory. -/
def fact (p : Prop) : Assertion where
  holds _ _ own := own = ∅ ∧ p
  stable _ h := h

/-- The ref is not in the image. -/
def above (r : Ref) : Assertion where
  holds _ base own := own = ∅ ∧ base ≤ r
  stable _ h := h

def any (P : α → Assertion) : Assertion where
  holds m base own := ∃ a, (P a).holds m base own
  stable same := by
    rintro ⟨a, h⟩
    exact ⟨a, (P a).stable same h⟩

def either (A B : Assertion) : Assertion where
  holds m base own := A.holds m base own ∨ B.holds m base own
  stable same h := h.imp (A.stable same) (B.stable same)

/-- Some addresses, whatever they hold. -/
def some : Assertion where
  holds _ _ _ := True
  stable _ h := h

def Entails (A B : Assertion) : Prop := ∀ m base own, A.holds m base own → B.holds m base own

theorem Entails.refl (A : Assertion) : A.Entails A := fun _ _ _ => id

theorem Entails.trans (first : A.Entails B) (second : B.Entails C) : A.Entails C :=
  fun m base own h => second m base own (first m base own h)

theorem holds_mul_mono (left : ∀ own, A.holds m base own → A'.holds m base own)
    (right : ∀ own, B.holds m base own → B'.holds m base own)
    (h : (A * B).holds m base own) : (A' * B').holds m base own := by
  obtain ⟨x, y, rfl, apart, a, b⟩ := h
  exact ⟨x, y, rfl, apart, left _ a, right _ b⟩

theorem Entails.mul (left : A.Entails A') (right : B.Entails B') : (A * B).Entails (A' * B') :=
  fun m base _ => holds_mul_mono (left m base) (right m base)

theorem holds_some : some.holds m base own := trivial

theorem fact_mul {p : Prop} : (fact p * A).holds m base own ↔ p ∧ A.holds m base own := by
  constructor
  · rintro ⟨_, y, rfl, -, ⟨rfl, h⟩, a⟩
    rw [Set.empty_union]
    exact ⟨h, a⟩
  · rintro ⟨h, a⟩
    exact ⟨∅, own, (Set.empty_union _).symm, Set.empty_disjoint _, ⟨rfl, h⟩, a⟩

theorem any_mul {P : α → Assertion} : any P * A = any fun a => P a * A := by
  apply ext_holds
  intro m base own
  constructor
  · rintro ⟨x, y, rfl, apart, ⟨a, h⟩, h'⟩
    exact ⟨a, x, y, rfl, apart, h, h'⟩
  · rintro ⟨a, x, y, rfl, apart, h, h'⟩
    exact ⟨x, y, rfl, apart, ⟨a, h⟩, h'⟩

theorem either_mul : either A B * C = either (A * C) (B * C) := by
  apply ext_holds
  intro m base own
  constructor
  · rintro ⟨x, y, rfl, apart, h | h, h'⟩
    · exact .inl ⟨x, y, rfl, apart, h, h'⟩
    · exact .inr ⟨x, y, rfl, apart, h, h'⟩
  · rintro (⟨x, y, rfl, apart, h, h'⟩ | ⟨x, y, rfl, apart, h, h'⟩)
    · exact ⟨x, y, rfl, apart, .inl h, h'⟩
    · exact ⟨x, y, rfl, apart, .inr h, h'⟩

end Assertion

namespace Store

open Assertion (fact any either)

variable {s s' : Store} {A A' B R : Assertion} {α : Type}

/-- What is allocated in a store, and what it says. -/
def Holds (s : Store) (A : Assertion) : Prop :=
  s.Sound ∧ ∃ own, s.Owns own ∧ A.holds s.memory s.baseline own

/-- A computation turns `A` into `B` wherever it finds it. -/
def Turns (s : Store) (A : Assertion) (s' : Store) (B : Assertion) : Prop :=
  ∀ own, s.Sound → s.Owns own → A.holds s.memory s.baseline own →
    ∃ own', Evolves s own s' own' ∧ B.holds s'.memory s'.baseline own'

namespace Holds

theorem sound (h : s.Holds A) : s.Sound := h.1

theorem mono (h : s.Holds A) (weaker : A.Entails B) : s.Holds B := by
  obtain ⟨sound, own, owns, a⟩ := h
  exact ⟨sound, own, owns, weaker _ _ _ a⟩

theorem of_eq (h : s.Holds A) (same : A = B) : s.Holds B := same ▸ h

theorem swap (h : s.Holds (A * B)) : s.Holds (B * A) := h.of_eq (mul_comm A B)

/-- What is left to nobody stays allocated for good. -/
theorem left (h : s.Holds (A * R)) : s.Holds A := by
  obtain ⟨sound, _, owns, x, y, rfl, -, a, -⟩ := h
  exact ⟨sound, x, (owns_union.mp owns).1, a⟩

theorem right (h : s.Holds (A * R)) : s.Holds R := h.swap.left

theorem reads (h : s.Holds (A * R)) : ∃ own, A.holds s.memory s.baseline own := by
  obtain ⟨-, own, -, a⟩ := h.left
  exact ⟨own, a⟩

theorem imp_left (h : s.Holds (A * R)) (weaker : A.Entails A') : s.Holds (A' * R) :=
  h.mono (weaker.mul (.refl R))

/-- The frame rule: the rest is still there. -/
theorem turn (h : s.Holds (A * R)) (step : Turns s A s' B) : s'.Holds (B * R) := by
  obtain ⟨sound, _, owns, x, y, rfl, apart, a, r⟩ := h
  obtain ⟨mine, others⟩ := owns_union.mp owns
  obtain ⟨x', evolves, b⟩ := step x sound mine a
  have kept : R.holds s'.memory s'.baseline y := by
    rw [evolves.baseline]
    refine R.stable ?_ r
    rintro i (inside | below)
    · exact evolves.same others apart inside
    · exact evolves.image sound mine below
  exact ⟨evolves.sound, x' ∪ y, (evolves.frame others apart).owns, x', y, rfl,
    evolves.apart others apart, b, kept⟩

end Holds

theorem holds_fact_mul {p : Prop} : s.Holds (fact p * A) ↔ p ∧ s.Holds A := by
  simp only [Holds, Assertion.fact_mul]
  constructor
  · rintro ⟨sound, own, owns, h, a⟩
    exact ⟨h, sound, own, owns, a⟩
  · rintro ⟨h, sound, own, owns, a⟩
    exact ⟨sound, own, owns, h, a⟩

theorem holds_above_mul {r : Ref} : s.Holds (.above r * A) ↔ s.baseline ≤ r ∧ s.Holds A := by
  constructor
  · rintro ⟨sound, _, owns, _, y, rfl, -, ⟨rfl, above⟩, a⟩
    rw [Set.empty_union] at owns
    exact ⟨above, sound, y, owns, a⟩
  · rintro ⟨above, sound, own, owns, a⟩
    exact ⟨sound, own, owns, ∅, own, (Set.empty_union _).symm, Set.empty_disjoint _, ⟨rfl, above⟩, a⟩

theorem holds_any {P : α → Assertion} : s.Holds (any P) ↔ ∃ a, s.Holds (P a) := by
  constructor
  · rintro ⟨sound, own, owns, a, h⟩
    exact ⟨a, sound, own, owns, h⟩
  · rintro ⟨a, sound, own, owns, h⟩
    exact ⟨sound, own, owns, a, h⟩

theorem holds_any_mul {P : α → Assertion} : s.Holds (any P * R) ↔ ∃ a, s.Holds (P a * R) := by
  rw [Assertion.any_mul, holds_any]

theorem holds_either_mul : s.Holds (either A B * R) ↔ s.Holds (A * R) ∨ s.Holds (B * R) := by
  rw [Assertion.either_mul]
  constructor
  · rintro ⟨sound, own, owns, h | h⟩
    · exact .inl ⟨sound, own, owns, h⟩
    · exact .inr ⟨sound, own, owns, h⟩
  · rintro (⟨sound, own, owns, h⟩ | ⟨sound, own, owns, h⟩)
    · exact ⟨sound, own, owns, .inl h⟩
    · exact ⟨sound, own, owns, .inr h⟩

theorem holds_one (sound : s.Sound) : s.Holds 1 := ⟨sound, ∅, owns_empty s, rfl⟩

end Store

end ColumnStore
