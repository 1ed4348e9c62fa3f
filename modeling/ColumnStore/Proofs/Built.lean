import ColumnStore.Proofs.Tree

set_option autoImplicit false

/-!
Trees whose nodes are built by a rule: at which depth leaves stand, and how large a node may be.
Without a rule these are the trees of any depth.
-/
namespace ColumnStore.Tree

open Branch (Full inner values isInner childCount)

/-- What is asked of the nodes of a tree, whatever its values are. -/
structure Build where
  /-- All leaves are at the same depth. -/
  level : Prop
  /-- The elements that a leaf may have, and the children of an inner node. -/
  fits : Nat → Prop
  fewer {k k' : Nat} : fits k → k' ≤ k → fits k'

namespace Build

/-- A node may grow up to this size. -/
def Admits (b : Build) (maxNodeSize : Nat) : Prop := ∀ k ≤ maxNodeSize, b.fits k

/-- No rule. -/
def any : Build where
  level := False
  fits _ := True
  fewer _ _ := trivial

/-- Leaves at one depth, and nodes of at most this size. -/
def balanced (maxNodeSize : Nat) : Build where
  level := True
  fits k := k ≤ maxNodeSize
  fewer h le := Nat.le_trans le h

theorem admits_any (maxNodeSize : Nat) : any.Admits maxNodeSize := fun _ _ => trivial

theorem admits_balanced (maxNodeSize : Nat) : (balanced maxNodeSize).Admits maxNodeSize :=
  fun _ => id

end Build

variable {L V : Type} [Leaf L V] [ListLeaf L] {b : Build} {m : Memory} {base : Nat}
  {own : Set Nat} {s : Store} {R : Assertion} {r : Ref} {vs : List V} {n : Node}
  {o : Option Node} {kids : List (Ref × List V)} {depth least : Nat}

/-! ### Leaves and inner nodes in a store -/

theorem holds_leaf_mul : s.Holds (leafHolds L r vs * R) ↔
    ∃ l : L, Leaf.ref l = r ∧ s.Holds (ListLeaf.holds l vs * R) := by
  simp only [leafHolds, Store.holds_any_mul, mul_assoc, Store.holds_fact_mul]

theorem holds_over_mul {below : Ref → List V → Assertion} : s.Holds (overKids below n vs * R) ↔
    ∃ o kids, values kids = vs ∧ kids ≠ [] ∧ Full kids ∧
      s.Holds (inner n o kids * (forest below kids * R)) := by
  simp only [overKids, Store.holds_any_mul, mul_assoc, Store.holds_fact_mul, Prod.exists, and_assoc]

/-! ### Built trees -/

def builtLeaf (b : Build) (L : Type) {V : Type} [Leaf L V] [ListLeaf L] (depth : Nat) (r : Ref)
    (vs : List V) : Assertion :=
  .fact ((b.level → depth = 0) ∧ b.fits vs.length) * leafHolds L r vs

/-- An inner node with at least so many children. -/
def builtOver (b : Build) (least : Nat) (below : Ref → List V → Assertion) (n : Node)
    (vs : List V) : Assertion :=
  .fact (least ≤ childCount n ∧ b.fits (childCount n)) * overKids below n vs

def builtAt (b : Build) (L : Type) {V : Type} [Leaf L V] [ListLeaf L] :
    Nat → Ref → List V → Assertion
  | 0, r, vs => builtLeaf b L 0 r vs
  | depth + 1, r, vs => .either (builtLeaf b L (depth + 1) r vs)
      (.any fun n : Node => .fact (n.ref = r) * builtOver b 0 (builtAt b L depth) n vs)

theorem holds_builtLeaf : (builtLeaf b L depth r vs).holds m base own ↔
    ((b.level → depth = 0) ∧ b.fits vs.length) ∧ (leafHolds L r vs).holds m base own :=
  Assertion.fact_mul

theorem holds_builtOver {below : Ref → List V → Assertion} :
    (builtOver b least below n vs).holds m base own ↔
      (least ≤ childCount n ∧ b.fits (childCount n)) ∧ (overKids below n vs).holds m base own :=
  Assertion.fact_mul

theorem builtAt_cases (h : (builtAt b L depth r vs).holds m base own) :
    (builtLeaf b L depth r vs).holds m base own ∨ ∃ below n, depth = below + 1 ∧ n.ref = r ∧
      (builtOver b 0 (builtAt b L below) n vs).holds m base own := by
  cases depth with
  | zero => exact .inl h
  | succ depth =>
      rcases h with h | ⟨n, h⟩
      · exact .inl h
      · obtain ⟨same, h⟩ := Assertion.fact_mul.mp h
        exact .inr ⟨depth, n, rfl, same, h⟩

theorem builtAt_of_leaf (h : (builtLeaf b L depth r vs).holds m base own) :
    (builtAt b L depth r vs).holds m base own := by
  cases depth with
  | zero => exact h
  | succ depth => exact .inl h

theorem builtOver_many {least' : Nat} {below : Ref → List V → Assertion}
    (many : least' ≤ childCount n) :
    (builtOver b least below n vs).Entails (builtOver b least' below n vs) := by
  intro m base own h
  obtain ⟨⟨-, fits⟩, branch⟩ := holds_builtOver.mp h
  exact holds_builtOver.mpr ⟨⟨many, fits⟩, branch⟩

theorem builtAt_of_over (same : n.ref = r)
    (h : (builtOver b least (builtAt b L depth) n vs).holds m base own) :
    (builtAt b L (depth + 1) r vs).holds m base own :=
  .inr ⟨n, Assertion.fact_mul.mpr ⟨same, builtOver_many (Nat.zero_le _) _ _ _ h⟩⟩

theorem overKids_mono {below below' : Ref → List V → Assertion}
    (each : ∀ r vs own, (below r vs).holds m base own → (below' r vs).holds m base own)
    (h : (overKids below n vs).holds m base own) : (overKids below' n vs).holds m base own := by
  obtain ⟨o, kids, whole, some, full, h⟩ := holds_over.mp h
  exact holds_over.mpr ⟨o, kids, whole, some, full,
    Assertion.holds_mul_mono (fun _ => id) (fun _ => forest_mono fun _ _ => each _ _) h⟩

theorem treeAt_of_built (h : (builtAt b L depth r vs).holds m base own) :
    (treeAt L depth r vs).holds m base own := by
  induction depth generalizing r vs own with
  | zero => exact (holds_builtLeaf.mp h).2
  | succ depth ih =>
      rcases builtAt_cases h with leaf | ⟨below, n, same, at_ref, branch⟩
      · exact .inl (holds_builtLeaf.mp leaf).2
      · obtain rfl : depth = below := Nat.succ.inj same
        exact holds_treeAt_succ.mpr
          (.inr ⟨n, at_ref, overKids_mono (fun _ _ _ => ih) (holds_builtOver.mp branch).2⟩)

theorem over_of_built (h : (builtOver b least (builtAt b L depth) n vs).holds m base own) :
    (overKids (treeAt L depth) n vs).holds m base own :=
  overKids_mono (fun _ _ _ => treeAt_of_built) (holds_builtOver.mp h).2

theorem builtLeaf_any : builtLeaf .any L depth r vs = leafHolds L r vs := by
  apply Assertion.ext_holds
  intro m base own
  rw [holds_builtLeaf]
  exact and_iff_right ⟨False.elim, trivial⟩

theorem builtOver_any (below : Ref → List V → Assertion) :
    builtOver .any 0 below = overKids below := by
  funext n vs
  apply Assertion.ext_holds
  intro m base own
  rw [holds_builtOver]
  exact and_iff_right ⟨Nat.zero_le _, trivial⟩

theorem builtAt_any : builtAt .any L = treeAt L := by
  funext depth
  induction depth with
  | zero =>
      funext r vs
      exact builtLeaf_any
  | succ depth ih =>
      funext r vs
      rw [builtAt, treeAt, builtLeaf_any, ih, builtOver_any]

/-! ### Built trees in a store -/

theorem holds_builtLeaf_mul : s.Holds (builtLeaf b L depth r vs * R) ↔
    (b.level → depth = 0) ∧ b.fits vs.length ∧
      ∃ l : L, Leaf.ref l = r ∧ s.Holds (ListLeaf.holds l vs * R) := by
  rw [builtLeaf, mul_assoc, Store.holds_fact_mul, holds_leaf_mul, and_assoc]

theorem holds_builtOver_mul {below : Ref → List V → Assertion} :
    s.Holds (builtOver b least below n vs * R) ↔
      ∃ o kids, values kids = vs ∧ kids ≠ [] ∧ Full kids ∧ least ≤ kids.length ∧
        b.fits kids.length ∧ s.Holds (inner n o kids * (forest below kids * R)) := by
  rw [builtOver, mul_assoc, Store.holds_fact_mul, holds_over_mul]
  constructor
  · rintro ⟨⟨many, fits⟩, o, kids, whole, some, full, h⟩
    obtain ⟨_, node⟩ := h.reads
    rw [Branch.childCount_of_inner node] at many fits
    exact ⟨o, kids, whole, some, full, many, fits, h⟩
  · rintro ⟨o, kids, whole, some, full, many, fits, h⟩
    obtain ⟨_, node⟩ := h.reads
    rw [Branch.childCount_of_inner node]
    exact ⟨⟨many, fits⟩, o, kids, whole, some, full, h⟩

theorem holds_builtAt_mul : s.Holds (builtAt b L depth r vs * R) ↔
    s.Holds (builtLeaf b L depth r vs * R) ∨ ∃ below n, depth = below + 1 ∧ n.ref = r ∧
      s.Holds (builtOver b 0 (builtAt b L below) n vs * R) := by
  cases depth with
  | zero => simp [builtAt]
  | succ depth =>
      simp only [builtAt, Store.holds_either_mul, Store.holds_any_mul, mul_assoc,
        Store.holds_fact_mul, Nat.add_right_cancel_iff, exists_and_left, exists_eq_left']

end ColumnStore.Tree
