import ColumnStore.Proofs.BranchEdit
import ColumnStore.Proofs.Leaf

set_option autoImplicit false

/-!
Trees as assertions: at a ref there is a leaf, or an inner node over trees of a smaller depth. What
is read from a tree is what the list of its values says.
-/
namespace ColumnStore.Tree

open Branch (Full inner values sizes refs isInner childCount child)

variable {L V : Type} [Leaf L V] [ListLeaf L] {m : Memory} {base : Nat} {own : Set Nat}
  {s s' : Store} {R : Assertion} {r : Ref} {vs : List V} {kids : List (Ref × List V)} {n : Node}
  {depth : Nat}

def leafHolds (L : Type) {V : Type} [Leaf L V] [ListLeaf L] (r : Ref) (vs : List V) : Assertion :=
  .any fun l : L => .fact (Leaf.ref l = r) * ListLeaf.holds l vs

def forest (below : Ref → List V → Assertion) (kids : List (Ref × List V)) : Assertion :=
  (kids.map fun k => below k.1 k.2).prod

def overKids (below : Ref → List V → Assertion) (n : Node) (vs : List V) : Assertion :=
  .any fun p : Option Node × List (Ref × List V) =>
    .fact (values p.2 = vs ∧ p.2 ≠ [] ∧ Full p.2) * (inner n p.1 p.2 * forest below p.2)

def treeAt (L : Type) {V : Type} [Leaf L V] [ListLeaf L] : Nat → Ref → List V → Assertion
  | 0, r, vs => leafHolds L r vs
  | depth + 1, r, vs => .either (leafHolds L r vs)
      (.any fun n : Node => .fact (n.ref = r) * overKids (treeAt L depth) n vs)

@[simp] theorem forest_nil (below : Ref → List V → Assertion) : forest below [] = 1 := rfl

@[simp] theorem forest_cons (below : Ref → List V → Assertion) (k : Ref × List V)
    (kids : List (Ref × List V)) : forest below (k :: kids) = below k.1 k.2 * forest below kids :=
  List.prod_cons

@[simp] theorem forest_append (below : Ref → List V → Assertion) (a b : List (Ref × List V)) :
    forest below (a ++ b) = forest below a * forest below b := by
  simp [forest]

theorem forest_mono {below below' : Ref → List V → Assertion}
    (each : ∀ k ∈ kids, ∀ own, (below k.1 k.2).holds m base own → (below' k.1 k.2).holds m base own)
    (h : (forest below kids).holds m base own) : (forest below' kids).holds m base own := by
  induction kids generalizing own with
  | nil => exact h
  | cons k kids ih =>
      rw [forest_cons] at h ⊢
      exact Assertion.holds_mul_mono (each k (by simp))
        (fun _ => ih fun k' inside => each k' (by simp [inside])) h

theorem forest_part {below : Ref → List V → Assertion} {k : Ref × List V} (inside : k ∈ kids)
    (h : (forest below kids).holds m base own) : ∃ own' ⊆ own, (below k.1 k.2).holds m base own' := by
  induction kids generalizing own with
  | nil => cases inside
  | cons k' kids ih =>
      rw [forest_cons] at h
      obtain ⟨x, y, rfl, -, first, rest⟩ := h
      rcases List.mem_cons.mp inside with rfl | inside
      · exact ⟨x, Set.subset_union_left, first⟩
      · obtain ⟨own', part, here⟩ := ih inside rest
        exact ⟨own', part.trans Set.subset_union_right, here⟩

theorem forest_mem {below : Ref → List V → Assertion} {k : Ref × List V} (inside : k ∈ kids)
    (h : (forest below kids).holds m base own) : ∃ own, (below k.1 k.2).holds m base own := by
  obtain ⟨own', -, here⟩ := forest_part inside h
  exact ⟨own', here⟩

/-! ### Leaves and inner nodes -/

theorem holds_leaf : (leafHolds L r vs).holds m base own ↔
    ∃ l : L, Leaf.ref l = r ∧ (ListLeaf.holds l vs).holds m base own := by
  constructor
  · rintro ⟨l, h⟩
    exact ⟨l, Assertion.fact_mul.mp h⟩
  · rintro ⟨l, h⟩
    exact ⟨l, Assertion.fact_mul.mpr h⟩

theorem holds_over {below : Ref → List V → Assertion} : (overKids below n vs).holds m base own ↔
    ∃ o kids, values kids = vs ∧ kids ≠ [] ∧ Full kids ∧
      (inner n o kids * forest below kids).holds m base own := by
  constructor
  · rintro ⟨⟨o, kids⟩, h⟩
    obtain ⟨⟨whole, some, full⟩, h⟩ := Assertion.fact_mul.mp h
    exact ⟨o, kids, whole, some, full, h⟩
  · rintro ⟨o, kids, whole, some, full, h⟩
    exact ⟨(o, kids), Assertion.fact_mul.mpr ⟨⟨whole, some, full⟩, h⟩⟩

theorem holds_treeAt_succ : (treeAt L (depth + 1) r vs).holds m base own ↔
    (leafHolds L r vs).holds m base own ∨
      ∃ n : Node, n.ref = r ∧ (overKids (treeAt L depth) n vs).holds m base own := by
  constructor
  · rintro (h | ⟨n, h⟩)
    · exact .inl h
    · exact .inr ⟨n, Assertion.fact_mul.mp h⟩
  · rintro (h | ⟨n, h⟩)
    · exact .inl h
    · exact .inr ⟨n, Assertion.fact_mul.mpr h⟩

theorem treeAt_cases (h : (treeAt L depth r vs).holds m base own) :
    (leafHolds L r vs).holds m base own ∨
      ∃ below n, depth = below + 1 ∧ n.ref = r ∧ (overKids (treeAt L below) n vs).holds m base own := by
  cases depth with
  | zero => exact .inl h
  | succ depth =>
      rcases holds_treeAt_succ.mp h with h | ⟨n, same, h⟩
      · exact .inl h
      · exact .inr ⟨depth, n, rfl, same, h⟩

theorem treeAt_of_leaf (depth : Nat) (h : (leafHolds L r vs).holds m base own) :
    (treeAt L depth r vs).holds m base own := by
  cases depth with
  | zero => exact h
  | succ depth => exact .inl h

theorem isInner_leaf (h : (leafHolds L r vs).holds m base own) : isInner m r = false := by
  obtain ⟨l, rfl, leaf⟩ := holds_leaf.mp h
  exact ListLeaf.outer leaf

theorem isInner_inner {o : Option Node} (h : (inner n o kids).holds m base own) :
    isInner m n.ref = true := Branch.isInner_of_outline (Branch.outline_of_inner h)

theorem load_inner {o : Option Node} (h : (inner n o kids).holds m base own) :
    Node.load m n.ref = n := Branch.load_of_outline (Branch.outline_of_inner h)

theorem isInner_over {below : Ref → List V → Assertion} (h : (overKids below n vs).holds m base own) :
    isInner m n.ref = true := by
  obtain ⟨o, kids, -, -, -, x, y, rfl, -, h, -⟩ := holds_over.mp h
  exact isInner_inner h

theorem load_over {below : Ref → List V → Assertion} (h : (overKids below n vs).holds m base own) :
    Node.load m n.ref = n := by
  obtain ⟨o, kids, -, -, -, x, y, rfl, -, h, -⟩ := holds_over.mp h
  exact load_inner h

/-- A tree is at a ref that a slot can hold. -/
theorem ref_treeAt (h : (treeAt L depth r vs).holds m base own) :
    Slot.isRef (Slot.ofRef r) = true ∧ r < Store.addressSpace := by
  have leaf (h : (leafHolds L r vs).holds m base own) :
      Slot.isRef (Slot.ofRef r) = true ∧ r < Store.addressSpace := by
    obtain ⟨l, rfl, leaf⟩ := holds_leaf.mp h
    exact ⟨ListLeaf.isRef leaf, ListLeaf.bound leaf⟩
  cases depth with
  | zero => exact leaf h
  | succ depth =>
      rcases holds_treeAt_succ.mp h with h | ⟨n, rfl, tree⟩
      · exact leaf h
      · obtain ⟨o, kids, -, -, -, x, y, rfl, -, ⟨first, z, w, rfl, -, node, -⟩, -⟩ :=
          holds_over.mp tree
        exact ⟨node.2.1.isRef, node.2.1.bound⟩

theorem child_over {o : Option Node} (h : (inner n o kids * forest (treeAt L depth) kids).holds m base own)
    {i : Nat} (inside : i < kids.length) : child m n i = kids[i].1 := by
  obtain ⟨x, y, rfl, -, node, below⟩ := h
  obtain ⟨_, kid⟩ := forest_mem (List.getElem_mem inside) below
  exact Branch.child_of_inner node inside (ref_treeAt kid).2

end ColumnStore.Tree
