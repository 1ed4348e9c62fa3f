import ColumnStore.Proofs.Depth

set_option autoImplicit false

/-!
What is read from a tree: its size, its elements through the leaf that holds them, and the check of
its stored numbers.
-/
namespace ColumnStore

namespace Branch

theorem checkChildren_eq {startOf : Nat → Nat} {i sum : Nat} {sizes : List Nat}
    (positive : ∀ a ∈ sizes, 0 < a)
    (starts : ∀ j < sizes.length, startOf (i + j) = sum + start sizes j) :
    checkChildren startOf i sum (sizes.map some) = some (sum + sizes.sum) := by
  induction sizes generalizing i sum with
  | nil => rfl
  | cons a sizes ih =>
      have here := starts 0 (by simp)
      rw [start_zero, Nat.add_zero, Nat.add_zero] at here
      rw [List.map_cons, checkChildren]
      simp only [Option.bind_eq_bind, Option.bind_some]
      rw [if_pos ⟨positive a (by simp), here⟩, ih (fun b inside => positive b (by simp [inside]))]
      · simp [Nat.add_assoc]
      · intro j inside
        have := starts (j + 1) (by simpa using inside)
        rw [start_cons] at this
        rw [Nat.add_assoc, Nat.add_comm 1, this, Nat.add_assoc]

end Branch

namespace Tree

open Branch (inner values sizes isInner childCount child)

variable {L V : Type} [Leaf L V] [ListLeaf L] {m : Memory} {base : Nat} {own : Set Nat}
  {s s' : Store} {R : Assertion} {r : Ref} {vs : List V} {kids : List (Ref × List V)} {n : Node}
  {depth : Nat}

theorem length_le_values {k : Ref × List V} (inside : k ∈ kids) :
    k.2.length ≤ (values kids).length := by
  obtain ⟨before, after, rfl⟩ := List.append_of_mem inside
  simp
  omega

theorem over_depthBound (h : (overKids (treeAt L depth) n vs).holds m base own) :
    ∃ below, Node.depthBound m = below + 1 ∧ (overKids (treeAt L below) n vs).holds m base own := by
  have inner := isInner_over h
  have whole : (tree L n.ref vs).holds m base own :=
    ⟨depth + 1, holds_treeAt_succ.mpr (.inr ⟨n, rfl, h⟩)⟩
  -- No tree is deeper than the memory is long, so the fuel of the reads suffices.
  have bounded := treeAt_depthBound whole
  cases bound : Node.depthBound m with
  | zero =>
      rw [bound] at bounded
      rw [isInner_leaf bounded] at inner
      cases inner
  | succ below =>
      rw [bound] at bounded
      rcases holds_treeAt_succ.mp bounded with leaf | ⟨n', same, h'⟩
      · rw [isInner_leaf leaf] at inner
        cases inner
      · have : n' = n := by rw [← load_over h, ← load_over h', same]
        exact ⟨below, rfl, this ▸ h'⟩

/-- The leaf that holds element `i` is a part of the tree, and the element is at its place in it. -/
theorem leafWithin_over {i : Nat} (h : (overKids (treeAt L depth) n vs).holds m base own)
    (small : vs.length < Slot.countBound) (inside : i < vs.length) :
    ∃ front ws back r own', vs = front ++ ws ++ back ∧ front.length ≤ i ∧
      i < front.length + ws.length ∧ Branch.leafWithin m (depth + 1) n i = (r, i - front.length) ∧
      own' ⊆ own ∧ (leafHolds L r ws).holds m base own' := by
  induction depth using Nat.strong_induction_on generalizing n vs i own with
  | _ depth ih =>
    obtain ⟨o, kids, rfl, some, full, h⟩ := holds_over.mp h
    obtain ⟨x, y, rfl, apart, node, below⟩ := id h
    obtain ⟨before, k, after, rfl, lower, upper⟩ := Branch.exists_kid inside
    have place := Branch.locate_of_inner node rfl full small lower upper
    have here : before.length < (before ++ k :: after).length := by simp
    have at_ref : child m n before.length = k.1 := by
      rw [child_over h here]
      simp
    obtain ⟨own', part, kid⟩ := forest_part (show k ∈ before ++ k :: after by simp) below
    have part := part.trans (Set.subset_union_right (s := x))
    -- The depth of a child may be any smaller one: leaves need not be level.
    rcases treeAt_cases kid with leaf | ⟨depth', n', rfl, same, kid⟩
    · refine ⟨values before, k.2, values after, k.1, own', by simp, lower, upper, ?_, part, leaf⟩
      rw [Branch.leafWithin, Branch.offsets_of_inner node, place]
      simp only [at_ref, isInner_leaf leaf]
      rfl
    · have shorter := Nat.lt_of_le_of_lt (length_le_values (show k ∈ before ++ k :: after by simp)) small
      obtain ⟨front, ws, back, r, own'', parts, lower', upper', found, smaller, leaf⟩ :=
        ih depth' (Nat.lt_succ_self _) kid shorter (show i - (values before).length < k.2.length by omega)
      refine ⟨values before ++ front, ws, back ++ values after, r, own'', ?_, ?_, ?_, ?_,
        smaller.trans part, leaf⟩
      · simp [parts]
      · simp only [List.length_append]
        omega
      · simp only [List.length_append]
        omega
      · have inner := isInner_over kid
        have load := load_over kid
        rw [same] at inner load
        rw [Branch.leafWithin, Branch.offsets_of_inner node, place]
        simp only [at_ref, inner, load, if_true, found, List.length_append]
        congr 1
        omega

theorem checkWithin_over (h : (overKids (treeAt L depth) n vs).holds m base own)
    (small : vs.length < Slot.countBound) :
    Branch.checkWithin m (fun r => Leaf.size (Leaf.load m r : L)) (depth + 1) n =
      some vs.length := by
  induction depth using Nat.strong_induction_on generalizing n vs own with
  | _ depth ih =>
    obtain ⟨o, kids, rfl, some, full, h⟩ := holds_over.mp h
    obtain ⟨x, y, rfl, apart, node, below⟩ := id h
    have count := Branch.childCount_of_inner node
    -- By induction each child reports the number of its values.
    have children : (List.range (childCount n)).map (fun c =>
        if isInner m (child m n c) then
          Branch.checkWithin m (fun r => Leaf.size (Leaf.load m r : L)) depth
            (.load m (child m n c))
        else Option.some (Leaf.size (Leaf.load m (child m n c) : L))) =
        (sizes kids).map Option.some := by
      apply List.ext_getElem (by simp [count])
      intro i _ here
      simp only [List.length_map, Branch.length_sizes] at here
      obtain ⟨own', kid⟩ := forest_mem (List.getElem_mem here) below
      simp only [List.getElem_map, List.getElem_range, child_over h here, sizes]
      rcases treeAt_cases kid with leaf | ⟨depth', n', rfl, same, kid⟩
      · rw [isInner_leaf leaf]
        obtain ⟨l, same, holds⟩ := holds_leaf.mp leaf
        simp [← same, ListLeaf.load holds, ListLeaf.size holds]
      · have inner := isInner_over kid
        have load := load_over kid
        rw [same] at inner load
        have shorter := Nat.lt_of_le_of_lt (length_le_values (List.getElem_mem here)) small
        rw [inner, load, if_pos rfl]
        exact ih depth' (Nat.lt_succ_self _) kid shorter
    have positive := Branch.full_iff_sizes.mp full
    have sum : Branch.checkChildren (Branch.childStart m n o) 0 0 ((sizes kids).map Option.some) =
        Option.some (0 + (sizes kids).sum) := by
      refine Branch.checkChildren_eq positive fun j here => ?_
      rw [Nat.zero_add, Nat.zero_add, Branch.childStart_of_inner node (by simpa using here) small]
    rw [Nat.zero_add, Branch.sum_sizes] at sum
    have many : 1 ≤ kids.length := List.length_pos_iff.mpr some
    rw [count] at children
    simp only [Branch.checkWithin, Branch.offsets_of_inner node, children, sum, count, many,
      Branch.isInner_of_inner node, Branch.total_of_inner node small, Branch.size_of_offsets node,
      Option.bind_eq_bind, Option.bind_some, and_self, if_true]

/-- The tree holds the list `vs`. -/
def holds (t : Tree L) (vs : List V) : Assertion :=
  match t.root with
  | .leaf l => ListLeaf.holds l vs
  | .inner n => .any fun depth => overKids (treeAt L depth) n vs

section Root

variable {t : Tree L} (h : (holds t vs).holds m base own)
include h

theorem leafAt_of_holds {l : L} (root : t.root = .leaf l) :
    (ListLeaf.holds l vs).holds m base own := by
  rwa [holds, root] at h

theorem over_of_holds (root : t.root = .inner n) :
    ∃ below, Node.depthBound m = below + 1 ∧ (overKids (treeAt L below) n vs).holds m base own := by
  rw [holds, root] at h
  obtain ⟨depth, h⟩ := h
  exact over_depthBound h

theorem tree_of_holds : (tree L t.ref vs).holds m base own := by
  cases root : t.root with
  | leaf l =>
      refine ⟨0, holds_leaf.mpr ⟨l, ?_, leafAt_of_holds h root⟩⟩
      rw [Tree.ref, root]
  | inner n =>
      obtain ⟨below, -, h⟩ := over_of_holds h root
      refine ⟨below + 1, holds_treeAt_succ.mpr (.inr ⟨n, ?_, h⟩)⟩
      rw [Tree.ref, root]

/-- The tree that is loaded from the ref of a tree is this tree. -/
theorem load_of_holds : Tree.load m t.maxNodeSize t.ref = t := by
  obtain ⟨root, maxNodeSize⟩ := t
  cases root with
  | leaf l =>
      have leaf := leafAt_of_holds h rfl
      simp only [Tree.load, Tree.ref, Root.load, ListLeaf.outer leaf, ListLeaf.load leaf]
      rfl
  | inner n =>
      obtain ⟨below, -, h⟩ := over_of_holds h rfl
      simp only [Tree.load, Tree.ref, Root.load, isInner_over h, load_over h]
      rfl

theorem size_of_holds (small : vs.length < Slot.countBound) : t.size m = vs.length := by
  cases root : t.root with
  | leaf l =>
      have leaf := leafAt_of_holds h root
      simp only [Tree.size, root, ListLeaf.size leaf]
  | inner n =>
      obtain ⟨below, -, h⟩ := over_of_holds h root
      obtain ⟨o, kids, rfl, -, -, x, y, rfl, -, node, -⟩ := holds_over.mp h
      simp only [Tree.size, root, Branch.total_of_inner node small]

theorem get_of_holds (small : vs.length < Slot.countBound) {i : Nat} (inside : i < vs.length) :
    t.get m i = vs[i] := by
  cases root : t.root with
  | leaf l =>
      have leaf := leafAt_of_holds h root
      simp only [Tree.get, root, ListLeaf.get leaf inside]
  | inner n =>
      obtain ⟨below, bound, h⟩ := over_of_holds h root
      obtain ⟨front, ws, back, r, own', rfl, lower, upper, found, -, leaf⟩ :=
        leafWithin_over h small inside
      obtain ⟨l, rfl, held⟩ := holds_leaf.mp leaf
      have place : i - front.length < ws.length := by omega
      simp only [Tree.get, root, Branch.leafAt, bound, found, ListLeaf.load held]
      rw [ListLeaf.get held place, List.getElem_append_left (by simp; omega),
        List.getElem_append_right lower]

theorem toList_of_holds (small : vs.length < Slot.countBound) : t.toList m = vs := by
  apply List.ext_getElem
  · simp [Tree.toList, size_of_holds h small]
  · intro i _ inside
    simp [Tree.toList, get_of_holds h small inside]

theorem verify_of_holds (small : vs.length < Slot.countBound) : t.verify m = true := by
  cases root : t.root with
  | leaf l => simp only [verify, root]
  | inner n =>
      have size := size_of_holds h small
      obtain ⟨below, bound, h⟩ := over_of_holds h root
      simp only [verify, root, Branch.check, bound, checkWithin_over h small, size, beq_self_eq_true]

end Root

theorem over_of_holds_mul {t : Tree L} (h : s.Holds (holds t vs * R)) (root : t.root = .inner n) :
    ∃ below, Node.depthBound s.memory = below + 1 ∧ s.Holds (overKids (treeAt L below) n vs * R) := by
  obtain ⟨sound, _, owns, x, y, rfl, apart, here, rest⟩ := h
  obtain ⟨below, bound, here⟩ := over_of_holds here root
  exact ⟨below, bound, sound, _, owns, x, y, rfl, apart, here, rest⟩

theorem holds_entails (t : Tree L) (vs : List V) : (holds t vs).Entails (tree L t.ref vs) :=
  fun _ _ _ => tree_of_holds

/-! ### Built trees -/

variable {b : Build} {least : Nat} {t : Tree L}

/-- The tree holds the list `vs` in nodes that are built by the rule, and a root that is an inner
node has at least so many children. -/
def built (b : Build) (least : Nat) (t : Tree L) (vs : List V) : Assertion :=
  match t.root with
  | .leaf l => .fact (b.fits vs.length) * ListLeaf.holds l vs
  | .inner n => .any fun depth => builtOver b least (builtAt b L depth) n vs

theorem built_any : (built .any 0 : Tree L → List V → Assertion) = holds := by
  funext t vs
  rw [built, holds]
  cases t.root with
  | leaf l =>
      apply Assertion.ext_holds
      intro m base own
      exact Assertion.fact_mul.trans (and_iff_right trivial)
  | inner n => simp only [builtAt_any, builtOver_any]

theorem holds_of_built : (built b least t vs).Entails (holds t vs) := by
  intro m base own h
  rw [holds]
  rw [built] at h
  cases root : t.root with
  | leaf l =>
      rw [root] at h
      exact (Assertion.fact_mul.mp h).2
  | inner n =>
      rw [root] at h
      obtain ⟨depth, h⟩ := h
      exact ⟨depth, over_of_built h⟩

theorem built_inner {maxNodeSize : Nat}
    (h : s.Holds (builtOver b least (builtAt b L depth) n vs * R)) :
    s.Holds (built b least (⟨.inner n, maxNodeSize⟩ : Tree L) vs * R) :=
  h.imp_left fun _ _ _ held => ⟨depth, held⟩

theorem leaf_of_built {l : L} (h : s.Holds (built b least t vs * R)) (root : t.root = .leaf l) :
    b.fits vs.length ∧ s.Holds (ListLeaf.holds l vs * R) := by
  rwa [built, root, mul_assoc, Store.holds_fact_mul] at h

theorem over_of_built_mul (h : s.Holds (built b least t vs * R)) (root : t.root = .inner n) :
    ∃ depth < Node.depthBound s.memory,
      s.Holds (builtOver b least (builtAt b L depth) n vs * R) := by
  obtain ⟨sound, _, owns, x, y, rfl, apart, here, rest⟩ := h
  rw [built, root] at here
  obtain ⟨depth, here⟩ := here
  obtain ⟨depth, bound, here⟩ := builtOver_depthBound here
  exact ⟨depth, bound, sound, _, owns, x, y, rfl, apart, here, rest⟩

end Tree

end ColumnStore
