import ColumnStore.Proofs.Built
import ColumnStore.Proofs.Height

set_option autoImplicit false

/-!
The depth of a tree is below the size of the memory it is in. Inner nodes at different distances
from the leaves are at different refs, and an inner node is never behind the last byte.
-/
namespace ColumnStore.Tree

open Branch (isInner childCount child inner values)

variable {m : Memory} {r : Ref} {depth : Nat}

/-- The leaves below `r` are at most `depth` levels away. -/
def Grounded (m : Memory) (depth : Nat) (r : Ref) : Prop :=
  Height (isInner m · = true) (fun r c => ∃ i < childCount (.load m r), child m (.load m r) i = c)
    depth r

theorem Grounded.isLeaf (h : Grounded m 0 r) : isInner m r = false :=
  Bool.eq_false_of_not_eq_true h

theorem Grounded.of_children (h : isInner m r = true →
    ∀ i < childCount (.load m r), Grounded m depth (child m (.load m r) i)) :
    Grounded m (depth + 1) r := by
  rintro inner _ ⟨i, inside, rfl⟩
  exact h inner i inside

theorem Grounded.child {i : Nat} (h : Grounded m (depth + 1) r) (inner : isInner m r = true)
    (inside : i < childCount (.load m r)) : Grounded m depth (child m (.load m r) i) :=
  h inner _ ⟨i, inside, rfl⟩

theorem lt_size_of_isInner (h : isInner m r = true) : r < m.bytes.size := by
  apply Node.lt_size_of_flags
  intro none
  simp [isInner, Memory.header, Header.ofFlags, none] at h

theorem Grounded.depthBound (h : Grounded m depth r) : Grounded m (Node.depthBound m) r :=
  Height.bounded (fun _ => lt_size_of_isInner) h

variable {L V : Type} [Leaf L V] [ListLeaf L] {base : Nat} {own : Set Nat} {s : Store}
  {R : Assertion} {vs : List V}

theorem grounded_treeAt (h : (treeAt L depth r vs).holds m base own) : Grounded m depth r := by
  induction depth generalizing r vs own with
  | zero => exact ne_true_of_eq_false (isInner_leaf h)
  | succ depth ih =>
      refine .of_children fun inner => ?_
      rcases holds_treeAt_succ.mp h with h | ⟨n, rfl, tree⟩
      · rw [isInner_leaf h] at inner
        cases inner
      · rw [load_over tree]
        obtain ⟨o, kids, -, -, -, tree⟩ := holds_over.mp tree
        intro i below
        obtain ⟨x, y, rfl, -, node, rest⟩ := id tree
        rw [Branch.childCount_of_inner node] at below
        rw [child_over tree below]
        obtain ⟨_, kid⟩ := forest_mem (List.getElem_mem below) rest
        exact ih kid

variable {b : Build} {depth' : Nat} {n : Node}

/-- The bound on the way down from a node is also one on every child. -/
theorem Grounded.kids {o : Option Node} {kids : List (Ref × List V)}
    (grounded : Grounded m (depth' + 1) n.ref)
    (h : (inner n o kids * forest (builtAt b L depth) kids).holds m base own) :
    ∀ k ∈ kids, Grounded m depth' k.1 := by
  obtain ⟨x, y, rfl, -, node, -⟩ := id h
  have trees := Assertion.holds_mul_mono (fun _ => id)
    (fun _ => forest_mono fun _ _ _ => treeAt_of_built) h
  intro k inside
  obtain ⟨i, here, rfl⟩ := List.getElem_of_mem inside
  have child := grounded.child (i := i) (isInner_inner node)
  rw [load_inner node, Branch.childCount_of_inner node, child_over trees here] at child
  exact child here

theorem depth_le_of_grounded (level : b.level) (h : (builtAt b L depth r vs).holds m base own)
    (grounded : Grounded m depth' r) : depth ≤ depth' := by
  induction depth generalizing depth' r vs own with
  | zero => exact Nat.zero_le _
  | succ depth ih =>
      rcases builtAt_cases h with leaf | ⟨below, n, same, rfl, branch⟩
      · exact absurd ((holds_builtLeaf.mp leaf).1.1 level) (Nat.succ_ne_zero depth)
      · obtain rfl : depth = below := Nat.succ.inj same
        have branch := (holds_builtOver.mp branch).2
        have inner := isInner_over branch
        cases depth' with
        | zero =>
            rw [grounded.isLeaf] at inner
            cases inner
        | succ depth' =>
            obtain ⟨o, kids, -, some, -, trees⟩ := holds_over.mp branch
            -- Any child will do, since all leaves are level.
            obtain ⟨k, inside⟩ := List.exists_mem_of_ne_nil kids some
            have below := grounded.kids trees k inside
            obtain ⟨_, y, -, -, -, trees⟩ := trees
            obtain ⟨_, kid⟩ := forest_mem inside trees
            exact Nat.succ_le_succ (ih kid below)

theorem builtAt_of_grounded (uneven : ¬ b.level) (h : (builtAt b L depth r vs).holds m base own)
    (grounded : Grounded m depth' r) : (builtAt b L depth' r vs).holds m base own := by
  induction depth' generalizing depth r vs own with
  | zero =>
      rcases builtAt_cases h with leaf | ⟨below, n, rfl, rfl, branch⟩
      · obtain ⟨⟨-, fits⟩, leaf⟩ := holds_builtLeaf.mp leaf
        exact holds_builtLeaf.mpr ⟨⟨fun level => absurd level uneven, fits⟩, leaf⟩
      · have leaf := grounded.isLeaf
        rw [isInner_over (holds_builtOver.mp branch).2] at leaf
        cases leaf
  | succ depth' ih =>
      rcases builtAt_cases h with leaf | ⟨below, n, rfl, rfl, branch⟩
      · obtain ⟨⟨-, fits⟩, leaf⟩ := holds_builtLeaf.mp leaf
        exact .inl (holds_builtLeaf.mpr ⟨⟨fun level => absurd level uneven, fits⟩, leaf⟩)
      · obtain ⟨count, branch⟩ := holds_builtOver.mp branch
        obtain ⟨o, kids, whole, some, full, trees⟩ := holds_over.mp branch
        have below := grounded.kids trees
        refine builtAt_of_over rfl (holds_builtOver.mpr ⟨count,
          holds_over.mpr ⟨o, kids, whole, some, full, ?_⟩⟩)
        refine Assertion.holds_mul_mono (fun _ => id) (fun _ => forest_mono ?_) trees
        exact fun k inside own kid => ih kid (below k inside)

/-- No tree is deeper than the memory is long. -/
theorem builtAt_depthBound (h : (builtAt b L depth r vs).holds m base own) :
    ∃ depth ≤ Node.depthBound m, (builtAt b L depth r vs).holds m base own := by
  have grounded := (grounded_treeAt (treeAt_of_built h)).depthBound
  by_cases level : b.level
  · exact ⟨depth, depth_le_of_grounded level h grounded, h⟩
  · exact ⟨_, Nat.le_refl _, builtAt_of_grounded level h grounded⟩

/-- An inner node is one level higher, so that the fuel of the reads suffices below it. -/
theorem builtOver_depthBound {least : Nat}
    (h : (builtOver b least (builtAt b L depth) n vs).holds m base own) :
    ∃ depth < Node.depthBound m, (builtOver b least (builtAt b L depth) n vs).holds m base own := by
  obtain ⟨⟨many, fits⟩, branch⟩ := holds_builtOver.mp h
  have inner := isInner_over branch
  obtain ⟨depth, bounded, tree⟩ := builtAt_depthBound (builtAt_of_over rfl h)
  rcases builtAt_cases tree with leaf | ⟨below, n', rfl, same, tree⟩
  · rw [isInner_leaf (holds_builtLeaf.mp leaf).2] at inner
    cases inner
  · have found := (holds_builtOver.mp tree).2
    obtain rfl : n' = n := by rw [← load_over branch, ← load_over found, same]
    exact ⟨below, bounded, holds_builtOver.mpr ⟨⟨many, fits⟩, found⟩⟩

/-- A tree of some depth. -/
def tree (L : Type) {V : Type} [Leaf L V] [ListLeaf L] (r : Ref) (vs : List V) : Assertion :=
  .any fun depth => treeAt L depth r vs

theorem treeAt_depthBound (h : (tree L r vs).holds m base own) :
    (treeAt L (Node.depthBound m) r vs).holds m base own := by
  obtain ⟨depth, h⟩ := h
  have grounded := (grounded_treeAt h).depthBound
  rw [← builtAt_any] at h ⊢
  exact builtAt_of_grounded id h grounded

end ColumnStore.Tree
