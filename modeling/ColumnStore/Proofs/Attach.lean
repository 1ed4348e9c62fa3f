import ColumnStore.Proofs.BytesLeaf
import ColumnStore.Proofs.ScalarLeaf
import ColumnStore.Proofs.Verify

set_option autoImplicit false

/-!
An image of a root, attached again: the root is there with everything below it, and a tree that
verified verifies and reads the same.
-/
namespace ColumnStore

namespace Tree

variable {V : Type}

/-- Where the root of a tree that verifies was copied to, a tree of any node size is loaded that
verifies, and its values stand for those of the first one. -/
def ReadsBack (L : Type) [Leaf L V] [ListLeaf L] (alike : V → V → Prop) (m m' : Memory)
    (r r' : Ref) : Prop :=
  ∀ (t : Tree L) (vs : List V) (base : Nat) (own : Set Nat) (maxNodeSize : Nat), t.ref = r →
    (outlined t vs).holds m base own → vs.length < Slot.countBound → t.verify m = true →
      (load m' maxNodeSize r' : Tree L).verify m' = true ∧
        List.Forall₂ alike (t.toList m) ((load m' maxNodeSize r' : Tree L).toList m')

theorem readsBack (L : Type) [Leaf L V] [PortableLeaf L] {m m' : Memory} {base' : Nat} {r r' : Ref}
    (small : base' ≤ Store.addressSpace) (copy : Node.Copies m m' base' r r') :
    ReadsBack L (PortableLeaf.alike L m m' base') m m' r r' := by
  rintro t vs base own maxNodeSize rfl outlined few verifies
  have held := (holds_iff_verify few).mpr ⟨outlined, verifies⟩
  obtain ⟨vs', same, held'⟩ := holds_copy maxNodeSize small held copy
  have few' : vs'.length < Slot.countBound := same.length_eq ▸ few
  refine ⟨verify_of_holds held' few', ?_⟩
  rwa [toList_of_holds held few, toList_of_holds held' few']

end Tree

namespace Node

variable {m : Memory} {r : Ref}

/-- The image of a well-formed node whose parts fit their headers is accepted. The attached root is
a copy of the node, and trees of every kind of leaf read back from it. -/
theorem image_reads_back (settings : StoreSettings) (formed : WellFormed m r)
    (fits : Fits m (load m r)) (small : ((load m r).image m).1.size ≤ Store.addressSpace) :
    ∃ s, Store.ofImage settings ((load m r).image m).1 = .ok (s, ((load m r).image m).2) ∧
      s.memory = ⟨((load m r).image m).1⟩ ∧
      Copies m s.memory s.baseline r ((load m r).image m).2 ∧
      Tree.ReadsBack Node Eq m s.memory r ((load m r).image m).2 ∧
      Tree.ReadsBack (ScalarLeaf Single) Eq m s.memory r ((load m r).image m).2 ∧
      Tree.ReadsBack (ScalarLeaf Double) Eq m s.memory r ((load m r).image m).2 ∧
      Tree.ReadsBack BytesLeaf Eq m s.memory r ((load m r).image m).2 ∧
      Tree.ReadsBack RefLeaf (SlotCopies m s.memory s.baseline) m s.memory r
        ((load m r).image m).2 := by
  obtain ⟨s, accepted, attached, copy⟩ := image_copies settings formed fits small
  have low : s.baseline ≤ Store.addressSpace := attached.baseline ▸ small
  exact ⟨s, accepted, attached.memory, copy, Tree.readsBack _ low copy, Tree.readsBack _ low copy,
    Tree.readsBack _ low copy, Tree.readsBack _ low copy, Tree.readsBack _ low copy⟩

/-- A compact inner node over leaves with two elements and with one. -/
def smallTree : Memory where
  bytes := ⟨#[0, 0, 0, 0, 0, 0, 0, 0,
    0, 0, 16, 0, 196, 0, 0, 4, 5, 24, 40, 7, 0, 0, 0, 0,
    0, 0, 16, 0, 4, 0, 0, 2, 10, 20, 0, 0, 0, 0, 0, 0,
    0, 0, 16, 0, 4, 0, 0, 1, 30, 0, 0, 0, 0, 0, 0, 0]⟩

theorem children_smallTree : (load smallTree 8).children smallTree = [24, 40] := by decide +kernel

theorem childless_smallTree {c : Ref} (child : c ∈ (load smallTree 8).children smallTree) :
    (load smallTree c).hasRefs = false ∧ (load smallTree c).byteSize ≤ Header.maxCapacity := by
  rw [children_smallTree, List.mem_pair] at child
  rcases child with rfl | rfl
  · decide +kernel
  · decide +kernel

theorem wellFormed_smallTree : WellFormed smallTree 8 :=
  .node (fun _ => by decide +kernel) fun _ child => .childless (childless_smallTree child).1

theorem moderate_smallTree : Moderate smallTree 8 :=
  .node (by decide +kernel) (fun _ => by decide +kernel) fun _ child =>
    .childless (childless_smallTree child).1 (childless_smallTree child).2

theorem size_image_smallTree : ((load smallTree 8).image smallTree).1.size = 96 := by
  have slots : (load smallTree 8).toList smallTree = [5, 24, 40, 7] := by decide +kernel
  have parent : (load smallTree 8).hasRefs = true := by decide +kernel
  have first : (load smallTree 24).hasRefs = false := by decide +kernel
  have second : (load smallTree 40).hasRefs = false := by decide +kernel
  have places : Slot.toRef 24 = 24 ∧ Slot.toRef 40 = 40 := by decide
  -- Of the levels that the bound allows only two are there.
  have depth : depthBound smallTree = 54 + 1 + 1 := by decide +kernel
  rw [Node.image, Node.write, depth, writeWithin]
  simp only [parent, slots, writeSlots, writeWithin, first, second, places]
  decide +kernel

theorem outlined_smallTree : (Tree.outlined (⟨.inner (load smallTree 8), 3⟩ : Tree Node)
    [10, 20, 30]).holds smallTree 56 ∅ := by
  have low : 56 ≤ Store.addressSpace := by decide
  have root : Below smallTree 56 8 := ⟨by decide, by decide, by decide +kernel⟩
  have left : Below smallTree 56 24 := ⟨by decide, by decide, by decide +kernel⟩
  have right : Below smallTree 56 40 := ⟨by decide, by decide, by decide +kernel⟩
  have node : (Branch.outline (load smallTree 8) none [24, 40]).holds smallTree 56 ∅ :=
    Branch.holds_outline.mpr ⟨5, 7, by decide, ∅, ∅, by simp, by simp,
      root.packed low (by decide +kernel) (by decide +kernel) (by decide +kernel)
        (by decide +kernel), rfl, by decide⟩
  have first : (Tree.leafHolds Node 24 [10, 20]).holds smallTree 56 ∅ :=
    Tree.holds_leaf.mpr ⟨load smallTree 24, rfl, left.packed low (by decide +kernel)
      (by decide +kernel) (by decide +kernel) (by decide +kernel)⟩
  have second : (Tree.leafHolds Node 40 [30]).holds smallTree 56 ∅ :=
    Tree.holds_leaf.mpr ⟨load smallTree 40, rfl, right.packed low (by decide +kernel)
      (by decide +kernel) (by decide +kernel) (by decide +kernel)⟩
  exact ⟨0, Tree.holds_outlineOver.mpr ⟨none, [(24, [10, 20]), (40, [30])], rfl, ∅, ∅, by simp,
    by simp, node, ∅, ∅, by simp, by simp, first, ∅, ∅, by simp, by simp, second, rfl⟩⟩

theorem image_reads_back_smallTree :
    ∃ s root, Store.ofImage {} ((load smallTree 8).image smallTree).1 = .ok (s, root) ∧
      (Tree.load s.memory 3 root : Tree Node).verify s.memory = true ∧
      (Tree.load s.memory 3 root : Tree Node).toList s.memory = [10, 20, 30] := by
  obtain ⟨s, accepted, -, -, reads, -⟩ := image_reads_back {} wellFormed_smallTree
    (moderate_smallTree.fits _ _) (by rw [size_image_smallTree]; decide)
  obtain ⟨verifies, same⟩ :=
    reads _ _ _ _ 3 rfl outlined_smallTree (by decide) (by decide +kernel)
  rw [List.forall₂_eq_eq_eq] at same
  refine ⟨s, _, accepted, verifies, same.symm.trans ?_⟩
  decide +kernel

end Node

end ColumnStore
