import ColumnStore.Proofs.Image
import ColumnStore.Proofs.Octets
import ColumnStore.Proofs.TreeRead

set_option autoImplicit false

/-!
What holds of a node, a leaf or a tree holds of its copy in an image, where nothing is owned.
-/
namespace ColumnStore

namespace Node

variable {m m' : Memory} {base base' : Nat} {own : Set Nat} {r r' : Ref} {n : Node}
  {vs vs' : List Int64} {role : Role}

/-! ### Nodes -/

theorem Copies.isBelow (h : Copies m m' base r r') : Below m' base r' := by
  cases h <;> assumption

theorem Copies.head (h : Copies m m' base r r') : ∃ width capacity,
    (load m' r').head = { (load m r).head with width, capacity } := by
  cases h with
  | bytes _ _ head _ => exact ⟨_, _, head⟩
  | slots _ _ _ head _ _ _ => exact ⟨_, _, head⟩

theorem Copies.capacity (h : Copies m m' base r r') : (load m' r').byteSize = (load m' r').capacity := by
  rw [byteSize, Node.capacity]
  cases h with
  | bytes _ _ head _ =>
      rw [head]
      rfl
  | slots _ _ packed head _ _ _ =>
      rw [head, Header.byteSize, packed]

/-- The size of a copy is kept in the three bytes of its capacity. -/
theorem Copies.fits (h : Copies m m' base r r') : (load m' r').byteSize ≤ Header.maxCapacity := by
  have whole := whole_byteSize (load m' r')
  have small : (load m' r').capacity < 2 ^ 24 := m'.capacity_header r'
  rw [← h.capacity] at small
  rw [Header.maxCapacity]
  omega

theorem Below.lt_base (below : Below m base r) : r < base :=
  Nat.lt_of_lt_of_le (Nat.lt_add_of_pos_right (Nat.lt_of_lt_of_le (by decide)
    (load m r).length_le_byteSize)) below.inside

theorem Below.stored (below : Below m base r) (small : base ≤ Store.addressSpace)
    (fits : (load m r).byteSize ≤ Header.maxCapacity) : (load m r).Stored m base where
  loaded := rfl
  aligned := below.aligned
  positive := below.positive
  bound := Nat.lt_of_lt_of_le below.lt_base small
  fits := fits
  image _ := below.inside
  room above := absurd below.lt_base (Nat.not_lt_of_le above)
  even above := absurd below.lt_base (Nat.not_lt_of_le above)
  slack above := absurd below.lt_base (Nat.not_lt_of_le above)

theorem Below.region (below : Below m base r) : ∅ = (load m r).region base :=
  (region_image below.lt_base).symm

theorem Below.packed (below : Below m base r) (small : base ≤ Store.addressSpace)
    (fits : (load m r).byteSize ≤ Header.maxCapacity) (layout : (load m r).head.layout = .bits)
    (for_ : (load m r).HasRole role) (list : (load m r).toList m = vs) :
    (packed role (load m r) vs).holds m base ∅ :=
  ⟨below.region, below.stored small fits, layout, for_, list⟩

theorem Copies.lt_base (h : Copies m m' base r r') : r' < base := h.isBelow.lt_base

theorem Copies.stored (h : Copies m m' base r r') (small : base ≤ Store.addressSpace) :
    (load m' r').Stored m' base := h.isBelow.stored small h.fits

theorem Copies.region (h : Copies m m' base r r') : ∅ = (load m' r').region base := h.isBelow.region

theorem HasRole.copy (h : Copies m m' base r r') (for_ : (load m r).HasRole role) :
    (load m' r').HasRole role := by
  obtain ⟨_, _, head⟩ := h.head
  rw [HasRole, head]
  exact for_

theorem Copies.list (h : Copies m m' base r r') (childless : (load m r).hasRefs = false)
    (packed : (load m r).head.layout = .bits) : (load m' r').toList m' = (load m r).toList m := by
  cases h with
  | bytes _ _ head data =>
      exact toList_of_data (m.width_header r) packed (by rw [width, head])
        (by rw [size, head]) data
  | slots _ parent _ _ _ _ _ => exact absurd (childless.symm.trans parent) (by decide)

/-- What the slots of a copy hold. -/
structure SlotCopies (m m' : Memory) (base : Nat) (v v' : Int64) : Prop where
  scalar : Slot.isRef v = false → v' = v
  isRef : Slot.isRef v = true → Slot.isRef v' = true
  copies : Slot.isRef v = true → Copies m m' base (Slot.toRef v) (Slot.toRef v')

theorem Copies.slotCopies (h : Copies m m' base r r') (parent : (load m r).hasRefs = true) :
    List.Forall₂ (SlotCopies m m' base) ((load m r).toList m) ((load m' r').toList m') := by
  obtain ⟨_, _, same⟩ := h.head
  have size : (load m' r').size = (load m r).size := by rw [Node.size, same]
  rw [List.forall₂_iff_get]
  refine ⟨by simp [size], fun i inside _ => ?_⟩
  simp only [toList, List.get_eq_getElem, List.getElem_map, List.getElem_range]
  rw [length_toList] at inside
  cases h with
  | bytes _ childless _ _ => exact absurd (childless.symm.trans parent) (by decide)
  | slots _ _ _ _ scalars places children =>
      exact ⟨scalars i inside, fun isRef => (places i inside isRef).1, children i inside⟩

theorem packed_copy (small : base' ≤ Store.addressSpace) (h : (packed .plain n vs).holds m base own)
    (copy : Copies m m' base' n.ref r') : (packed .plain (load m' r') vs).holds m' base' ∅ := by
  obtain ⟨-, stored, layout, for_, rfl⟩ := h
  rw [← stored.load] at layout for_ ⊢
  obtain ⟨_, _, head⟩ := copy.head
  exact copy.isBelow.packed small copy.fits (by rw [head]; exact layout) (for_.copy copy)
    (copy.list for_.2 layout)

theorem octets_copy {layout : Layout} {width : Nat} {bs : List UInt8}
    (small : base' ≤ Store.addressSpace) (whole : layout ≠ .bits)
    (h : (octets layout width n bs).holds m base own) (copy : Copies m m' base' n.ref r') :
    (octets layout width (load m' r') bs).holds m' base' ∅ := by
  obtain ⟨-, stored, rfl, rfl, for_, rfl⟩ := h
  have load := stored.load
  cases copy with
  | bytes below childless head data =>
      -- Octets never hold refs, so the node was copied byte by byte.
      have copy : Copies m m' base' n.ref r' := .bytes below childless head data
      rw [load] at head
      rw [load] at data
      have size : (Node.load m' r').size = n.size := by rw [Node.size, head]
      refine ⟨copy.region, copy.stored small, by rw [head], by rw [Node.width, head], ?_, ?_⟩
      · rw [HasRole, head]
        exact for_
      · rw [size]
        refine Memory.octets_congr fun k inside => data k ?_
        have := n.dataSize_le
        omega
  | slots _ _ packed _ _ _ _ =>
      rw [load] at packed
      exact absurd packed whole

theorem packed_copy_slots (small : base' ≤ Store.addressSpace) (some : role ≠ .plain)
    (h : (packed role n vs).holds m base own) (copy : Copies m m' base' n.ref r') :
    ∃ vs', List.Forall₂ (SlotCopies m m' base') vs vs' ∧
      (packed role (load m' r') vs').holds m' base' ∅ := by
  obtain ⟨-, stored, layout, for_, rfl⟩ := h
  rw [← stored.load] at layout for_ ⊢
  obtain ⟨_, _, head⟩ := copy.head
  have parent : (load m n.ref).hasRefs = true := for_.2.trans (decide_eq_true some)
  exact ⟨_, copy.slotCopies parent,
    copy.isBelow.packed small copy.fits (by rw [head]; exact layout) (for_.copy copy) rfl⟩

/-- The copies of refs are the refs of copies. -/
theorem copies_refs {refs : List Ref} {rest : List Int64}
    (each : ∀ r ∈ refs, Slot.isRef (Slot.ofRef r) = true ∧ r < Store.addressSpace)
    (h : List.Forall₂ (SlotCopies m m' base) (refs.map Slot.ofRef ++ rest) vs) :
    ∃ refs' rest', vs = refs'.map Slot.ofRef ++ rest' ∧ List.Forall₂ (Copies m m' base) refs refs' ∧
      List.Forall₂ (SlotCopies m m' base) rest rest' := by
  induction refs generalizing vs with
  | nil => exact ⟨[], vs, rfl, .nil, h⟩
  | cons r refs ih =>
      cases h with
      | @cons _ v _ vs first others =>
          obtain ⟨isRef, bound⟩ := each r (by simp)
          obtain ⟨refs', rest', rfl, copies, last⟩ :=
            ih (fun r' inside => each r' (by simp [inside])) others
          refine ⟨Slot.toRef v :: refs', rest', by simp [Slot.ofRef_toRef], .cons ?_ copies, last⟩
          have copy := first.copies isRef
          rwa [Slot.toRef_ofRef bound] at copy

end Node

/-! ### Inner nodes -/

namespace Branch

open Node (packed Copies SlotCopies)

variable {m m' : Memory} {base base' : Nat} {own : Set Nat} {n : Node} {o : Option Node}
  {refs : List Ref} {sizes : List Nat} {total : Nat} {first first' : Int64} {r' : Ref}

theorem head_copy (small : base' ≤ Store.addressSpace) (h : (head first sizes o).holds m base own)
    (slot : SlotCopies m m' base' first first') :
    ∃ o', (head first' sizes o').holds m' base' ∅ := by
  cases o with
  | none =>
      obtain ⟨rfl, scalar, regular⟩ := h
      refine ⟨none, rfl, ?_⟩
      rw [slot.scalar scalar]
      exact ⟨scalar, regular⟩
  | some o =>
      obtain ⟨rfl, ends⟩ := Assertion.fact_mul.mp h
      have copy := slot.copies ends.2.1.isRef
      rw [Slot.toRef_ofRef ends.2.1.bound] at copy
      refine ⟨some (.load m' (Slot.toRef first')), Assertion.fact_mul.mpr ⟨?_, ?_⟩⟩
      · exact (Slot.ofRef_toRef first').symm
      · exact Node.packed_copy small ends copy

theorem form_copy (small : base' ≤ Store.addressSpace)
    (each : ∀ r ∈ refs, Slot.isRef (Slot.ofRef r) = true ∧ r < Store.addressSpace)
    (h : (form n o refs sizes total).holds m base own) (copy : Copies m m' base' n.ref r') :
    ∃ o' refs', List.Forall₂ (Copies m m' base') refs refs' ∧
      (form (.load m' r') o' refs' sizes total).holds m' base' ∅ := by
  obtain ⟨first, x, y, rfl, -, node, head⟩ := h
  obtain ⟨vs, slots, node⟩ := Node.packed_copy_slots small (by decide) node copy
  -- First slot, refs of children, total: the refs go to the copies, the total stays.
  cases slots with
  | @cons _ first' _ vs slot rest =>
      obtain ⟨refs', last, rfl, copies, total'⟩ := Node.copies_refs each rest
      obtain ⟨v, _, unchanged, nothing, rfl⟩ := List.forall₂_cons_left_iff.mp total'
      cases nothing
      rw [unchanged.scalar (Slot.isRef_tag total)] at node
      obtain ⟨o', head⟩ := head_copy small head slot
      exact ⟨o', refs', copies, first', ∅, ∅, by simp, by simp, node, head⟩

end Branch

/-! ### Trees -/

/-- A copy of a leaf is a leaf, and its values stand for the values of the leaf. -/
class PortableLeaf (L : Type) {V : Type} [Leaf L V] extends ListLeaf L where
  /-- What values in two stores have to do with each other. -/
  alike : Memory → Memory → Nat → V → V → Prop
  copy {l : L} {vs : List V} {m m' : Memory} {base base' : Nat} {own : Set Nat} {r' : Ref} :
    base' ≤ Store.addressSpace → (holds l vs).holds m base own →
      Node.Copies m m' base' (Leaf.ref l) r' →
        ∃ l' vs', Leaf.ref l' = r' ∧ List.Forall₂ (alike m m' base') vs vs' ∧
          (holds l' vs').holds m' base' ∅

instance : PortableLeaf Node where
  alike _ _ _ := Eq
  copy {_ vs _ _ _ _ _ r'} small h copy :=
    ⟨.load _ r', vs, rfl, by rw [List.forall₂_eq_eq_eq], Node.packed_copy small h copy⟩

instance : PortableLeaf RefLeaf where
  alike := Node.SlotCopies
  copy {_ _ _ _ _ _ _ r'} small h copy := by
    obtain ⟨vs', slots, node⟩ := Node.packed_copy_slots small (by decide) h copy
    exact ⟨⟨.load _ r'⟩, vs', rfl, slots, node⟩

namespace Tree

open Branch (Full inner values sizes refs)
open Node (Copies)

variable {L V : Type} [Leaf L V] [PortableLeaf L] {m m' : Memory} {base base' : Nat}
  {own : Set Nat} {r r' : Ref} {vs : List V} {kids : List (Ref × List V)} {n : Node} {depth : Nat}

/-- A copy of the tree at a ref is a tree again. -/
def Portable (m m' : Memory) (base' : Nat) (below : Ref → List V → Assertion)
    (alike : V → V → Prop) (k : Ref × List V) : Prop :=
  ∀ r', Copies m m' base' k.1 r' →
    ∃ vs', List.Forall₂ alike k.2 vs' ∧ (below r' vs').holds m' base' ∅

theorem kids_copy {below : Ref → List V → Assertion} {alike : V → V → Prop} {refs' : List Ref}
    (copies : List.Forall₂ (Copies m m' base') (refs kids) refs')
    (each : ∀ k ∈ kids, Portable m m' base' below alike k) :
    ∃ kids', refs kids' = refs' ∧ sizes kids' = sizes kids ∧
      List.Forall₂ alike (values kids) (values kids') ∧ (forest below kids').holds m' base' ∅ := by
  induction kids generalizing refs' with
  | nil =>
      cases copies
      exact ⟨[], rfl, rfl, .nil, rfl⟩
  | cons k kids ih =>
      cases copies with
      | @cons _ r' _ refs' first rest =>
          obtain ⟨vs', same, tree⟩ := each k (by simp) r' first
          obtain ⟨kids', rfl, sizes', others, trees⟩ := ih rest fun k' inside => each k' (by simp [inside])
          refine ⟨(r', vs') :: kids', rfl, ?_, ?_, ∅, ∅, by simp, by simp, tree, trees⟩
          · simp [sizes', same.length_eq]
          · rw [Branch.values_cons, Branch.values_cons]
            exact List.rel_append same others

theorem leaf_copy (small : base' ≤ Store.addressSpace) (h : (leafHolds L r vs).holds m base own)
    (copy : Copies m m' base' r r') : ∃ vs',
      List.Forall₂ (PortableLeaf.alike L m m' base') vs vs' ∧
        (leafHolds L r' vs').holds m' base' ∅ := by
  obtain ⟨l, rfl, leaf⟩ := holds_leaf.mp h
  obtain ⟨l', vs', rfl, same, leaf⟩ := PortableLeaf.copy small leaf copy
  exact ⟨vs', same, holds_leaf.mpr ⟨l', rfl, leaf⟩⟩

theorem over_copy (small : base' ≤ Store.addressSpace)
    (below : ∀ r vs own, (treeAt L depth r vs).holds m base own →
      Portable m m' base' (treeAt L depth) (PortableLeaf.alike L m m' base') (r, vs))
    (h : (overKids (treeAt L depth) n vs).holds m base own) (copy : Copies m m' base' n.ref r') :
    ∃ vs', List.Forall₂ (PortableLeaf.alike L m m' base') vs vs' ∧
      (overKids (treeAt L depth) (.load m' r') vs').holds m' base' ∅ := by
  obtain ⟨o, kids, rfl, some, full, x, y, rfl, -, node, trees⟩ := holds_over.mp h
  have kid (k : Ref × List V) (inside : k ∈ kids) := forest_mem inside trees
  -- The refs of the children are told apart from scalars by what is known of the children.
  have places : ∀ r ∈ refs kids, Slot.isRef (Slot.ofRef r) = true ∧ r < Store.addressSpace := by
    intro r inside
    obtain ⟨k, member, rfl⟩ := List.mem_map.mp inside
    obtain ⟨_, tree⟩ := kid k member
    exact ref_treeAt tree
  obtain ⟨o', refs', copies, node⟩ := Branch.form_copy small places node copy
  obtain ⟨kids', rfl, sizes', same, trees⟩ := kids_copy copies fun k inside => by
    obtain ⟨_, tree⟩ := kid k inside
    exact below k.1 k.2 _ tree
  refine ⟨values kids', same, holds_over.mpr ⟨o', kids', rfl, ?_, ?_, ?_⟩⟩
  · rintro rfl
    exact some (List.map_eq_nil_iff.mp sizes'.symm)
  · rwa [Branch.full_iff_sizes, sizes', ← Branch.full_iff_sizes]
  · refine ⟨∅, ∅, by simp, by simp, ?_, trees⟩
    rwa [← sizes', same.length_eq] at node

theorem treeAt_copy (small : base' ≤ Store.addressSpace)
    (h : (treeAt L depth r vs).holds m base own) :
    Portable m m' base' (treeAt L depth) (PortableLeaf.alike L m m' base') (r, vs) := by
  intro r' copy
  induction depth generalizing r vs own r' with
  | zero => exact leaf_copy small h copy
  | succ depth ih =>
      rcases holds_treeAt_succ.mp h with leaf | ⟨n, rfl, tree⟩
      · obtain ⟨vs', same, leaf⟩ := leaf_copy small leaf copy
        exact ⟨vs', same, .inl leaf⟩
      · obtain ⟨vs', same, tree⟩ := over_copy small (fun r vs own h r' => ih h r') tree copy
        exact ⟨vs', same, holds_treeAt_succ.mpr (.inr ⟨_, rfl, tree⟩)⟩

/-- The tree at the copy of a root holds the values that stand for those of the tree. -/
theorem holds_copy {t : Tree L} (maxNodeSize : Nat) (small : base' ≤ Store.addressSpace)
    (h : (holds t vs).holds m base own) (copy : Copies m m' base' t.ref r') :
    ∃ vs', List.Forall₂ (PortableLeaf.alike L m m' base') vs vs' ∧
      (holds (.load m' maxNodeSize r' : Tree L) vs').holds m' base' ∅ := by
  obtain ⟨root, _⟩ := t
  cases root with
  | leaf l =>
      obtain ⟨l', vs', rfl, same, leaf⟩ := PortableLeaf.copy small (leafAt_of_holds h rfl) copy
      refine ⟨vs', same, ?_⟩
      simp only [holds, Tree.load, Root.load, ListLeaf.outer leaf, ListLeaf.load leaf]
      exact leaf
  | inner n =>
      obtain ⟨depth, -, tree⟩ := over_of_holds h rfl
      obtain ⟨vs', same, tree⟩ := over_copy small (fun r vs own => treeAt_copy small) tree copy
      refine ⟨vs', same, ?_⟩
      have inside : Branch.isInner m' r' = true := isInner_over tree
      simp only [holds, Tree.load, Root.load, inside]
      exact ⟨depth, tree⟩

end Tree

end ColumnStore
