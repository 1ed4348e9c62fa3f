import ColumnStore.Proofs.Attach
import ColumnStore.Proofs.PackedRun
import ColumnStore.Proofs.SparedTree
import ColumnStore.Proofs.TreeRun

set_option autoImplicit false

/-!
Sessions over an attached image. Arrays, blobs, leaves and trees are edited in any order, and edits
may fail half way: the image keeps its bytes, and what it holds is read from it as before.
-/
namespace ColumnStore

open Store (Guards)

/-! ### Actions -/

inductive ArrayAction where
  | edit (op : Node.Op)
  | truncateDeep (size : Nat)
  | destroy
  | destroyDeep

inductive BlobAction where
  | replace (start stop : Nat) (data : ByteArray)
  | insert (i : Nat) (data : ByteArray)
  | add (data : ByteArray)
  | erase (start stop : Nat)
  | truncate (size : Nat)
  | clear
  | destroy

inductive LeafAction (V : Type) where
  | set (i : Nat) (v : V)
  | insert (i : Nat) (v : V)
  | erase (i : Nat)
  | truncate (size : Nat)
  | destroy

inductive TreeAction (V : Type) where
  | set (i : Nat) (v : V)
  | insert (i : Option Nat) (v : V)
  | erase (i : Option Nat)
  | clear
  | destroy

/-- An edit through some accessor, whichever nodes it refers to and whatever it knows of them. -/
inductive AccessorAction where
  | array (n : Node) (action : ArrayAction)
  | blob (b : Blob) (action : BlobAction)
  | leaf {L V : Type} [Leaf L V] [SparingLeaf L] (l : L) (action : LeafAction V)
  | tree {L V : Type} [Leaf L V] [SparingLeaf L] (t : Tree L) (action : TreeAction V)
  | column (c : IntColumn) (op : Tree.AdjustOp)
  | create (role : Node.Role)
  | createBlob
  | createTree (L : Type) {V : Type} [Leaf L V] [SparingLeaf L] (maxNodeSize : Nat)

def ArrayAction.run : ArrayAction → Edit Node Unit
  | edit op => op.run
  | truncateDeep size => Node.truncateDeep size
  | destroy => Node.destroySelf
  | destroyDeep => Node.destroySelfDeep

def BlobAction.run : BlobAction → Edit Blob Unit
  | replace start stop data => Blob.replace start stop data
  | insert i data => Blob.insert i data
  | add data => Blob.add data
  | erase start stop => Blob.erase start stop
  | truncate size => Blob.truncate size
  | clear => Blob.clear
  | destroy => Blob.edit Node.destroySelf

section Leaves

variable {L V : Type} [Leaf L V]

def LeafAction.run : LeafAction V → Edit L Unit
  | set i v => Leaf.set i v
  | insert i v => Leaf.insert i v
  | erase i => Leaf.erase i
  | truncate size => Leaf.truncate size
  | destroy => do Leaf.destroy (← Edit.self)

def TreeAction.run : TreeAction V → Edit (Tree L) Unit
  | set i v => Tree.set i v
  | insert i v => Tree.insert i v
  | erase i => Tree.erase i
  | clear => Tree.clear
  | destroy => do (← Edit.self).destroy

end Leaves

/-- The store after an action, also after one that failed. -/
def AccessorAction.run (s : Store) : AccessorAction → Store
  | array n action => (action.run (n, s)).2.2
  | blob b action => (action.run (b, s)).2.2
  | leaf l action => (action.run (l, s)).2.2
  | tree t action => (action.run (t, s)).2.2
  | column c op => (Tree.OwnOps.run Int64 op (c, s)).2.2
  | create role => (Node.createPacked role s).2
  | createBlob => (Blob.create s).2
  | createTree L maxNodeSize => ((Tree.create maxNodeSize : StoreM (Tree L)) s).2

def Store.after (s : Store) (actions : List AccessorAction) : Store :=
  actions.foldl AccessorAction.run s

/-! ### The image is kept -/

variable {base : Nat} {image : Memory} {s : Store}

theorem Node.Op.run_spares (op : Node.Op) : op.run.Spares (Guards base image) := by
  cases op with
  | add v => exact (Node.add_keeps v).spares
  | insert i v => exact (Node.insert_keeps i v).spares
  | set i v => exact (Node.set_keeps i v).spares
  | erase i => exact Node.erase_spares i
  | eraseRange start stop => exact Node.eraseRange_spares start stop
  | truncate size => exact Node.truncate_spares size
  | clear => exact Node.truncate_spares 0
  | setAllToZero => exact Node.setAllToZero_spares
  | adjust i d => exact Node.adjust_spares i d
  | adjustRange start stop d => exact Node.adjustRange_spares start stop d
  | adjustAtLeast limit d => exact Node.adjustAtLeast_spares limit d
  | ensureWidth v => exact (Node.ensureWidth_keeps v).spares
  | setContext value => exact Node.setContext_spares value
  | copyOnWrite => exact Node.copyOnWrite_keeps.spares

theorem ArrayAction.run_spares (action : ArrayAction) : action.run.Spares (Guards base image) := by
  cases action with
  | edit op => exact op.run_spares
  | truncateDeep size => exact Node.truncateDeep_spares size
  | destroy => exact Node.giveUp_spares Node.destroy_spares
  | destroyDeep => exact Node.giveUp_spares Node.destroyDeep_spares

theorem BlobAction.run_spares (action : BlobAction) : action.run.Spares (Guards base image) := by
  cases action with
  | replace start stop data => exact Blob.replace_spares start stop data
  | insert i data => exact Blob.insert_spares i data
  | add data => exact Blob.add_spares data
  | erase start stop => exact Blob.erase_spares start stop
  | truncate size => exact Blob.truncate_spares size
  | clear => exact Blob.truncate_spares 0
  | destroy => exact (Node.giveUp_spares Node.destroy_spares).focus

section Leaves

variable {L V : Type} [Leaf L V] [SparingLeaf L]

theorem LeafAction.run_spares (action : LeafAction V) :
    (action.run : Edit L Unit).Spares (Guards base image) := by
  cases action with
  | set i v => exact SparingLeaf.set i v
  | insert i v => exact SparingLeaf.insert i v
  | erase i => exact SparingLeaf.erase i
  | truncate size => exact SparingLeaf.truncate size
  | destroy => exact .self_bind fun l _ => (Edit.Spares.lift (SparingLeaf.destroy l)).from_any _

theorem TreeAction.run_spares (action : TreeAction V) :
    (action.run : Edit (Tree L) Unit).Spares (Guards base image) := by
  cases action with
  | set i v => exact Tree.set_spares i v
  | insert i v => exact Tree.insert_spares i v
  | erase i => exact Tree.erase_spares i
  | clear => exact Tree.clear_spares
  | destroy => exact .self_bind fun t _ => (Edit.Spares.lift (Tree.destroy_spares t)).from_any _

theorem Tree.create_spares (maxNodeSize : Nat) :
    (create maxNodeSize : StoreM (Tree L)).Spares (Store.Guards base image) :=
  StoreM.Spares.seq SparingLeaf.create fun _ => .pure trivial

end Leaves

theorem AccessorAction.run_guards (action : AccessorAction) (guards : s.Guards base image) :
    (action.run s).Guards base image := by
  cases action with
  | array n action => exact (action.run_spares (n, s) trivial guards).1
  | blob b action => exact (action.run_spares (b, s) trivial guards).1
  | leaf l action => exact (action.run_spares (l, s) trivial guards).1
  | tree t action => exact (action.run_spares (t, s) trivial guards).1
  | column c op =>
      cases op with
      | adjust i d => exact (IntColumn.adjust_spares i d (c, s) trivial guards).1
      | adjustAll d => exact (IntColumn.adjustAll_spares d (c, s) trivial guards).1
  | create role => exact (Node.createPacked_keeps role s guards).1
  | createBlob => exact (Blob.create_spares s guards).1
  | createTree L maxNodeSize => exact (Tree.create_spares (L := L) maxNodeSize s guards).1

theorem guards_run (guards : s.Guards base image) (actions : List AccessorAction) :
    (s.after actions).Guards base image := by
  induction actions generalizing s with
  | nil => exact guards
  | cons action actions ih => exact ih (action.run_guards guards)

/-! ### What is read from the image -/

theorem toList_of_leaf {L V : Type} [Leaf L V] [ListLeaf L] {l : L} {vs : List V} {m : Memory}
    {own : Set Nat} (h : (ListLeaf.holds l vs).holds m base own) : Leaf.toList m l = vs := by
  rw [Leaf.toList, ListLeaf.size h]
  apply List.ext_getElem (by simp)
  intro i _ inside
  simp [ListLeaf.get h inside]

theorem Tree.holds_load_of_tree {L V : Type} [Leaf L V] [ListLeaf L] {r : Ref} {vs : List V}
    {m : Memory} {own : Set Nat} (maxNodeSize : Nat) (h : (tree L r vs).holds m base own) :
    (holds (load m maxNodeSize r : Tree L) vs).holds m base own := by
  obtain ⟨depth, h⟩ := h
  rcases treeAt_cases h with leaf | ⟨below, n, rfl, rfl, inner⟩
  · obtain ⟨l, rfl, held⟩ := holds_leaf.mp leaf
    simp only [holds, load, Root.load, ListLeaf.outer held, ListLeaf.load held]
    exact held
  · simp only [holds, load, Root.load, isInner_over inner, load_over inner]
    exact ⟨below, inner⟩

section Attached

variable {settings : StoreSettings} {bytes : ByteArray} {root : Ref}
  (valid : Store.ofImage settings bytes = .ok (s, root))
include valid

theorem attached_ofImage : s.baseline = bytes.size ∧ s.slabEnds = [] ∧ s.free = [] ∧
    s.memory = ⟨bytes⟩ := by
  obtain rfl := Store.ofImage_eq valid
  exact ⟨rfl, rfl, rfl, rfl⟩

theorem guards_ofImage : s.Guards bytes.size ⟨bytes⟩ := by
  obtain ⟨baseline, slabs, free, memory⟩ := attached_ofImage valid
  refine ⟨baseline, ?_, ?_, ?_⟩
  · rw [free]
    exact List.forall_mem_nil _
  · rw [Store.slabEnd, slabs, baseline]
    exact Nat.le_refl _
  · rw [memory]
    exact .none

/-- No action writes below the end of the image. -/
theorem writes_above_image (actions : List AccessorAction) :
    Memory.WritesFrom bytes.size ⟨bytes⟩ (s.after actions).memory :=
  (guards_run (guards_ofImage valid) actions).writes

/-- What the image holds by itself it holds after any actions. -/
theorem image_still_holds (actions : List AccessorAction) {A : Assertion}
    (held : A.holds ⟨bytes⟩ bytes.size ∅) :
    A.holds (s.after actions).memory bytes.size ∅ := by
  refine A.stable (fun i inside => ?_) held
  rcases inside with none | below
  · exact absurd none (Set.notMem_empty i)
  · exact (writes_above_image valid actions).get below

theorem array_still_reads (actions : List AccessorAction) {role : Node.Role} {r : Ref}
    {vs : List Int64}
    (held : (Node.packed role (.load ⟨bytes⟩ r) vs).holds ⟨bytes⟩ bytes.size ∅) :
    (Node.load (s.after actions).memory r).toList (s.after actions).memory = vs := by
  have still := image_still_holds valid actions held
  have loaded : Node.load (s.after actions).memory r = .load ⟨bytes⟩ r := still.2.1.load
  rw [loaded]
  exact still.2.2.2.2

theorem blob_still_reads (actions : List AccessorAction) {r : Ref} {bs : List UInt8}
    (held : (Blob.holds (.load ⟨bytes⟩ r) bs).holds ⟨bytes⟩ bytes.size ∅) :
    ((Blob.load (s.after actions).memory r).slice (s.after actions).memory 0
      bs.length).data.toList = bs := by
  have still := image_still_holds valid actions held
  have loaded : Blob.load (s.after actions).memory r = .load ⟨bytes⟩ r :=
    congrArg Blob.mk still.2.1.load
  rw [loaded, Blob.slice_of_holds still (Nat.zero_le _) (Nat.le_refl _), List.drop_zero,
    Nat.sub_zero, List.take_length]

variable {L V : Type} [Leaf L V]

theorem leaf_still_reads [ListLeaf L] (actions : List AccessorAction) {r : Ref} {vs : List V}
    (held : (Tree.leafHolds L r vs).holds ⟨bytes⟩ bytes.size ∅) :
    Leaf.toList (s.after actions).memory (Leaf.load (s.after actions).memory r : L) = vs := by
  obtain ⟨l, rfl, still⟩ := Tree.holds_leaf.mp (image_still_holds valid actions held)
  rw [ListLeaf.load still]
  exact toList_of_leaf still

theorem tree_still_reads [ListLeaf L] (actions : List AccessorAction) (maxNodeSize : Nat) {r : Ref}
    {vs : List V} (held : (Tree.tree L r vs).holds ⟨bytes⟩ bytes.size ∅)
    (small : vs.length < Slot.countBound) :
    (Tree.load (s.after actions).memory maxNodeSize r : Tree L).toList (s.after actions).memory =
      vs :=
  Tree.toList_of_holds (Tree.holds_load_of_tree maxNodeSize
    (image_still_holds valid actions held)) small

/-- After operations that succeed, the new tree is read from its ref and the old one from the root
of the image. -/
theorem tree_reads_old_and_new {X : Type} [LawfulLeaf L] [Tree.OwnOps L X]
    {ops : List (Tree.Op V X)} {maxNodeSize : Nat} {vs : List V} {t' : Tree L} {s' : Store}
    (bound : bytes.size ≤ Store.addressSpace)
    (held : (Tree.tree L root vs).holds ⟨bytes⟩ bytes.size ∅) (small : vs.length < Slot.countBound)
    (room : 0 < maxNodeSize) (max : maxNodeSize < 2 ^ 24 - 2) (inRange : Tree.InRange L ops vs)
    (ok : Tree.run ops (Tree.load s.memory maxNodeSize root, s) = (.ok (), (t', s'))) :
    (Tree.load s'.memory maxNodeSize root : Tree L).toList s'.memory = vs ∧
      (Tree.load s'.memory maxNodeSize t'.ref : Tree L).toList s'.memory =
        Tree.onList L ops vs := by
  obtain ⟨baseline, -, -, memory⟩ := attached_ofImage valid
  rw [← memory, ← baseline] at held
  -- The image is shared: the tree that is edited is held beside the one that stays.
  have h : s.Holds (Tree.holds (Tree.load s.memory maxNodeSize root : Tree L) vs *
      Tree.tree L root vs) :=
    ⟨Store.sound_ofImage bound valid, ∅, s.owns_empty, ∅, ∅, (Set.union_empty ∅).symm,
      Set.disjoint_empty ∅, Tree.holds_load_of_tree maxNodeSize held, held⟩
  obtain ⟨h, small'⟩ := Tree.run_holds h small room max inRange ok
  obtain ⟨_, old⟩ := h.swap.reads
  exact ⟨Tree.toList_of_holds (Tree.holds_load_of_tree maxNodeSize old) small,
    (Tree.shows_of_holds h small').loads maxNodeSize⟩

end Attached

end ColumnStore
