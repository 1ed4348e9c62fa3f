import ColumnStore.Column.Int
import ColumnStore.Proofs.SparedLeaf

set_option autoImplicit false

/-!
Trees over a read-only image: none of their edits writes to the image, whatever it holds, and also
not an edit that fails half way.
-/
namespace ColumnStore

open Store (Guards)
open Node (createPacked_keeps)

variable {base : Nat} {image : Memory}

namespace Branch

theorem addEnds_spares (perChild i count : Nat) :
    (addEnds perChild i count).Spares (Guards base image) := by
  induction count generalizing i with
  | zero => exact .pure fun _ _ => trivial
  | succ count ih => exact (Node.add_keeps _).spares.seq fun _ => ih (i + 1)

theorem ensureOffsets_spares : ensureOffsets.Spares (Guards base image) := by
  rw [ensureOffsets]
  refine .self_bind fun n _ => .read_bind fun found => ?_
  cases found with
  | some o => exact .pure fun _ _ => trivial
  | none =>
      refine .read_bind fun per => .lift_bind (createPacked_keeps .plain).spares fun o _ => ?_
      refine .lift_bind (Edit.Spares.trying (addEnds_spares _ _ _)) fun p _ => ?_
      obtain ⟨r, o⟩ := p
      cases r with
      | error e => exact .lift_bind (Node.destroy_spares o) fun _ _ => .throw e
      | ok x =>
          refine .bind (.handled ((Node.set_keeps 0 _).spares.from_any _) fun e => ?_)
            fun _ => .pure fun _ _ => trivial
          exact .lift_bind (Node.destroy_spares o) fun _ _ => .throw e

theorem addTotal_spares (d : Int64) : (addTotal d).Spares (Guards base image) :=
  .self_bind fun _ _ => (Node.adjust_spares _ d).from_any _

theorem editOffsets_spares {e : Edit Node Unit} (o : Node) (spares : e.Spares (Guards base image)) :
    (editOffsets o e).Spares (Guards base image) :=
  .lift_bind spares.on fun p _ => Node.patchSlot_spares 0 p.2.ref

theorem destroy_spares (n : Node) : (destroy n).Spares (Guards base image) := by
  rw [destroy]
  refine (StoreM.Keeps.read _).seq fun first => ?_
  split
  next => exact (Node.destroyDeepRef_spares _).seq fun _ => Node.destroy_spares n
  next => exact Node.destroy_spares n

end Branch

namespace Tree

/-! ### Insertion -/

theorem appendElements_spares (source : Node) (d : Int64) (i count : Nat) :
    (appendElements source d i count).Spares (Guards base image) := by
  induction count generalizing i with
  | zero => exact .pure fun _ _ => trivial
  | succ count ih => exact .read_bind fun _ => (Node.add_keeps _).spares.seq fun _ => ih (i + 1)

theorem offsetsFor_spares (offsets : Option Node) (c : Nat) (split : Split) :
    (offsetsFor offsets c split).Spares (Guards base image) := by
  rw [offsetsFor]
  refine .self_bind fun n _ => ?_
  cases offsets with
  | some o => exact .pure fun _ _ => trivial
  | none =>
      refine .read_bind fun per => ?_
      split
      next => exact .pure fun _ _ => trivial
      next =>
        exact (Branch.ensureOffsets_spares.from_any _).bind fun _ => .pure fun _ _ => trivial

theorem insertChild_spares (maxNodeSize : Nat) (offsets : Option Node) (c : Nat) (split : Split) :
    (insertChild maxNodeSize offsets c split).Spares (Guards base image) := by
  rw [insertChild]
  refine .self_bind fun n _ => .read_bind fun total => .read_bind fun start => ?_
  refine ((offsetsFor_spares offsets c split).from_any _).bind fun offsets => ?_
  dsimp only
  split
  next =>
    refine (Node.insert_keeps _ _).spares.seq fun _ => (Branch.addTotal_spares 2).seq fun _ => ?_
    cases offsets with
    | none => exact .pure fun _ _ => trivial
    | some o =>
        refine (Branch.editOffsets_spares o ?_).seq fun _ => .pure fun _ _ => trivial
        refine (Node.insert_keeps _ _).spares.seq fun _ => .self_bind fun o _ => ?_
        exact (Node.adjustRange_spares _ _ 1).from_any _
  next =>
    refine .lift_bind (createPacked_keeps .inner).spares fun right _ => ?_
    cases offsets with
    | none =>
        refine .self_bind fun n _ => .read_bind fun first => .lift_bind (Edit.Spares.on ?_)
          fun _ _ => .pure fun _ _ => trivial
        exact (Node.add_keeps _).spares.seq fun _ => (Node.add_keeps _).spares.seq fun _ =>
          (Node.add_keeps _).spares
    | some o =>
        refine .lift_bind (createPacked_keeps .plain).spares fun ends _ => ?_
        refine .lift_bind (appendElements_spares o _ c _).on fun p _ => .self_bind fun n _ => ?_
        refine .lift_bind (Edit.Spares.on ?_) fun _ _ => ?_
        · exact (Node.add_keeps _).spares.seq fun _ => (Node.add_keeps _).spares.seq fun _ =>
            (appendElements_spares n 0 _ _).seq fun _ => (Node.add_keeps _).spares
        · refine ((Node.truncate_spares _).from_any _).bind fun _ => ?_
          refine (Node.add_keeps _).spares.seq fun _ => ?_
          exact (Branch.editOffsets_spares o (Node.truncate_spares c)).seq
            fun _ => .pure fun _ _ => trivial

theorem newRoot_spares (old : Ref) (append : Bool) (split : Split) :
    (newRoot old append split).Spares (Guards base image) := by
  rw [newRoot]
  refine (StoreM.Keeps.read _).seq fun compact => ?_
  refine (createPacked_keeps .inner).spares.seq fun root => ?_
  refine (Edit.Spares.on ?_).seq fun _ => .pure trivial
  have rest : Edit.Spares (Guards base image) (do
      Node.add (Slot.ofRef old)
      Node.add (Slot.ofRef split.sibling)
      Node.add (Slot.tag split.size)) :=
    (Node.add_keeps _).spares.seq fun _ => (Node.add_keeps _).spares.seq fun _ =>
      (Node.add_keeps _).spares
  dsimp only
  split
  next => exact (Node.add_keeps _).spares.seq fun _ => rest
  next =>
    refine .lift_bind (createPacked_keeps .plain).spares fun o _ => ?_
    refine .lift_bind (Node.add_keeps _).spares.on fun p _ => ?_
    exact (Node.add_keeps _).spares.seq fun _ => rest

variable {L V : Type} [Leaf L V] [SparingLeaf L]

theorem copyElements_spares (source : L) (i j count : Nat) :
    (copyElements source i j count).Spares (Guards base image) := by
  induction count generalizing i j with
  | zero => exact .pure fun _ _ => trivial
  | succ count ih =>
      exact .read_bind fun v => (SparingLeaf.insert j v).seq fun _ => ih (i + 1) (j + 1)

theorem insertIntoLeaf_spares (maxNodeSize : Nat) (i : Option Nat) (v : V) :
    (insertIntoLeaf maxNodeSize i v : Edit L (Option Split)).Spares (Guards base image) := by
  rw [insertIntoLeaf]
  refine .self_bind fun l _ => ?_
  dsimp only
  split
  next => exact ((SparingLeaf.insert _ v).from_any _).bind fun _ => .pure fun _ _ => trivial
  next =>
    refine .lift_bind SparingLeaf.create fun sibling _ => ?_
    split
    next =>
      exact .lift_bind (Edit.Spares.on (SparingLeaf.insert 0 v)) fun _ _ => .pure fun _ _ => trivial
    next =>
      refine .lift_bind (copyElements_spares l _ 0 _).on fun _ _ => ?_
      refine ((SparingLeaf.truncate _).from_any _).bind fun _ => ?_
      exact (SparingLeaf.insert _ v).seq fun _ => .pure fun _ _ => trivial

theorem insertIntoChild_spares {below : Option Nat → Edit Node (Option Split)}
    (spares : ∀ i, (below i).Spares (Guards base image)) (maxNodeSize : Nat) (v : V) (c : Nat)
    (i : Option Nat) :
    (insertIntoChild (L := L) below maxNodeSize v c i).Spares (Guards base image) := by
  rw [insertIntoChild]
  refine .self_bind fun n _ => .read_bind fun r => .read_bind fun inner => ?_
  split
  next =>
    refine .lift_bind (.read _) fun node _ => .lift_bind (spares i).on fun p _ => ?_
    exact ((Node.patchSlot_spares _ _).from_any _).bind fun _ => .pure fun _ _ => trivial
  next =>
    refine .read_bind fun leaf => ?_
    refine .lift_bind (insertIntoLeaf_spares maxNodeSize i v).on fun p _ => ?_
    exact ((Node.patchSlot_spares _ _).from_any _).bind fun _ => .pure fun _ _ => trivial

theorem insertBelow_spares (maxNodeSize : Nat) (v : V) (depth : Nat) (i : Option Nat) :
    (insertBelow (L := L) maxNodeSize v depth i).Spares (Guards base image) := by
  induction depth generalizing i with
  | zero => exact .pure fun _ _ => trivial
  | succ depth ih =>
      cases i with
      | none =>
          refine .self_bind fun n _ => ?_
          refine ((insertIntoChild_spares ih maxNodeSize v _ none).from_any _).bind fun split => ?_
          cases split with
          | none => exact (Branch.addTotal_spares 2).seq fun _ => .pure fun _ _ => trivial
          | some split =>
              refine .self_bind fun n _ => .read_bind fun offsets => ?_
              exact (insertChild_spares maxNodeSize offsets _ split).from_any _
      | some i =>
          refine Branch.ensureOffsets_spares.seq fun o => .read_bind fun p => ?_
          refine (insertIntoChild_spares ih maxNodeSize v p.1 (some p.2)).seq fun split => ?_
          cases split with
          | none =>
              refine (Branch.addTotal_spares 2).seq fun _ => ?_
              exact (Branch.editOffsets_spares o (Node.adjustRange_spares _ _ 1)).seq
                fun _ => .pure fun _ _ => trivial
          | some split => exact insertChild_spares maxNodeSize (some o) p.1 split

theorem editLeaf_spares {α : Type} {e : Edit L α} (l : L) (spares : e.Spares (Guards base image)) :
    (editLeaf l e).Spares (Guards base image) :=
  .self_bind fun _ _ => spares.inside.from_any _

omit [Leaf L V] [SparingLeaf L] in
theorem editInner_spares {α : Type} {e : Edit Node α} (n : Node)
    (spares : e.Spares (Guards base image)) :
    (editInner n e : Edit (Tree L) α).Spares (Guards base image) :=
  .self_bind fun _ _ => spares.inside.from_any _

theorem insert_spares (i : Option Nat) (v : V) :
    (insert i v : Edit (Tree L) Unit).Spares (Guards base image) := by
  have grown (append : Bool) (split : Split) : Edit.Spares (Guards base image) (do
      let t ← Edit.self
      setRoot (.inner (← newRoot t.ref append split)) : Edit (Tree L) Unit) :=
    .self_bind fun t _ => .lift_bind (newRoot_spares _ append split) fun _ _ =>
      .update fun _ _ => trivial
  rw [insert]
  refine .self_bind fun t _ => .read_bind fun size => ?_
  dsimp only
  cases t.root with
  | leaf l =>
      refine ((editLeaf_spares l (insertIntoLeaf_spares _ _ v)).from_any _).bind fun split => ?_
      cases split with
      | none => exact .pure fun _ _ => trivial
      | some split => exact grown _ split
  | inner n =>
      refine .read_bind fun depth => ?_
      refine ((editInner_spares n (insertBelow_spares _ v depth _)).from_any _).bind
        fun split => ?_
      cases split with
      | none => exact .pure fun _ _ => trivial
      | some split => exact grown _ split

/-! ### Removal -/

theorem destroyBranch_spares (depth : Nat) (r : Ref) :
    (destroyBranch L depth r).Spares (Guards base image) := by
  induction depth generalizing r with
  | zero => exact .pure trivial
  | succ depth ih =>
      rw [destroyBranch]
      refine (StoreM.Keeps.read _).seq fun inner => ?_
      split
      next =>
        refine (StoreM.Keeps.read _).seq fun n => (StoreM.Keeps.read _).seq fun next => ?_
        exact (Branch.destroy_spares n).seq fun _ => ih next
      next => exact (StoreM.Keeps.read _).seq fun l => SparingLeaf.destroy l

theorem eraseFromLeaf_spares (c : Nat) (r : Ref) (i : Option Nat) :
    (eraseFromLeaf L c r i).Spares (Guards base image) := by
  rw [eraseFromLeaf]
  refine .read_bind fun l => ?_
  dsimp only
  split
  next => exact .pure fun _ _ => trivial
  next =>
    refine .lift_bind (Edit.Spares.on (SparingLeaf.erase _)) fun p _ => ?_
    exact (Node.patchSlot_spares _ _).seq fun _ => .pure fun _ _ => trivial

theorem removeEnd_spares (c : Nat) : (removeEnd c).Spares (Guards base image) := by
  rw [removeEnd]
  refine .self_bind fun o _ => ?_
  split
  next =>
    exact ((Node.erase_spares c).from_any _).bind fun _ => Node.adjustRange_spares _ _ (-1)
  next => exact (Node.erase_spares (c - 1)).from_any _

theorem offsetsToErase_spares (i : Option Nat) : (offsetsToErase i).Spares (Guards base image) := by
  rw [offsetsToErase]
  refine .self_bind fun n _ => ?_
  split
  next => exact (Edit.Spares.lift (.read _)).from_any _
  next =>
    exact (Branch.ensureOffsets_spares.from_any _).bind fun _ => .pure fun _ _ => trivial

theorem eraseFromChild_spares {below : Option Nat → Edit Node Bool}
    (spares : ∀ i, (below i).Spares (Guards base image)) (c : Nat) (r : Ref) (i : Option Nat) :
    (eraseFromChild L below c r i).Spares (Guards base image) := by
  rw [eraseFromChild]
  refine .read_bind fun inner => ?_
  split
  next =>
    refine .lift_bind (.read _) fun node _ => .lift_bind (spares i).on fun p _ => ?_
    dsimp only
    split
    next => exact .pure fun _ _ => trivial
    next => exact (Node.patchSlot_spares _ _).seq fun _ => .pure fun _ _ => trivial
  next => exact eraseFromLeaf_spares c r i

theorem removeChild_spares (offsets : Option Node) (c : Nat) (r : Ref) :
    (removeChild L offsets c r).Spares (Guards base image) := by
  rw [removeChild]
  refine (Node.erase_spares _).seq fun _ => ?_
  cases offsets with
  | none => exact .read_bind fun depth => Edit.Spares.lift (destroyBranch_spares depth r)
  | some o =>
      refine (Branch.editOffsets_spares o (removeEnd_spares c)).seq fun _ => ?_
      exact .read_bind fun depth => Edit.Spares.lift (destroyBranch_spares depth r)

theorem shrinkEnds_spares (offsets : Option Node) (c : Nat) :
    (shrinkEnds offsets c).Spares (Guards base image) := by
  cases offsets with
  | none => exact .pure fun _ _ => trivial
  | some o => exact Branch.editOffsets_spares o (Node.adjustRange_spares _ _ (-1))

theorem eraseBelow_spares (depth : Nat) (i : Option Nat) :
    (eraseBelow L depth i).Spares (Guards base image) := by
  induction depth generalizing i with
  | zero => exact .pure fun _ _ => trivial
  | succ depth ih =>
      rw [eraseBelow]
      refine (offsetsToErase_spares i).seq fun offsets => .self_bind fun n _ => ?_
      refine .read_bind fun p => .read_bind fun r => ?_
      refine ((eraseFromChild_spares ih p.1 r p.2).from_any _).bind fun gone => ?_
      have rest : Edit.Spares (Guards base image) (do
          Branch.addTotal (-2)
          return false : Edit Node Bool) :=
        (Branch.addTotal_spares _).seq fun _ => .pure fun _ _ => trivial
      dsimp only
      split
      next =>
        split
        next => exact .pure fun _ _ => trivial
        next => exact (removeChild_spares offsets p.1 r).seq fun _ => rest
      next => exact (shrinkEnds_spares offsets p.1).seq fun _ => rest

omit [SparingLeaf L] in
theorem collapse_spares (depth : Nat) (r : Ref) :
    (collapse L depth r).Spares (Guards base image) := by
  induction depth generalizing r with
  | zero => exact .read _
  | succ depth ih =>
      rw [collapse]
      refine (StoreM.Keeps.read _).seq fun inner => ?_
      split
      next =>
        refine (StoreM.Keeps.read _).seq fun n => ?_
        split
        next => exact .pure trivial
        next =>
          refine (StoreM.Keeps.read _).seq fun next => ?_
          exact (Branch.destroy_spares n).seq fun _ => ih next
      next => exact .read _

theorem eraseBelowRoot_spares (i : Option Nat) :
    (eraseBelowRoot L i).Spares (Guards base image) := by
  rw [eraseBelowRoot]
  refine .read_bind fun depth => (eraseBelow_spares depth i).seq fun gone => ?_
  refine .self_bind fun n _ => ?_
  split
  next =>
    refine .lift_bind SparingLeaf.create fun fresh _ => ?_
    exact .lift_bind (destroyBranch_spares depth _) fun _ _ => .pure fun _ _ => trivial
  next =>
    split
    next => exact .pure fun _ _ => trivial
    next =>
      refine .read_bind fun next => .lift_bind (Branch.destroy_spares n) fun _ _ => ?_
      exact .lift_bind (collapse_spares depth next) fun _ _ => .pure fun _ _ => trivial

theorem erase_spares (i : Option Nat) :
    (erase i : Edit (Tree L) Unit).Spares (Guards base image) := by
  rw [erase]
  refine .self_bind fun t _ => ?_
  cases t.root with
  | leaf l => exact (editLeaf_spares l (SparingLeaf.erase _)).from_any _
  | inner n =>
      refine ((editInner_spares n (eraseBelowRoot_spares i)).from_any _).bind fun root => ?_
      cases root with
      | none => exact .pure fun _ _ => trivial
      | some root => exact .update fun _ _ => trivial

/-! ### Updates in place -/

omit [SparingLeaf L] in
theorem editLeafChild_spares {e : Edit L Unit} (c : Nat) (r : Ref)
    (spares : e.Spares (Guards base image)) : (editLeafChild c r e).Spares (Guards base image) :=
  .read_bind fun _ => .lift_bind spares.on fun _ _ => Node.patchSlot_spares _ _

omit [Leaf L V] [SparingLeaf L] in
theorem editInnerChild_spares {e : Edit Node Unit} (c : Nat) (r : Ref)
    (spares : e.Spares (Guards base image)) : (editInnerChild c r e).Spares (Guards base image) :=
  .lift_bind (.read _) fun _ _ => .lift_bind spares.on fun _ _ => Node.patchSlot_spares _ _

theorem setBelow_spares (v : V) (depth i : Nat) :
    (setBelow (L := L) v depth i).Spares (Guards base image) := by
  induction depth generalizing i with
  | zero => exact .pure fun _ _ => trivial
  | succ depth ih =>
      rw [setBelow]
      refine .self_bind fun n _ => .read_bind fun p => .read_bind fun r => ?_
      refine .read_bind fun inner => ?_
      split
      next => exact (editInnerChild_spares p.1 r (ih p.2)).from_any _
      next => exact (editLeafChild_spares p.1 r (SparingLeaf.set p.2 v)).from_any _

theorem set_spares (i : Nat) (v : V) :
    (set i v : Edit (Tree L) Unit).Spares (Guards base image) := by
  rw [set]
  refine .self_bind fun t _ => ?_
  cases t.root with
  | leaf l => exact (editLeaf_spares l (SparingLeaf.set i v)).from_any _
  | inner n =>
      exact .read_bind fun depth => (editInner_spares n (setBelow_spares v depth i)).from_any _

omit [SparingLeaf L] in
theorem updateChildren_spares {e : Edit L Unit} {depth : Nat}
    (spares : e.Spares (Guards base image))
    (below : (updateBelow e depth).Spares (Guards base image)) (c count : Nat) :
    (updateChildren e depth c count).Spares (Guards base image) := by
  induction count generalizing c with
  | zero =>
      rw [updateChildren]
      exact .pure fun _ _ => trivial
  | succ count ih =>
      rw [updateChildren]
      refine .self_bind fun n _ => .read_bind fun r => .read_bind fun inner => ?_
      dsimp only
      split
      next => exact ((editInnerChild_spares c r below).from_any _).bind fun _ => ih (c + 1)
      next => exact ((editLeafChild_spares c r spares).from_any _).bind fun _ => ih (c + 1)

omit [SparingLeaf L] in
theorem updateBelow_spares {e : Edit L Unit} (spares : e.Spares (Guards base image)) (depth : Nat) :
    (updateBelow e depth).Spares (Guards base image) := by
  induction depth with
  | zero =>
      rw [updateBelow]
      exact .pure fun _ _ => trivial
  | succ depth ih =>
      rw [updateBelow]
      exact .self_bind fun n _ => (updateChildren_spares spares ih 0 _).from_any _

omit [SparingLeaf L] in
theorem updateLeaves_spares {e : Edit L Unit} (spares : e.Spares (Guards base image)) :
    (updateLeaves e).Spares (Guards base image) := by
  rw [updateLeaves]
  refine .self_bind fun t _ => ?_
  cases t.root with
  | leaf l => exact (editLeaf_spares l spares).from_any _
  | inner n =>
      refine .read_bind fun depth => ?_
      exact (editInner_spares n (updateBelow_spares spares depth)).from_any _

theorem clear_spares : (clear : Edit (Tree L) Unit).Spares (Guards base image) :=
  .lift_bind SparingLeaf.create fun _ _ => .self_bind fun _ _ =>
    .lift_bind (Node.destroyDeepRef_spares _) fun _ _ => .update fun _ _ => trivial

theorem destroy_spares (t : Tree L) : t.destroy.Spares (Guards base image) := by
  rw [destroy]
  cases t.root with
  | leaf l => exact SparingLeaf.destroy l
  | inner n => exact Node.destroyDeep_spares n

end Tree

namespace IntColumn

theorem adjust_spares (i : Nat) (d : Int64) : (adjust i d).Spares (Guards base image) :=
  .self_bind fun _ _ => .read_bind fun _ => (Tree.set_spares i _).from_any _

theorem adjustAll_spares (d : Int64) : (adjustAll d).Spares (Guards base image) :=
  Tree.updateLeaves_spares <| .self_bind fun n _ => (Node.adjustRange_spares 0 n.size d).from_any _

end IntColumn

end ColumnStore
