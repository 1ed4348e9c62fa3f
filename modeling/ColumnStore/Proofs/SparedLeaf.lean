import ColumnStore.Leaf.Bytes
import ColumnStore.Leaf.Packed
import ColumnStore.Leaf.Scalar
import ColumnStore.Proofs.Spared

set_option autoImplicit false

/-!
Leaves over a read-only image: none of their edits writes to the image, whatever it holds.
-/
namespace ColumnStore

open Store (Guards)
open StoreM (modifyMemory_spares)
open Node (Out out_data createPacked_keeps copyOnWrite_keeps reserve_keeps setKnownSize_keeps)

variable {base : Nat} {image : Memory}

namespace Blob

theorem edit_keeps {e : Edit Node Unit}
    (kept : e.Keeps (Guards base image) (Out base) fun _ n => n.Out base) :
    (edit e).Keeps (Guards base image) (fun b => b.node.Out base) fun _ b => b.node.Out base :=
  .focus kept (fun _ out => out) fun _ _ _ _ out => out

theorem copyOnWrite_keeps : (edit Node.copyOnWrite).Keeps (Guards base image) (fun _ => True)
    fun _ b => b.node.Out base :=
  .focus Node.copyOnWrite_keeps (fun _ _ => trivial) fun _ _ _ _ out => out

theorem create_spares : create.Spares (Guards base image) :=
  (Node.create_keeps _ _ _).map fun _ _ => trivial

theorem replace_spares (start stop : Nat) (data : ByteArray) :
    (replace start stop data).Spares (Guards base image) := by
  have rest (size newSize : Nat) : Edit.Keeps (Guards base image) (fun b => b.node.Out base)
      (do
        let p := (← Edit.self).node.data
        liftM (StoreM.modifyMemory fun m =>
          (m.move (p + stop) (p + start + data.size) (size - stop)).write (p + start) data)
        edit (Node.reserve newSize 1)
        edit (Node.setKnownSize newSize) : Edit Blob Unit) fun _ b => b.node.Out base := by
    refine .self_bind fun b out => .lift_bind (modifyMemory_spares fun _ before => ?_) fun _ _ => ?_
    · have high := Nat.le_add_right_of_le (k := start) (out_data out)
      exact (before.move _ _ (Nat.le_add_right_of_le high)).write _ high
    · refine .bind ((edit_keeps (reserve_keeps _ _)).weaken (fun _ same => same ▸ out)
        fun _ _ out => out) fun _ => ?_
      exact edit_keeps (setKnownSize_keeps _)
  rw [replace]
  refine .self_bind fun b _ => .bind (copyOnWrite_keeps.weaken (fun _ _ => trivial)
    fun _ _ out => out) fun _ => ?_
  dsimp only
  split
  next =>
    exact .bind (edit_keeps (reserve_keeps _ _)) fun _ =>
      (rest _ _).weaken (fun _ out => out) fun _ _ _ => trivial
  next => exact (rest _ _).weaken (fun _ out => out) fun _ _ _ => trivial

theorem insert_spares (i : Nat) (data : ByteArray) : (insert i data).Spares (Guards base image) :=
  replace_spares i i data

theorem add_spares (data : ByteArray) : (add data).Spares (Guards base image) :=
  .self_bind fun b _ => (insert_spares b.size data).from_any _

theorem erase_spares (start stop : Nat) : (erase start stop).Spares (Guards base image) :=
  replace_spares start stop .empty

theorem truncate_spares (size : Nat) : (truncate size).Spares (Guards base image) :=
  (Node.truncate_spares size).focus

end Blob

theorem Node.patchSlot_spares (i : Nat) (r : Ref) : (patchSlot i r).Spares (Guards base image) := by
  rw [patchSlot]
  refine .self_bind fun n _ => .read_bind fun old => ?_
  split
  next => exact (set_keeps i _).spares.from_any _
  next => exact .pure fun _ _ => trivial

namespace BytesLeaf

theorem create_spares : create.Spares (Guards base image) := by
  rw [create]
  refine (createPacked_keeps .refs).spares.seq fun top => ?_
  refine (createPacked_keeps .plain).spares.seq fun ends => Blob.create_spares.seq fun blob => ?_
  refine (Edit.Spares.on ?_).seq fun _ => .pure trivial
  exact (Node.add_keeps _).spares.seq fun _ => (Node.add_keeps _).spares

theorem patchTop_spares : patchTop.Spares (Guards base image) :=
  .self_bind fun _ _ => ((Node.patchSlot_spares _ _).focus.from_any _).bind fun _ =>
    (Node.patchSlot_spares _ _).focus

theorem moveEnds_spares (i : Nat) (d : Int64) : (moveEnds i d).Spares (Guards base image) :=
  .self_bind fun _ _ => (Node.adjustRange_spares _ _ d).focus.from_any _

theorem insert_spares (i : Nat) (v : ByteArray) : (insert i v).Spares (Guards base image) := by
  refine .self_bind fun l _ => .read_bind fun start => ?_
  refine ((Blob.insert_spares start v).focus.from_any _).bind fun _ => ?_
  refine (Node.insert_keeps i _).spares.focus.seq fun _ => ?_
  exact (moveEnds_spares _ _).seq fun _ => patchTop_spares

theorem add_spares (v : ByteArray) : (add v).Spares (Guards base image) :=
  .self_bind fun l _ => (insert_spares l.size v).from_any _

theorem set_spares (i : Nat) (v : ByteArray) : (set i v).Spares (Guards base image) := by
  rw [set]
  refine .self_bind fun l _ => .read_bind fun start => .read_bind fun stop => ?_
  refine ((Blob.replace_spares start stop v).focus.from_any _).bind fun _ => ?_
  dsimp only
  split
  next => exact (moveEnds_spares _ _).seq fun _ => patchTop_spares
  next => exact patchTop_spares

theorem erase_spares (i : Nat) : (erase i).Spares (Guards base image) := by
  refine .self_bind fun l _ => .read_bind fun start => .read_bind fun stop => ?_
  refine ((Blob.erase_spares start stop).focus.from_any _).bind fun _ => ?_
  refine (Node.erase_spares i).focus.seq fun _ => ?_
  exact (moveEnds_spares _ _).seq fun _ => patchTop_spares

theorem truncate_spares (size : Nat) : (truncate size).Spares (Guards base image) := by
  refine .self_bind fun l _ => .read_bind fun bytes => ?_
  refine ((Node.truncate_spares size).focus.from_any _).bind fun _ => ?_
  exact (Blob.truncate_spares bytes).focus.seq fun _ => patchTop_spares

end BytesLeaf

namespace ScalarLeaf

variable {α : Type}

theorem edit_keeps {e : Edit Node Unit}
    (kept : e.Keeps (Guards base image) (Out base) fun _ n => n.Out base) :
    (edit e : Edit (ScalarLeaf α) Unit).Keeps (Guards base image) (fun l => l.node.Out base)
      fun _ l => l.node.Out base :=
  .focus kept (fun _ out => out) fun _ _ _ _ out => out

theorem copyOnWrite_keeps : (edit Node.copyOnWrite : Edit (ScalarLeaf α) Unit).Keeps
    (Guards base image) (fun _ => True) fun _ l => l.node.Out base :=
  .focus Node.copyOnWrite_keeps (fun _ _ => trivial) fun _ _ _ _ out => out

theorem truncate_spares (size : Nat) :
    (truncate size : Edit (ScalarLeaf α) Unit).Spares (Guards base image) :=
  (Node.truncate_spares size).focus

variable [Scalar α]

theorem out_slot {l : ScalarLeaf α} (out : l.node.Out base) (i : Nat) : base ≤ l.slot i :=
  Nat.le_add_right_of_le (out_data out)

theorem create_spares : (create : StoreM (ScalarLeaf α)).Spares (Guards base image) :=
  (Node.create_keeps _ _ _).map fun _ _ => trivial

theorem store_keeps (i : Nat) (v : α) : (store i v).Keeps (Guards base image)
    (fun l => l.node.Out base) fun _ _ => True :=
  .self_bind fun _ out => .lift (modifyMemory_spares fun _ before =>
    before.setWordOf _ _ (out_slot out i)) fun _ _ _ _ => trivial

theorem set_spares (i : Nat) (v : α) : (set i v).Spares (Guards base image) :=
  .bind copyOnWrite_keeps fun _ => store_keeps i v

theorem insert_spares (i : Nat) (v : α) : (insert i v).Spares (Guards base image) := by
  refine .self_bind fun l _ => .bind (copyOnWrite_keeps.weaken (fun _ _ => trivial)
    fun _ _ out => out) fun _ => ?_
  refine .bind (edit_keeps (reserve_keeps _ _)) fun _ => .self_bind fun l out => ?_
  refine .lift_bind (modifyMemory_spares fun _ before => before.move _ _ (out_slot out _))
    fun _ _ => ?_
  refine .bind ((edit_keeps (setKnownSize_keeps _)).weaken (fun _ same => same ▸ out)
    fun _ _ out => out) fun _ => ?_
  exact store_keeps i v

theorem erase_spares (i : Nat) :
    (erase i : Edit (ScalarLeaf α) Unit).Spares (Guards base image) := by
  refine .bind copyOnWrite_keeps fun _ => .self_bind fun l out => ?_
  refine .lift_bind (modifyMemory_spares fun _ before => before.move _ _ (out_slot out _))
    fun _ _ => ?_
  refine .bind ((edit_keeps (reserve_keeps _ _)).weaken (fun _ same => same ▸ out)
    fun _ _ out => out) fun _ => ?_
  exact (edit_keeps (setKnownSize_keeps _)).weaken (fun _ out => out) fun _ _ _ => trivial

end ScalarLeaf

/-- Leaves whose edits write to no image. -/
class SparingLeaf (L : Type) {V : Type} [Leaf L V] : Prop where
  create {base : Nat} {image : Memory} : (Leaf.create : StoreM L).Spares (Guards base image)
  set {base : Nat} {image : Memory} (i : Nat) (v : V) :
    (Leaf.set i v : Edit L Unit).Spares (Guards base image)
  insert {base : Nat} {image : Memory} (i : Nat) (v : V) :
    (Leaf.insert i v : Edit L Unit).Spares (Guards base image)
  erase {base : Nat} {image : Memory} (i : Nat) :
    (Leaf.erase i : Edit L Unit).Spares (Guards base image)
  truncate {base : Nat} {image : Memory} (size : Nat) :
    (Leaf.truncate size : Edit L Unit).Spares (Guards base image)
  destroy {base : Nat} {image : Memory} (l : L) : (Leaf.destroy l).Spares (Guards base image)

instance : SparingLeaf Node where
  create := (createPacked_keeps _).spares
  set i v := (Node.set_keeps i v).spares
  insert i v := (Node.insert_keeps i v).spares
  erase := Node.erase_spares
  truncate := Node.truncate_spares
  destroy := Node.destroyDeep_spares

instance : SparingLeaf RefLeaf where
  create := (createPacked_keeps _).map fun _ _ => trivial
  set i v := (Node.set_keeps i v).spares.focus
  insert i v := (Node.insert_keeps i v).spares.focus
  erase i := (Node.erase_spares i).focus
  truncate size := (Node.truncate_spares size).focus
  destroy l := Node.destroyDeep_spares l.node

instance {α : Type} [Scalar α] : SparingLeaf (ScalarLeaf α) where
  create := ScalarLeaf.create_spares
  set := ScalarLeaf.set_spares
  insert := ScalarLeaf.insert_spares
  erase := ScalarLeaf.erase_spares
  truncate := ScalarLeaf.truncate_spares
  destroy l := Node.destroy_spares l.node

instance : SparingLeaf BytesLeaf where
  create := BytesLeaf.create_spares
  set := BytesLeaf.set_spares
  insert := BytesLeaf.insert_spares
  erase := BytesLeaf.erase_spares
  truncate := BytesLeaf.truncate_spares
  destroy l := Node.destroyDeep_spares l.top

end ColumnStore
