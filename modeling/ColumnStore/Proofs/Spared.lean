import ColumnStore.Proofs.FreeList
import ColumnStore.Proofs.Outcome
import ColumnStore.Proofs.WritesFrom

set_option autoImplicit false

/-!
Edits over a read-only image. Whatever the nodes hold and however an edit ends, blocks are handed
out above the image only, and a node is copied out of it before the first write.
-/
namespace ColumnStore

open Memory (WritesFrom)

/-- No address of the image is to be handed out, and none was written. -/
structure Store.Guards (base : Nat) (image : Memory) (s : Store) : Prop where
  baseline : s.baseline = base
  free : ∀ c ∈ s.free, base ≤ c.start
  top : base ≤ s.slabEnd
  writes : image.WritesFrom base s.memory

variable {base : Nat} {image : Memory}

namespace Store

variable {s : Store} {r size : Nat}

theorem high_parts (base : Nat) (boundary : Nat → Bool) :
    FreeList.Inherited boundary fun c => base ≤ c.start where
  front high _ := high
  back high _ := Nat.le_add_right_of_le high
  join high _ _ _ := high

theorem Guards.releaseMutable (guards : s.Guards base image) (high : base ≤ r) :
    (s.releaseMutable r size).Guards base image :=
  { guards with free := (high_parts base s.isBoundary).release high guards.free }

theorem Guards.addSlab {slabSize : Nat} (guards : s.Guards base image) :
    (s.addSlab slabSize size).Guards base image := by
  rw [Store.addSlab]
  refine Guards.releaseMutable ⟨guards.baseline, guards.free, ?_, guards.writes⟩ ?_
  · exact Nat.le_add_right_of_le guards.top
  · exact Nat.le_add_right_of_le guards.top

end Store

namespace StoreM

open Store (Guards)

theorem allocate_keeps (size : Nat) :
    (allocate size).Keeps (Guards base image) fun r => base ≤ r := by
  intro s guards
  rw [allocate, Store.allocate]
  split
  next r free taken =>
    obtain ⟨high, rest⟩ := (Store.high_parts base s.isBoundary).take guards.free taken
    exact ⟨{ guards with free := rest }, fun _ same => Except.ok.inj same ▸ high⟩
  next =>
    split
    next => exact ⟨guards, fun _ failed => by cases failed⟩
    next =>
      split
      next => exact ⟨guards.addSlab, fun _ same => Except.ok.inj same ▸ guards.top⟩
      next => exact ⟨guards, fun _ failed => by cases failed⟩

theorem free_spares (r size : Nat) : (free r size).Spares (Guards base image) := by
  intro s guards
  refine ⟨?_, fun _ _ => trivial⟩
  show (s.release r size).Guards base image
  rw [Store.release]
  split
  next => exact { guards with }
  next mutable =>
    rw [Store.isReadOnly, guards.baseline, decide_eq_true_eq, Nat.not_lt] at mutable
    exact guards.releaseMutable mutable

theorem modifyMemory_spares {f : Memory → Memory}
    (writes : ∀ m, image.WritesFrom base m → image.WritesFrom base (f m)) :
    (modifyMemory f).Spares (Guards base image) :=
  fun s guards => ⟨{ guards with writes := writes s.memory guards.writes }, fun _ _ => trivial⟩

theorem reallocate_keeps (r oldSize newSize : Nat) :
    (reallocate r oldSize newSize).Keeps (Guards base image) fun r => base ≤ r :=
  (allocate_keeps newSize).bind fun _ high =>
    (modifyMemory_spares fun _ before => before.move _ _ high).seq fun _ =>
      (free_spares r oldSize).seq fun _ => .pure high

theorem isReadOnly_keeps (r : Ref) :
    (isReadOnly r).Keeps (Guards base image) fun answer => answer = false → base ≤ r := by
  intro s guards
  refine ⟨guards, fun answer same mutable => ?_⟩
  rw [← Except.ok.inj same, Store.isReadOnly, guards.baseline, decide_eq_false_iff_not,
    Nat.not_lt] at mutable
  exact mutable

end StoreM

namespace Node

open Store (Guards)
open StoreM (allocate_keeps free_spares modifyMemory_spares reallocate_keeps isReadOnly_keeps)

/-- The node is not in the image, or no longer. -/
abbrev Out (base : Nat) (n : Node) : Prop := base ≤ n.ref

theorem out_data {n : Node} (out : n.Out base) : base ≤ n.data := Nat.le_add_right_of_le out

theorem create_keeps (role : Role) (layout : Layout) (width : Nat) :
    (create role layout width).Keeps (Guards base image) (Out base) :=
  (allocate_keeps _).bind fun _ high =>
    (modifyMemory_spares fun _ before => before.setHeader _ high).seq fun _ => .pure high

theorem createPacked_keeps (role : Role) :
    (createPacked role).Keeps (Guards base image) (Out base) :=
  create_keeps role .bits 0

theorem destroy_spares (n : Node) : n.destroy.Spares (Guards base image) := free_spares _ _

theorem destroyDeep_spares (n : Node) : n.destroyDeep.Spares (Guards base image) := by
  rw [destroyDeep]
  refine (StoreM.Keeps.read _).seq fun nodes => ?_
  exact (StoreM.Spares.forIn fun d _ => (destroy_spares d).seq fun _ => .pure trivial).seq
    fun _ => .pure trivial

theorem destroyDeepRef_spares (r : Ref) : (destroyDeepRef r).Spares (Guards base image) := by
  rw [destroyDeepRef]
  exact (StoreM.Keeps.read _).seq fun n => destroyDeep_spares n

theorem copyOnWrite_keeps :
    copyOnWrite.Keeps (Guards base image) (fun _ => True) fun _ n => n.Out base := by
  refine .self_bind fun n _ => .lift_bind (isReadOnly_keeps n.ref) fun image mutable => ?_
  split
  next =>
    refine .lift_bind (allocate_keeps _) fun r high => ?_
    refine .lift_bind (modifyMemory_spares fun _ before =>
      (before.move _ _ high).setHeaderCapacity _ high) fun _ _ => ?_
    exact .put_bind (.lift (free_spares _ _) fun _ _ _ same => same ▸ high)
  next no =>
    exact .pure fun _ same => same ▸ mutable (Bool.eq_false_iff.mpr no)

theorem rehead_keeps (count width : Nat) : Edit.Keeps (Guards base image) (Out base) (do
    let n ← Edit.self
    liftM (StoreM.modifyMemory fun m => (m.setHeaderWidth n.ref width).setHeaderSize n.ref count) :
      Edit Node Unit) fun _ n => n.Out base := by
  refine .self_bind fun n out => ?_
  exact .lift (modifyMemory_spares fun _ before =>
    (before.setHeaderWidth width out).setHeaderSize count out) fun _ _ _ same => same ▸ out

theorem reserve_keeps (count width : Nat) :
    (reserve count width).Keeps (Guards base image) (Out base) fun _ n => n.Out base := by
  rw [reserve]
  refine .self_bind fun n out => ?_
  dsimp only
  split
  next =>
    split
    next => exact .throw_bind _
    next =>
      refine .lift_bind (reallocate_keeps _ _ _) fun target high => .put_bind ?_
      refine .lift_bind (modifyMemory_spares fun _ before => before.setHeaderCapacity _ high)
        fun _ _ => ?_
      exact (rehead_keeps count width).weaken (fun _ same => same ▸ high) fun _ _ out => out
  next => exact (rehead_keeps count width).weaken (fun _ same => same ▸ out) fun _ _ out => out

theorem setKnownWidth_keeps (width : Nat) :
    (setKnownWidth width).Keeps (Guards base image) (Out base) fun _ n => n.Out base :=
  .update fun _ out => out

theorem setKnownSize_keeps (size : Nat) :
    (setKnownSize size).Keeps (Guards base image) (Out base) fun _ n => n.Out base :=
  .update fun _ out => out

theorem setSize_keeps (size : Nat) :
    (setSize size).Keeps (Guards base image) (Out base) fun _ n => n.Out base := by
  refine .bind (setKnownSize_keeps size) fun _ => .self_bind fun n out => ?_
  exact .lift (modifyMemory_spares fun _ before => before.setHeaderSize size out)
    fun _ _ _ same => same ▸ out

theorem setWidth_keeps (width : Nat) :
    (setWidth width).Keeps (Guards base image) (Out base) fun _ n => n.Out base := by
  refine .bind (setKnownWidth_keeps width) fun _ => .self_bind fun n out => ?_
  exact .lift (modifyMemory_spares fun _ before => before.setHeaderWidth width out)
    fun _ _ _ same => same ▸ out

/-- Nothing is written to a node whose elements are wide enough. -/
theorem ensureWidth_keeps (v : Int64) {P : Node → Prop} :
    (ensureWidth v).Keeps (Guards base image) P
    fun _ n => P n ∨ n.Out base := by
  rw [ensureWidth]
  refine .self_bind fun n known => ?_
  split
  next =>
    refine .bind (copyOnWrite_keeps.weaken (fun _ _ => trivial) fun _ _ out => out) fun _ => ?_
    refine .bind (reserve_keeps _ _) fun _ => .bind (setKnownWidth_keeps _) fun _ => ?_
    refine .self_bind fun n out => ?_
    exact .lift (modifyMemory_spares fun _ before => before.widen _ _ _ (out_data out))
      fun _ _ _ same => .inr (same ▸ out)
  next => exact .pure fun _ same => .inl (same ▸ known)

theorem set_keeps (i : Nat) (v : Int64) :
    (set i v).Keeps (Guards base image) (fun _ => True) fun _ n => n.Out base := by
  refine .bind copyOnWrite_keeps fun _ => .bind (ensureWidth_keeps v) fun _ => ?_
  refine .self_bind fun n out => ?_
  rw [or_self] at out
  exact .lift (modifyMemory_spares fun _ before => before.setElement _ _ _ (out_data out))
    fun _ _ _ same => same ▸ out

theorem insert_keeps (i : Nat) (v : Int64) :
    (insert i v).Keeps (Guards base image) (fun _ => True) fun _ n => n.Out base := by
  rw [insert]
  refine .bind copyOnWrite_keeps fun _ => .self_bind fun old out => ?_
  refine .bind ((reserve_keeps _ _).weaken (fun _ same => same ▸ out) fun _ _ out => out)
    fun _ => ?_
  refine .bind (setKnownWidth_keeps _) fun _ => .self_bind fun n out => ?_
  refine .lift_bind (modifyMemory_spares fun _ before =>
    before.insertElement _ _ _ _ _ (out_data out)) fun _ _ => ?_
  exact (setKnownSize_keeps _).weaken (fun _ same => same ▸ out) fun _ _ out => out

theorem add_keeps (v : Int64) :
    (add v).Keeps (Guards base image) (fun _ => True) fun _ n => n.Out base :=
  .self_bind fun n _ => (insert_keeps n.size v).weaken (fun _ _ => trivial) fun _ _ out => out

theorem eraseRange_spares (start stop : Nat) :
    (eraseRange start stop).Spares (Guards base image) := by
  rw [eraseRange]
  split
  next =>
    refine .bind copyOnWrite_keeps fun _ => .self_bind fun n out => ?_
    refine .lift_bind (modifyMemory_spares fun _ before =>
      before.eraseElements _ _ _ _ (out_data out)) fun _ _ => ?_
    exact (setSize_keeps _).weaken (fun _ same => same ▸ out) fun _ _ _ => trivial
  next => exact .pure fun _ _ => trivial

theorem erase_spares (i : Nat) : (erase i).Spares (Guards base image) := eraseRange_spares i (i + 1)

theorem truncate_spares (size : Nat) : (truncate size).Spares (Guards base image) := by
  rw [truncate]
  refine .bind copyOnWrite_keeps fun _ => .bind (setSize_keeps size) fun _ => ?_
  refine .self_bind fun n out => ?_
  split
  next => exact (setWidth_keeps 0).weaken (fun _ same => same ▸ out) fun _ _ _ => trivial
  next => exact .pure fun _ _ => trivial

theorem truncateDeep_spares (size : Nat) : (truncateDeep size).Spares (Guards base image) := by
  rw [truncateDeep]
  refine .self_bind fun n _ => ?_
  dsimp only
  split
  next =>
    refine .read_bind fun slots => ?_
    refine .bind (Edit.Spares.from_any (.forIn fun v _ => ?_) _) fun _ => truncate_spares size
    exact .lift_bind (destroyDeepRef_spares _) fun _ _ => .pure fun _ _ => trivial
  next => exact (truncate_spares size).from_any _

theorem setAllToZero_spares : setAllToZero.Spares (Guards base image) :=
  .bind copyOnWrite_keeps fun _ => (setWidth_keeps 0).weaken (fun _ out => out) fun _ _ _ => trivial

theorem adjust_spares (i : Nat) (d : Int64) : (adjust i d).Spares (Guards base image) :=
  .self_bind fun _ _ => .read_bind fun v => (set_keeps i (v + d)).spares.from_any _

theorem adjustFrom_spares (d : Int64) (i count : Nat) :
    (adjustFrom d i count).Spares (Guards base image) := by
  induction count generalizing i with
  | zero => exact .pure fun _ _ => trivial
  | succ count ih => exact (adjust_spares i d).seq fun _ => ih (i + 1)

theorem adjustRange_spares (start stop : Nat) (d : Int64) :
    (adjustRange start stop d).Spares (Guards base image) :=
  adjustFrom_spares d start (stop - start)

theorem adjustFromAtLeast_spares (limit d : Int64) (i count : Nat) :
    (adjustFromAtLeast limit d i count).Spares (Guards base image) := by
  induction count generalizing i with
  | zero => exact .pure fun _ _ => trivial
  | succ count ih =>
      refine .self_bind fun n _ => .read_bind fun v => ?_
      dsimp only
      split
      next => exact ((adjust_spares i d).from_any _).bind fun _ => ih (i + 1)
      next => exact (ih (i + 1)).from_any _

theorem adjustAtLeast_spares (limit d : Int64) :
    (adjustAtLeast limit d).Spares (Guards base image) :=
  .self_bind fun n _ => (adjustFromAtLeast_spares limit d 0 n.size).from_any _

theorem setContext_spares (value : Bool) : (setContext value).Spares (Guards base image) := by
  rw [setContext]
  refine .self_bind fun n _ => ?_
  split
  next =>
    refine .bind (copyOnWrite_keeps.weaken (fun _ _ => trivial) fun _ _ out => out) fun _ => ?_
    refine .bind (.update (R := fun _ n => n.Out base) fun _ out => out) fun _ => ?_
    refine .self_bind fun n out => ?_
    exact .lift (modifyMemory_spares fun _ before => before.setHeaderContext value out)
      fun _ _ _ _ => trivial
  next => exact .pure fun _ _ => trivial

theorem giveUp_spares {free : Node → StoreM Unit}
    (spares : ∀ n, (free n).Spares (Guards base image)) :
    (giveUp free).Spares (Guards base image) := by
  rw [giveUp]
  refine .self_bind fun n _ => ?_
  split
  next => exact .lift_bind (spares n) fun _ _ => .put trivial
  next => exact .pure fun _ _ => trivial

end Node

end ColumnStore
