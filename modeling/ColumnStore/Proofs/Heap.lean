import ColumnStore.Proofs.Blocks
import ColumnStore.Proofs.Edit
import ColumnStore.Proofs.Memory
import Mathlib.Data.List.Perm.Basic

set_option autoImplicit false

/-!
Histories of blocks: after allocations, moves and releases in any order, the live blocks and the
free chunks are the slabs, cut into parts, and every block holds what its owner wrote.
-/
namespace ColumnStore

/-- A store and the blocks in use, in the order in which they were first allocated. -/
structure Heap where
  store : Store
  live : List Chunk

namespace Heap

inductive Op where
  | allocate (size : Nat)
  | reallocate (i size : Nat)
  | free (i : Nat)
  | write (i offset : Nat) (data : ByteArray)

namespace Op

/-- Blocks are made of whole words. -/
def Legal : Op → Prop
  | allocate size => 0 < size ∧ 8 ∣ size
  | reallocate _ size => 0 < size ∧ 8 ∣ size
  | free _ => True
  | write .. => True

instance (op : Op) : Decidable op.Legal :=
  match op with
  | allocate size => inferInstanceAs (Decidable (0 < size ∧ 8 ∣ size))
  | reallocate _ size => inferInstanceAs (Decidable (0 < size ∧ 8 ∣ size))
  | free _ => inferInstanceAs (Decidable True)
  | write .. => inferInstanceAs (Decidable True)

/-- The block that is moved, freed or written. -/
def target? : Op → Option Nat
  | allocate _ => none
  | reallocate i _ => some i
  | free i => some i
  | write i _ _ => some i

end Op

def allocate (size : Nat) (h : Heap) : Heap :=
  match StoreM.allocate size h.store with
  | (.ok r, store) => ⟨store, h.live ++ [⟨r, size⟩]⟩
  | (.error _, store) => { h with store }

def reallocate (i : Nat) (c : Chunk) (size : Nat) (h : Heap) : Heap :=
  match StoreM.reallocate c.start c.size size h.store with
  | (.ok r, store) => ⟨store, h.live.set i ⟨r, size⟩⟩
  | (.error _, store) => { h with store }

def free (i : Nat) (c : Chunk) (h : Heap) : Heap :=
  ⟨(StoreM.free c.start c.size h.store).2, h.live.eraseIdx i⟩

/-- Only a write that stays in the block is made. -/
def write (c : Chunk) (offset : Nat) (data : ByteArray) (h : Heap) : Heap :=
  if offset + data.size ≤ c.size then
    { h with store := (StoreM.modifyMemory (·.write (c.start + offset) data) h.store).2 }
  else h

/-- An operation on a block that is not live does nothing. -/
def step (h : Heap) : Op → Heap
  | .allocate size => h.allocate size
  | .reallocate i size => h.live[i]?.elim h fun c => h.reallocate i c size
  | .free i => h.live[i]?.elim h fun c => h.free i c
  | .write i offset data => h.live[i]?.elim h fun c => h.write c offset data

def run (h : Heap) (ops : List Op) : Heap := ops.foldl step h

/-- No block has been allocated yet, with or without an image below. -/
inductive Fresh (settings : StoreSettings) : Heap → Prop
  | empty : Fresh settings ⟨.empty settings, []⟩
  | attached {image : ByteArray} {s : Store} {root : Ref} (bound : image.size ≤ Store.addressSpace)
      (valid : Store.ofImage settings image = .ok (s, root)) : Fresh settings ⟨s, []⟩

structure Sound (h : Heap) : Prop where
  store : h.store.Sound
  splits : h.store.Splits h.live
  positive : ∀ c ∈ h.live, 0 < c.size

variable {h : Heap} {i j size : Nat} {c d : Chunk}

theorem Fresh.sound {settings : StoreSettings} (fresh : Fresh settings h) : h.Sound := by
  cases fresh with
  | empty =>
      exact ⟨Store.sound_empty settings, Store.splits_nil rfl rfl rfl, List.forall_mem_nil _⟩
  | attached bound valid =>
      refine ⟨Store.sound_ofImage bound valid, ?_, List.forall_mem_nil _⟩
      obtain rfl := Store.ofImage_eq valid
      exact Store.splits_nil rfl rfl rfl

/-! ### One operation -/

theorem Sound.apart (sound : h.Sound) (first : h.live[i]? = some c) (second : h.live[j]? = some d)
    (other : i ≠ j) : Disjoint c.cells d.cells := by
  have pairs := (List.pairwise_append.mp sound.splits.blocks.apart).1
  obtain ⟨low, rfl⟩ := List.getElem?_eq_some_iff.mp first
  obtain ⟨low', rfl⟩ := List.getElem?_eq_some_iff.mp second
  rcases Nat.lt_or_gt_of_ne other with before | after
  · exact List.pairwise_iff_getElem.mp pairs i j low low' before
  · exact (List.pairwise_iff_getElem.mp pairs j i low' low after).symm

/-- An operation that leaves every block as it was but the one it names. -/
structure Steps (h : Heap) (target? : Option Nat) (h' : Heap) : Prop where
  sound : h'.Sound
  live : ∀ j c, h.live[j]? = some c → target? ≠ some j → c ∈ h'.live
  bytes : ∀ j c, h.live[j]? = some c → target? ≠ some j →
    ∀ k ∈ c.cells, h'.store.memory.get k = h.store.memory.get k

theorem Steps.refl (sound : h.Sound) (target? : Option Nat) : Steps h target? h :=
  ⟨sound, fun _ _ there _ => List.mem_of_getElem? there, fun _ _ _ _ _ _ => rfl⟩

theorem mem_erased (there : h.live[j]? = some d) (other : i ≠ j) : d ∈ h.live.eraseIdx i :=
  List.mem_eraseIdx_iff_getElem?.mpr ⟨j, other.symm, there⟩

theorem mem_replaced (there : h.live[j]? = some d) (other : i ≠ j) : d ∈ h.live.set i c := by
  refine List.mem_of_getElem? (i := j) ?_
  rw [List.getElem?_set_ne other, there]

theorem perm_erased (there : h.live[i]? = some c) : h.live.Perm (c :: h.live.eraseIdx i) := by
  obtain ⟨low, rfl⟩ := List.getElem?_eq_some_iff.mp there
  exact (List.getElem_cons_eraseIdx_perm low).symm

theorem perm_replaced (there : h.live[i]? = some c) :
    (d :: h.live).Perm (c :: h.live.set i d) := by
  obtain ⟨low, -⟩ := List.getElem?_eq_some_iff.mp there
  have replaced := (List.set_perm_cons_eraseIdx low d).cons c
  exact (((perm_erased there).cons d).trans (.swap ..)).trans replaced.symm

theorem allocate_steps (sound : h.Sound) (positive : 0 < size) (even : 8 ∣ size) :
    Steps h none (h.allocate size) := by
  rw [allocate, StoreM.allocate]
  rcases run : h.store.allocate size with ⟨e | r, s'⟩
  · cases Store.allocate_error run
    exact .refl sound none
  · have allocated := Store.allocate_allocated sound.store even positive run
    have splits := sound.splits.allocate sound.store.top even run
    refine ⟨⟨allocated.evolves.sound, ?_, ?_⟩, ?_, ?_⟩
    · exact splits.perm (List.perm_append_singleton ..).symm
    · exact List.forall_mem_append.mpr ⟨sound.positive, List.forall_mem_singleton.mpr positive⟩
    · intro j c there _
      exact List.mem_append_left _ (List.mem_of_getElem? there)
    · intro j c there _ k _
      rw [allocated.memory]

theorem free_steps (sound : h.Sound) (there : h.live[i]? = some c) :
    Steps h (some i) (h.free i c) := by
  have member := List.mem_of_getElem? there
  have positive := sound.positive c member
  have mutable := sound.splits.baseline_le (List.mem_append_left _ member) positive
  obtain ⟨start, even⟩ := sound.splits.blocks.aligned c (List.mem_append_left _ member)
  have evolves :=
    Store.release_evolves sound.store (sound.splits.owns member) start even mutable
  refine ⟨⟨evolves.sound, ?_, ?_⟩, ?_, ?_⟩
  · show Store.Splits (h.store.release c.start c.size) (h.live.eraseIdx i)
    have image : ¬ h.store.isReadOnly c.start := by simpa [Store.isReadOnly] using mutable
    rw [Store.release, if_neg image]
    exact (sound.splits.perm (perm_erased there)).release
  · exact fun d rest => sound.positive d (List.mem_of_mem_eraseIdx rest)
  · exact fun j d there' other => mem_erased there' fun same => other (congrArg some same)
  · intro j d there' other k here
    show (h.store.release c.start c.size).memory.get k = _
    rw [Store.memory_release]

theorem fill_steps (sound : h.Sound) (there : h.live[i]? = some c) {m : Memory}
    (outside : ∀ k, k ∉ c.cells → m.get k = h.store.memory.get k) :
    Steps h (some i) { h with store := h.store.withMemory m } := by
  have owns := sound.splits.owns (List.mem_of_getElem? there)
  have evolves := Store.write_evolves sound.store owns outside
  refine ⟨⟨evolves.sound, sound.splits.withMemory m, sound.positive⟩, ?_, ?_⟩
  · exact fun j d there' _ => List.mem_of_getElem? there'
  · intro j d there' other k here
    have apart := sound.apart there there' fun same => other (congrArg some same)
    exact outside k (Set.disjoint_right.mp apart here)

theorem write_steps (sound : h.Sound) (there : h.live[i]? = some c) (offset : Nat)
    (data : ByteArray) : Steps h (some i) (h.write c offset data) := by
  rw [write]
  split
  next fits =>
    refine fill_steps sound there fun k other => ?_
    rw [Memory.get_write, if_neg]
    simp only [Chunk.mem_cells, Chunk.stop] at other
    omega
  next => exact .refl sound _

theorem reallocate_error {e : Error} {s : Store} (i : Nat) (c : Chunk)
    (failed : h.store.allocate size = (.error e, s)) : h.reallocate i c size = h := by
  rw [reallocate, StoreM.reallocate, StoreM.bind_apply, StoreM.allocate, failed]
  cases Store.allocate_error failed
  rfl

/-- The new block is filled before the old one is given back. -/
theorem reallocate_ok {r : Ref} {s : Store} (i : Nat) (c : Chunk)
    (taken : h.store.allocate size = (.ok r, s)) : h.reallocate i c size =
      ⟨(s.withMemory (s.memory.move c.start r (min c.size size))).release c.start c.size,
        h.live.set i ⟨r, size⟩⟩ := by
  rw [reallocate, StoreM.reallocate, StoreM.bind_apply, StoreM.allocate, taken]
  simp only [StoreM.modifyMemory_bind, StoreM.free_bind]
  rfl

theorem reallocate_steps (sound : h.Sound) (there : h.live[i]? = some c) (positive : 0 < size)
    (even : 8 ∣ size) : Steps h (some i) (h.reallocate i c size) := by
  rcases taken : h.store.allocate size with ⟨e | r, s⟩
  · rw [reallocate_error i c taken]
    exact .refl sound _
  rw [reallocate_ok i c taken]
  have allocated := allocate_steps sound positive even
  rw [allocate, StoreM.allocate, taken] at allocated
  -- Between allocation and release both the old and the new block are live.
  let both : Heap := ⟨s, h.live ++ [⟨r, size⟩]⟩
  have second : both.live[h.live.length]? = some ⟨r, size⟩ := List.getElem?_concat_length
  have older {j : Nat} {d : Chunk} (there : h.live[j]? = some d) :
      both.live[j]? = some d ∧ some h.live.length ≠ some j := by
    obtain ⟨low, -⟩ := List.getElem?_eq_some_iff.mp there
    refine ⟨(List.getElem?_append_left low).trans there, fun same => ?_⟩
    cases same
    exact Nat.lt_irrefl _ low
  have filled : Steps both (some h.live.length)
      ⟨s.withMemory (s.memory.move c.start r (min c.size size)), both.live⟩ := by
    refine fill_steps allocated.sound second fun k outside => ?_
    rw [Memory.get_move, if_neg]
    simp only [Chunk.mem_cells, Chunk.stop] at outside
    omega
  have freed := free_steps filled.sound (older there).1
  refine ⟨⟨freed.sound.store, freed.sound.splits.perm ?_, ?_⟩, ?_, ?_⟩
  · have whole : both.live.Perm (c :: h.live.set i ⟨r, size⟩) :=
      (List.perm_append_singleton ..).trans (perm_replaced there)
    exact ((perm_erased (older there).1).symm.trans whole).cons_inv
  · intro d member
    rcases List.mem_or_eq_of_mem_set member with old | rfl
    · exact sound.positive d old
    · exact positive
  · exact fun j d there' other => mem_replaced there' fun same => other (congrArg some same)
  · intro j d there' other k here
    obtain ⟨still, before⟩ := older there'
    rw [← allocated.bytes j d there' nofun k here, ← filled.bytes j d still before k here]
    exact freed.bytes j d still other k here

theorem step_steps {op : Op} (sound : h.Sound) (legal : op.Legal) :
    Steps h op.target? (h.step op) := by
  have at_ {i : Nat} {f : Chunk → Heap}
      (steps : ∀ c, h.live[i]? = some c → Steps h (some i) (f c)) :
      Steps h (some i) (h.live[i]?.elim h f) := by
    cases there : h.live[i]? with
    | none => exact .refl sound _
    | some c => exact steps c there
  cases op with
  | allocate size => exact allocate_steps sound legal.1 legal.2
  | reallocate i size => exact at_ fun c there => reallocate_steps sound there legal.1 legal.2
  | free i => exact at_ fun c there => free_steps sound there
  | write i offset data => exact at_ fun c there => write_steps sound there offset data

theorem run_sound {ops : List Op} (sound : h.Sound) (legal : ∀ op ∈ ops, op.Legal) :
    (h.run ops).Sound := by
  induction ops generalizing h with
  | nil => exact sound
  | cons op ops ih =>
      obtain ⟨first, rest⟩ := List.forall_mem_cons.mp legal
      exact ih (step_steps sound first).sound rest

/-! ### What the owner of a block relies on -/

/-- The live blocks and the free chunks are the slabs, cut into parts. -/
structure Tiles (h : Heap) : Prop where
  apart : (h.live ++ h.store.free).Pairwise fun c d => Disjoint c.cells d.cells
  cells : FreeList.cells (h.live ++ h.store.free) =
    {i | h.store.baseline ≤ i ∧ i < h.store.slabEnd}
  above : ∀ c ∈ h.live, h.store.baseline ≤ c.start
  slab : ∀ c ∈ h.live, ∃ slab ∈ h.store.slabs, c.cells ⊆ slab.cells
  bytes : h.store.slabBytes + h.store.baseline = h.store.slabEnd
  allFree : h.store.isAllFree = true ↔ h.live = []

theorem Sound.tiles (sound : h.Sound) : h.Tiles where
  apart := sound.splits.blocks.apart
  cells := by
    rw [sound.splits.cells, ← sound.splits.span, Nat.add_comm]
    rfl
  above := by
    intro c there
    exact sound.splits.baseline_le (List.mem_append_left _ there) (sound.positive c there)
  slab := by
    intro c there
    have member := List.mem_append_left h.store.free there
    have positive := sound.positive c there
    refine Store.exists_slab (sound.splits.baseline_le member positive)
      (sound.splits.stop_le member positive) positive fun e edge => ?_
    exact sound.splits.uncut c member e (List.contains_iff_mem.mpr edge)
  bytes := sound.splits.span
  allFree := by
    have total := sound.splits.total
    rw [FreeList.total_append] at total
    rw [Store.isAllFree, decide_eq_true_eq, ← FreeList.total_eq_zero sound.positive]
    omega

/-- Nobody but its owner changes a block, and a block that is moved keeps its bytes. -/
structure Safe (h : Heap) : Prop where
  tiles : h.Tiles
  kept : ∀ op : Op, op.Legal → ∀ j c, h.live[j]? = some c → op.target? ≠ some j →
    c ∈ (h.step op).live ∧
      ∀ k ∈ c.cells, (h.step op).store.memory.get k = h.store.memory.get k
  moved : ∀ i c size, 0 < size ∧ 8 ∣ size → h.live[i]? = some c →
    ∀ r s, h.store.allocate size = (.ok r, s) →
      (h.step (.reallocate i size)).live = h.live.set i ⟨r, size⟩ ∧
        ∀ k < min c.size size, (h.step (.reallocate i size)).store.memory.get (r + k) =
          h.store.memory.get (c.start + k)

theorem Sound.safe (sound : h.Sound) : h.Safe where
  tiles := sound.tiles
  kept := by
    intro op legal j c there other
    have steps := step_steps sound legal
    exact ⟨steps.live j c there other, steps.bytes j c there other⟩
  moved := by
    rintro i c size ⟨positive, even⟩ there r s taken
    have allocated := Store.allocate_allocated sound.store even positive taken
    have same : h.step (.reallocate i size) = h.reallocate i c size := by
      rw [step, there, Option.elim_some]
    rw [same, reallocate_ok i c taken]
    refine ⟨rfl, fun k low => ?_⟩
    have inside : r ≤ r + k ∧ r + k < r + min c.size size :=
      ⟨Nat.le_add_right _ _, Nat.add_lt_add_left low r⟩
    rw [Store.memory_release, Store.memory_withMemory, Memory.get_move, if_pos inside,
      allocated.memory, Nat.add_sub_cancel_left]

theorem run_safe {settings : StoreSettings} {ops : List Op} (fresh : Fresh settings h)
    (legal : ∀ op ∈ ops, op.Legal) : (h.run ops).Safe :=
  (run_sound fresh.sound legal).safe

/-- Slabs of 64 bytes and more; the second block is moved to a slab of its own. -/
def twoSlabs : List Op :=
  [.allocate 24, .allocate 16, .write 1 8 ⟨#[7, 8, 9]⟩, .reallocate 1 40, .allocate 8, .free 0]

theorem run_safe_twoSlabs :
    (run ⟨.empty { minSlabSize := 64 }, []⟩ twoSlabs).live = [⟨72, 40⟩, ⟨32, 8⟩] ∧
      (run ⟨.empty { minSlabSize := 64 }, []⟩ twoSlabs).store.memory.get 81 = 8 ∧
      (run ⟨.empty { minSlabSize := 64 }, []⟩ twoSlabs).Safe :=
  ⟨by decide +kernel, by decide +kernel, run_safe .empty (by decide)⟩

end Heap

end ColumnStore
