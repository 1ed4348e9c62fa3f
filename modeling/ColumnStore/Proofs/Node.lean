import ColumnStore.Node.Edit
import ColumnStore.Proofs.Edit
import ColumnStore.Proofs.Memory
import ColumnStore.Proofs.Store

set_option autoImplicit false

/-!
Nodes and the blocks that hold them. A node in the image owns nothing; any other node owns its
block, and an edit may exchange the block for another one.
-/
namespace ColumnStore

theorem Header.even_bytesFor (size width : Nat) (layout : Layout) :
    8 ∣ bytesFor size width layout := ⟨_, Nat.mul_comm _ _⟩

theorem Header.length_le_bytesFor (size width : Nat) (layout : Layout) :
    length + layout.dataSize size width ≤ bytesFor size width layout := by
  rw [bytesFor]
  omega

theorem Header.bytesFor_mono {size size' width width' : Nat} (shorter : size ≤ size')
    (narrower : width ≤ width') (layout : Layout) :
    bytesFor size width layout ≤ bytesFor size' width' layout := by
  have := Nat.mul_le_mul shorter narrower
  rw [bytesFor, bytesFor]
  cases layout <;> simp only [Layout.dataSize] <;> omega

namespace Node

open Store (Evolves Allocated)

/-- The addresses a node owns. -/
def region (base : Nat) (n : Node) : Set Nat := if n.ref < base then ∅ else block n.ref n.capacity

/-- No block is smaller: a node is created with more, and copied with spare bytes. -/
def minCapacity : Nat := Header.length + copySlack

/-- The node is what its header in memory says, and its block has room for it. -/
structure Stored (m : Memory) (base : Nat) (n : Node) : Prop where
  loaded : m.header n.ref = n.head
  aligned : 8 ∣ n.ref
  positive : 0 < n.ref
  bound : n.ref < Store.addressSpace
  fits : n.byteSize ≤ Header.maxCapacity
  image : n.ref < base → n.ref + n.byteSize ≤ base
  room : base ≤ n.ref → n.byteSize ≤ n.capacity
  even : base ≤ n.ref → 8 ∣ n.capacity
  slack : base ≤ n.ref → minCapacity ≤ n.capacity

structure Live (s : Store) (n : Node) : Prop where
  sound : s.Sound
  owns : s.Owns (n.region s.baseline)
  stored : n.Stored s.memory s.baseline

variable {s s' s'' : Store} {n n' n'' : Node} {m m' : Memory} {base : Nat}

theorem region_image (image : n.ref < base) : n.region base = ∅ := if_pos image

theorem region_mutable (mutable : base ≤ n.ref) : n.region base = block n.ref n.capacity :=
  if_neg (Nat.not_lt_of_le mutable)

theorem length_le_byteSize (n : Node) : Header.length ≤ n.byteSize :=
  Nat.le_trans (Nat.le_add_right _ _) (Header.length_le_bytesFor ..)

theorem Stored.legal (stored : n.Stored m base) : n.width ∈ Width.legal := by
  rw [width, ← stored.loaded]
  exact m.width_header n.ref

theorem Stored.size_lt (stored : n.Stored m base) : n.size < 2 ^ 24 := by
  rw [size, ← stored.loaded]
  exact m.size_header n.ref

theorem Stored.capacity_lt (stored : n.Stored m base) : n.capacity < 2 ^ 24 := by
  rw [capacity, ← stored.loaded]
  exact m.capacity_header n.ref

theorem Stored.capacity_le (stored : n.Stored m base) (mutable : base ≤ n.ref) :
    n.capacity ≤ Header.maxCapacity := by
  have := stored.capacity_lt
  have := stored.even mutable
  rw [Header.maxCapacity]
  omega

theorem Stored.load (stored : n.Stored m base) : Node.load m n.ref = n := by
  rw [Node.load, stored.loaded]

/-- The bytes a node is read from. -/
def bytes (n : Node) : Set Nat := block n.ref n.byteSize

theorem Stored.congr (stored : n.Stored m base) (same : ∀ i ∈ n.bytes, m'.get i = m.get i) :
    n.Stored m' base where
  loaded := by
    rw [← stored.loaded]
    apply Memory.header_congr
    intro i inside
    have := n.length_le_byteSize
    exact same _ ⟨Nat.le_add_right _ _, by omega⟩
  aligned := stored.aligned
  positive := stored.positive
  bound := stored.bound
  fits := stored.fits
  image := stored.image
  room := stored.room
  even := stored.even
  slack := stored.slack

theorem Stored.bytes_subset (stored : n.Stored m base) (mutable : base ≤ n.ref) :
    n.bytes ⊆ n.region base := by
  rw [region_mutable mutable]
  intro i inside
  have := stored.room mutable
  exact ⟨inside.1, Nat.lt_of_lt_of_le inside.2 (Nat.add_le_add_left this _)⟩

theorem Stored.ref_mem (stored : n.Stored m base) (mutable : base ≤ n.ref) :
    n.ref ∈ n.region base :=
  stored.bytes_subset mutable
    ⟨Nat.le_refl _, Nat.lt_add_of_pos_right (Nat.lt_of_lt_of_le (by decide) n.length_le_byteSize)⟩

theorem Stored.of_mutable (mutable : base ≤ n.ref) (loaded : m.header n.ref = n.head)
    (aligned : 8 ∣ n.ref) (positive : 0 < n.ref) (bound : n.ref < Store.addressSpace)
    (room : n.byteSize ≤ n.capacity) (small : n.capacity ≤ Header.maxCapacity)
    (even : 8 ∣ n.capacity) (slack : minCapacity ≤ n.capacity) : n.Stored m base where
  loaded := loaded
  aligned := aligned
  positive := positive
  bound := bound
  slack := fun _ => slack
  fits := Nat.le_trans room small
  image := fun image => absurd mutable (Nat.not_le_of_lt image)
  room := fun _ => room
  even := fun _ => even

/-- A computation that owns other addresses leaves the bytes of a node alone. -/
theorem Live.untouched {mine mine' : Set Nat} (live : Live s n) (owns : s.Owns mine)
    (apart : Disjoint mine (n.region s.baseline)) (step : Evolves s mine s' mine') :
    ∀ i ∈ n.bytes, s'.memory.get i = s.memory.get i := by
  intro i inside
  -- Nothing is written to the image, and above it the bytes are owned by the node.
  by_cases image : n.ref < s.baseline
  · have := live.stored.image image
    exact step.image live.sound owns (Nat.lt_of_lt_of_le inside.2 this)
  · exact step.same live.owns apart (live.stored.bytes_subset (Nat.le_of_not_lt image) inside)

theorem Live.frame {mine mine' : Set Nat} (live : Live s n) (owns : s.Owns mine)
    (apart : Disjoint mine (n.region s.baseline)) (step : Evolves s mine s' mine') :
    Live s' n := by
  constructor
  · exact step.sound
  · rw [step.baseline]
    exact step.still_owns live.owns apart
  · rw [step.baseline]
    exact live.stored.congr (live.untouched owns apart step)

/-- The bytes of the elements. -/
def payload (n : Node) : Set Nat := block n.data (n.byteSize - Header.length)

theorem mem_payload {i : Nat} :
    i ∈ n.payload ↔ Header.length ≤ i - n.ref ∧ i - n.ref < n.byteSize := by
  have := n.length_le_byteSize
  rw [Header.length] at this
  simp only [payload, data, mem_block, Header.length]
  omega

theorem payload_subset (n : Node) : n.payload ⊆ n.bytes := by
  intro i inside
  have := n.length_le_byteSize
  simp only [payload, bytes, data, mem_block] at inside ⊢
  omega

/-! ### New nodes and freed ones -/

theorem create_ok {role : Role} {layout : Layout} {width : Nat} (sound : s.Sound)
    (legal : width ∈ Width.legal) (run : create role layout width s = (.ok n, s')) :
    Live s' n ∧ s'.baseline ≤ n.ref ∧ n.head = Header.new role layout width ∧
      Evolves s ∅ s' (n.region s'.baseline) := by
  simp only [create, StoreM.bind_ok, StoreM.modifyMemory_bind, StoreM.pure_ok] at run
  obtain ⟨r, t, allocation, node, store⟩ := run
  have allocated := Store.allocate_allocated sound (by decide) (by decide) allocation
  have ref : n.ref = r := by rw [← node]
  have head : n.head = Header.new role layout width := by rw [← node]
  have mutable : t.baseline ≤ n.ref := by
    rw [allocated.evolves.baseline, ref]
    exact allocated.mutable
  have region : n.region t.baseline = block r Header.initialCapacity := by
    rw [region_mutable mutable, ref, capacity, head]
    rfl
  have step : Evolves t (block r Header.initialCapacity) s' (block r Header.initialCapacity) := by
    rw [← store]
    apply Store.write_evolves allocated.evolves.sound allocated.evolves.owns
    intro i outside
    rw [Header.initialCapacity, mem_block] at outside
    rw [Memory.get_setHeader _ (by omega)]
  have baseline : s'.baseline = t.baseline := step.baseline
  have loaded : s'.memory.header n.ref = n.head := by
    rw [← store, Store.memory_withMemory, ref, head]
    exact Memory.header_setHeader _ _ _ legal (show 0 < 2 ^ 24 by decide) (show 128 < 2 ^ 24 by decide)
  have empty : n.byteSize = Header.length := by
    rw [byteSize, head]
    cases layout <;> simp [Header.byteSize, Header.new, Header.bytesFor, Layout.dataSize,
      Header.length]
  rw [← baseline] at region mutable
  refine ⟨⟨step.sound, region ▸ step.owns, ?_⟩, mutable, head, ?_⟩
  · refine .of_mutable mutable loaded (ref ▸ allocated.start) (ref ▸ allocated.positive sound)
      (ref ▸ allocated.bound (by decide)) ?_ ?_ ?_ ?_
    · rw [empty, capacity, head]
      show 8 ≤ 128
      decide
    · rw [capacity, head]
      show 128 ≤ Header.maxCapacity
      decide
    · rw [capacity, head]
      show 8 ∣ 128
      decide
    · rw [capacity, head]
      show minCapacity ≤ 128
      decide
  · rw [region]
    exact allocated.evolves.trans step

theorem destroy_ok (live : Live s n) : Evolves s (n.region s.baseline) (s.release n.ref n.footprint) ∅ := by
  by_cases image : n.ref < s.baseline
  · rw [region_image image]
    exact Store.releaseReadOnly_evolves n.footprint live.sound (Store.owns_empty s) (decide_eq_true image)
  · have mutable := Nat.le_of_not_lt image
    -- A mutable node is released with its capacity, not with its size in bytes.
    have whole : n.footprint = n.capacity := Nat.max_eq_left (live.stored.room mutable)
    have owns := live.owns
    rw [region_mutable mutable] at owns ⊢
    rw [whole]
    exact Store.release_evolves live.sound owns live.stored.aligned (live.stored.even mutable) mutable

end Node

end ColumnStore
