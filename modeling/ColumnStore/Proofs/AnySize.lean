import ColumnStore.Proofs.Blocks
import ColumnStore.Proofs.Node

set_option autoImplicit false

/-!
Edits that move a node or change its header. They go by the numbers that they know of the node, of
which the header in memory keeps only the low bits: the block has room for all elements, and they
are moved as a whole. A node whose size fits the header is in memory what the edit knows.
-/
namespace ColumnStore

/-- What memory keeps of a header: of size and capacity three bytes each. -/
def Header.wrap (h : Header) : Header :=
  { h with size := h.size % 2 ^ 24, capacity := h.capacity % 2 ^ 24 }

theorem Header.wrap_of_lt {h : Header} (size : h.size < 2 ^ 24) (capacity : h.capacity < 2 ^ 24) :
    h.wrap = h := by
  rw [wrap, Nat.mod_eq_of_lt size, Nat.mod_eq_of_lt capacity]

theorem StoreM.reallocate_error {r : Ref} {oldSize newSize : Nat} {s s' : Store} {e : Error}
    (run : StoreM.reallocate r oldSize newSize s = (.error e, s')) : s' = s := by
  rw [StoreM.reallocate, StoreM.bind_apply] at run
  rcases allocation : StoreM.allocate newSize s with ⟨e' | target, t⟩
  · rw [allocation] at run
    cases run
    exact Store.allocate_error allocation
  · rw [allocation] at run
    cases run

namespace Node

open Store (Evolves Allocated)

variable {s s' : Store} {n n' : Node} {m : Memory} {base : Nat} {e : Error}

/-! ### What copies and room come to -/

/-- The block that a node is copied to out of the image. -/
def copyCapacity (n : Node) : Nat :=
  max (min (n.byteSize + copySlack) Header.maxCapacity) n.byteSize

theorem copyCapacity_correct (n : Node) :
    n.byteSize ≤ n.copyCapacity ∧ minCapacity ≤ n.copyCapacity ∧ 8 ∣ n.copyCapacity ∧
      (n.byteSize ≤ Header.maxCapacity → n.copyCapacity ≤ Header.maxCapacity) := by
  have whole := n.length_le_byteSize
  have bytes : 8 ∣ n.byteSize := Header.even_bytesFor ..
  rw [Header.length] at whole
  -- The slack is cut off at the largest capacity, but the node itself always fits.
  rw [copyCapacity, minCapacity, copySlack, Header.length, Header.maxCapacity]
  omega

theorem grownCapacity_correct (capacity : Nat) {needed : Nat} (fits : needed ≤ Header.maxCapacity) :
    needed ≤ grownCapacity capacity needed ∧
      grownCapacity capacity needed ≤ Header.maxCapacity ∧ 8 ∣ grownCapacity capacity needed := by
  rw [Header.maxCapacity] at fits
  rw [grownCapacity, Store.roundUp8, Header.maxCapacity]
  omega

theorem copyOnWrite_mutable (mutable : s.baseline ≤ n.ref) :
    copyOnWrite (n, s) = (.ok (), (n, s)) := by
  have : ¬ s.isReadOnly n.ref := by simpa [Store.isReadOnly] using mutable
  simp only [copyOnWrite, Edit.self_bind, Edit.isReadOnly_bind]
  rw [if_neg this]
  rfl

theorem copyOnWrite_cases (run : copyOnWrite (n, s) = (.ok (), (n', s'))) :
    (s.baseline ≤ n.ref ∧ n' = n ∧ s' = s) ∨
      (n.ref < s.baseline ∧ ∃ r t m, s.allocate n.copyCapacity = (.ok r, t) ∧
        n' = ⟨r, { n.head with capacity := n.copyCapacity }⟩ ∧
        m = (t.memory.move n.ref r n.byteSize).setHeaderCapacity r n.copyCapacity ∧
        s' = (t.withMemory m).release n.ref n.footprint) := by
  by_cases image : n.ref < s.baseline
  · right
    simp only [copyOnWrite, Edit.self_bind, Edit.isReadOnly_bind] at run
    rw [if_pos (by simpa [Store.isReadOnly] using image)] at run
    simp only [Edit.lift_bind_ok, Edit.modifyMemory_bind, Edit.put_bind, Edit.free_apply] at run
    obtain ⟨r, t, allocation, result⟩ := run
    cases result
    exact ⟨image, r, t, _, allocation, rfl, rfl, rfl⟩
  · left
    have mutable := Nat.le_of_not_lt image
    cases (copyOnWrite_mutable mutable).symm.trans run
    exact ⟨mutable, rfl, rfl⟩

theorem copyOnWrite_error (run : copyOnWrite (n, s) = (.error e, (n', s'))) : n' = n ∧ s' = s := by
  by_cases image : n.ref < s.baseline
  · simp only [copyOnWrite, Edit.self_bind, Edit.isReadOnly_bind] at run
    rw [if_pos (by simpa [Store.isReadOnly] using image)] at run
    rcases Edit.bind_error.mp run with failed | ⟨r, q, -, failed⟩
    · obtain ⟨same, failed⟩ := Edit.lift_error.mp failed
      exact ⟨same, Store.allocate_error failed⟩
    · cases failed
  · cases (copyOnWrite_mutable (Nat.le_of_not_lt image)).symm.trans run

/-- Either there is room, or the block is exchanged for a larger one; then the header is written. -/
theorem reserve_cases {count width : Nat} (run : reserve count width (n, s) = (.ok (), (n', s'))) :
    ∃ t m, m = (t.memory.setHeaderWidth n'.ref width).setHeaderSize n'.ref count ∧
      s' = t.withMemory m ∧
      ((Header.bytesFor count width n.head.layout ≤ n.capacity ∧ n' = n ∧ t = s) ∨
        ∃ needed capacity r u, Header.bytesFor count width n.head.layout = needed ∧
          n.capacity < needed ∧ needed ≤ Header.maxCapacity ∧
          grownCapacity n.capacity needed = capacity ∧
          StoreM.reallocate n.ref n.byteSize capacity s = (.ok r, u) ∧
          n' = ⟨r, { n.head with capacity }⟩ ∧
          t = u.withMemory (u.memory.setHeaderCapacity r capacity)) := by
  simp only [reserve, Edit.self_bind] at run
  by_cases grows : n.capacity < Header.bytesFor count width n.head.layout
  · rw [if_pos grows] at run
    by_cases large : Header.maxCapacity < Header.bytesFor count width n.head.layout
    · rw [if_pos large] at run
      simp only [Edit.throw_bind] at run
      cases run
    · rw [if_neg large] at run
      simp only [Edit.lift_bind_ok, Edit.put_bind, Edit.modifyMemory_bind, Edit.self_bind,
        Edit.modifyMemory_apply] at run
      obtain ⟨r, u, moved, result⟩ := run
      cases result
      exact ⟨_, _, rfl, rfl, .inr ⟨_, _, r, u, rfl, grows, Nat.le_of_not_lt large, rfl, moved, rfl, rfl⟩⟩
  · rw [if_neg grows] at run
    simp only [Edit.self_bind, Edit.modifyMemory_apply] at run
    cases run
    exact ⟨s, _, rfl, rfl, .inl ⟨Nat.le_of_not_lt grows, rfl, rfl⟩⟩

theorem reserve_error {count width : Nat}
    (run : reserve count width (n, s) = (.error e, (n', s'))) : n' = n ∧ s' = s := by
  simp only [reserve, Edit.self_bind] at run
  by_cases grows : n.capacity < Header.bytesFor count width n.head.layout
  · rw [if_pos grows] at run
    by_cases large : Header.maxCapacity < Header.bytesFor count width n.head.layout
    · rw [if_pos large] at run
      simp only [Edit.throw_bind] at run
      cases run
      exact ⟨rfl, rfl⟩
    · rw [if_neg large] at run
      rcases Edit.bind_error.mp run with failed | ⟨r, q, -, failed⟩
      · obtain ⟨same, failed⟩ := Edit.lift_error.mp failed
        exact ⟨same, StoreM.reallocate_error failed⟩
      · cases failed
  · rw [if_neg grows] at run
    cases run

/-! ### Nodes as an edit knows them -/

/-- The header in memory says what the edit knows, and a node of the image is there as a whole. -/
structure Agrees (s : Store) (n : Node) : Prop where
  sound : s.Sound
  header : s.memory.header n.ref = n.head.wrap
  image : n.ref < s.baseline → n.ref + n.byteSize ≤ s.baseline

/-- A node that lies in the image, or owns a block that has room for all its elements. -/
structure Held (s : Store) (n : Node) : Prop extends Agrees s n where
  owns : s.Owns (n.region s.baseline)
  room : s.baseline ≤ n.ref → n.byteSize ≤ n.capacity
  aligned : s.baseline ≤ n.ref → 8 ∣ n.ref

/-- The block is one that a node can be loaded from. -/
structure Regular (base : Nat) (n : Node) : Prop where
  aligned : 8 ∣ n.ref
  positive : 0 < n.ref
  bound : n.ref < Store.addressSpace
  fits : n.byteSize ≤ Header.maxCapacity
  capacity_lt : n.capacity < 2 ^ 24
  even : base ≤ n.ref → 8 ∣ n.capacity
  slack : base ≤ n.ref → minCapacity ≤ n.capacity

theorem Agrees.legal (agrees : Agrees s n) : n.width ∈ Width.legal := by
  have width : n.width = (s.memory.header n.ref).width := by rw [agrees.header]; rfl
  rw [width]
  exact s.memory.width_header n.ref

theorem Agrees.held (agrees : Agrees s n) (below : n.ref < s.baseline) : Held s n where
  toAgrees := agrees
  -- A node of the image has nothing to own.
  owns := region_image below ▸ s.owns_empty
  room mutable := absurd below (Nat.not_lt_of_le mutable)
  aligned mutable := absurd below (Nat.not_lt_of_le mutable)

theorem agrees_load {r : Ref} (sound : s.Sound)
    (inside : r + (load s.memory r).byteSize ≤ s.baseline) : Agrees s (load s.memory r) where
  sound := sound
  header := (Header.wrap_of_lt (s.memory.size_header r) (s.memory.capacity_header r)).symm
  image _ := inside

theorem Live.held (live : Live s n) : Held s n where
  sound := live.sound
  owns := live.owns
  header := by
    rw [live.stored.loaded, Header.wrap_of_lt live.stored.size_lt live.stored.capacity_lt]
  image := live.stored.image
  room := live.stored.room
  aligned _ := live.stored.aligned

theorem Live.regular (live : Live s n) : n.Regular s.baseline where
  aligned := live.stored.aligned
  positive := live.stored.positive
  bound := live.stored.bound
  fits := live.stored.fits
  capacity_lt := live.stored.capacity_lt
  even := live.stored.even
  slack := live.stored.slack

/-- The header can hold the size, so it says all that the edit knows. -/
theorem Held.live (held : Held s n) (regular : n.Regular s.baseline) (small : n.size < 2 ^ 24) :
    Live s n where
  sound := held.sound
  owns := held.owns
  stored :=
    { regular with
      loaded := held.header.trans (Header.wrap_of_lt small regular.capacity_lt)
      image := held.image
      room := held.room }

theorem Regular.capacity_le (regular : n.Regular base) (mutable : base ≤ n.ref) :
    n.capacity ≤ Header.maxCapacity := by
  have := regular.capacity_lt
  have := regular.even mutable
  rw [Header.maxCapacity]
  omega

theorem Regular.rehead {h : Header} (regular : n.Regular base) (mutable : base ≤ n.ref)
    (same : h.capacity = n.capacity) (room : h.byteSize ≤ n.capacity) :
    Regular base ⟨n.ref, h⟩ where
  aligned := regular.aligned
  positive := regular.positive
  bound := regular.bound
  fits := Nat.le_trans room (regular.capacity_le mutable)
  capacity_lt := lt_of_eq_of_lt same regular.capacity_lt
  even _ := by
    rw [Node.capacity, same]
    exact regular.even mutable
  slack _ := le_of_le_of_eq (regular.slack mutable) same.symm

theorem Regular.moved {capacity : Nat} {r : Ref} {t : Store} (regular : n.Regular base)
    (allocated : Allocated s capacity r t) (sound : s.Sound) (even : 8 ∣ capacity)
    (slack : minCapacity ≤ capacity) (small : capacity ≤ Header.maxCapacity) :
    Regular base ⟨r, { n.head with capacity }⟩ where
  aligned := allocated.start
  positive := allocated.positive sound
  bound := allocated.bound (Nat.lt_of_lt_of_le (by decide) slack)
  fits := regular.fits
  capacity_lt := Nat.lt_of_le_of_lt small (by decide)
  even _ := even
  slack _ := slack

theorem Held.bytes_subset (held : Held s n) (mutable : s.baseline ≤ n.ref) :
    n.bytes ⊆ n.region s.baseline := by
  rw [region_mutable mutable]
  intro i inside
  have := held.room mutable
  exact ⟨inside.1, Nat.lt_of_lt_of_le inside.2 (Nat.add_le_add_left this _)⟩

theorem Held.write (held : Held s n) (mutable : s.baseline ≤ n.ref)
    (kept : ∀ i, i ∉ n.payload → m.get i = s.memory.get i) :
    Held (s.withMemory m) n ∧
      Evolves s (n.region s.baseline) (s.withMemory m) (n.region s.baseline) := by
  have step : Evolves s (n.region s.baseline) (s.withMemory m) (n.region s.baseline) := by
    apply Store.write_evolves held.sound held.owns
    intro i outside
    exact kept i fun h => outside (held.bytes_subset mutable (n.payload_subset h))
  refine ⟨⟨⟨step.sound, ?_, held.image⟩, step.owns, held.room, held.aligned⟩, step⟩
  rw [← held.header]
  apply Memory.header_congr
  intro i inside
  apply kept
  rw [mem_payload]
  omega

theorem Held.rehead {h : Header} (held : Held s n) (mutable : s.baseline ≤ n.ref)
    (kept : ∀ i, i ∉ block n.ref Header.length → m.get i = s.memory.get i)
    (header : m.header n.ref = h.wrap) (same : h.capacity = n.capacity)
    (room : h.byteSize ≤ n.capacity) :
    Held (s.withMemory m) ⟨n.ref, h⟩ ∧
      Evolves s (n.region s.baseline) (s.withMemory m)
        (region (s.withMemory m).baseline ⟨n.ref, h⟩) := by
  have region : region s.baseline ⟨n.ref, h⟩ = n.region s.baseline := by
    rw [region_mutable mutable, ← same]
    exact region_mutable mutable
  have step : Evolves s (n.region s.baseline) (s.withMemory m) (n.region s.baseline) := by
    apply Store.write_evolves held.sound held.owns
    intro i outside
    apply kept
    intro inside
    have whole := Nat.le_trans n.length_le_byteSize (held.room mutable)
    rw [region_mutable mutable] at outside
    exact outside ⟨inside.1, Nat.lt_of_lt_of_le inside.2 (Nat.add_le_add_left whole _)⟩
  rw [Store.baseline_withMemory, region]
  have readOnly : ¬ n.ref < s.baseline := Nat.not_lt_of_le mutable
  refine ⟨⟨⟨step.sound, header, fun image => absurd image readOnly⟩, ?_,
    fun _ => le_of_le_of_eq room same.symm, held.aligned⟩, step⟩
  rw [Store.baseline_withMemory, region]
  exact step.owns

theorem Held.release {r : Ref} {size : Nat} {mine mine' : Set Nat} (held : Held s n)
    (released : Evolves s mine (s.release r size) mine')
    (owns : (s.release r size).Owns (n.region s.baseline)) : Held (s.release r size) n := by
  refine ⟨⟨released.sound, ?_, ?_⟩, ?_, ?_, ?_⟩
  · rw [Store.memory_release]
    exact held.header
  · rw [released.baseline]
    exact held.image
  · rw [released.baseline]
    exact owns
  · rw [released.baseline]
    exact held.room
  · rw [released.baseline]
    exact held.aligned

/-! ### Copies -/

/-- The bytes behind the header are those of the old block. -/
def SameData (m : Memory) (n : Node) (m' : Memory) (n' : Node) : Prop :=
  ∀ k, Header.length + k < n.byteSize → m'.get (n'.data + k) = m.get (n.data + k)

/-- The node may have moved, with the bytes of its elements. -/
structure Moved (s : Store) (n : Node) (s' : Store) (n' : Node) : Prop where
  held : Held s' n'
  mutable : s'.baseline ≤ n'.ref
  head : n'.head = { n.head with capacity := n'.capacity }
  data : SameData s.memory n s'.memory n'
  evolves : Evolves s (n.region s.baseline) s' (n'.region s'.baseline)
  regular : n.Regular s.baseline → n'.Regular s'.baseline

theorem get_move_outside (m : Memory) {source target used capacity room i : Nat}
    (fits : used ≤ room) (header : Header.length ≤ used) (outside : i ∉ block target room) :
    ((m.move source target used).setHeaderCapacity target capacity).get i = m.get i := by
  rw [Header.length] at header
  rw [mem_block] at outside
  rw [Memory.get_setHeaderCapacity _ (by omega), Memory.get_move, if_neg (by omega)]

theorem get_move_data (m : Memory) {source target used capacity k : Nat}
    (inside : Header.length + k < used) :
    ((m.move source target used).setHeaderCapacity target capacity).get
      (target + Header.length + k) = m.get (source + Header.length + k) := by
  rw [Header.length] at inside ⊢
  rw [Memory.get_setHeaderCapacity _ (by omega), Memory.get_move, if_pos (by omega)]
  congr 1
  omega

theorem moved_to {capacity : Nat} {r : Ref} {t : Store} (allocated : Allocated s capacity r t)
    (header : s.memory.header n.ref = n.head.wrap) (room : n.byteSize ≤ capacity)
    (known : n' = ⟨r, { n.head with capacity }⟩)
    (memory : m = (t.memory.move n.ref r n.byteSize).setHeaderCapacity r capacity) :
    Held (t.withMemory m) n' ∧ SameData s.memory n m n' ∧ n'.region t.baseline = block r capacity ∧
      Evolves s ∅ (t.withMemory m) (block r capacity) := by
  have ref : n'.ref = r := by rw [known]
  have head : n'.head = { n.head with capacity } := by rw [known]
  have grown : n'.capacity = capacity := by rw [Node.capacity, head]
  have byteSize : n'.byteSize = n.byteSize := by rw [Node.byteSize, head]; rfl
  have mutable : t.baseline ≤ n'.ref := by
    rw [ref, allocated.evolves.baseline]
    exact allocated.mutable
  have whole := n.length_le_byteSize
  -- The header moves along with the elements, and just its capacity is written anew.
  have same : (t.memory.move n.ref r n.byteSize).header r = n.head.wrap := by
    rw [← header, allocated.memory]
    apply Memory.header_congr
    intro i inside
    rw [Memory.get_move, if_pos (by omega), Nat.add_sub_cancel_left]
  have step : Evolves t (block r capacity) (t.withMemory m) (block r capacity) := by
    apply Store.write_evolves allocated.evolves.sound allocated.evolves.owns
    intro i outside
    rw [memory, get_move_outside _ room whole outside]
  have region : n'.region t.baseline = block r capacity := by
    rw [region_mutable mutable, ref, grown]
  refine ⟨⟨⟨step.sound, ?_, ?_⟩, ?_, ?_, ?_⟩, ?_, region, allocated.evolves.trans step⟩
  · rw [Store.memory_withMemory, memory, ref, Memory.header_setHeaderCapacity, same, head]
    rfl
  · exact fun image => absurd mutable (Nat.not_le_of_lt image)
  · rw [Store.baseline_withMemory, region]
    exact step.owns
  · exact fun _ => byteSize ▸ grown ▸ room
  · exact fun _ => ref ▸ allocated.start
  · intro k inside
    rw [memory, data, ref, allocated.memory]
    exact get_move_data _ inside

theorem copyOnWrite_moved (held : Held s n) (run : copyOnWrite (n, s) = (.ok (), (n', s'))) :
    Moved s n s' n' := by
  rcases copyOnWrite_cases run with
    ⟨mutable, rfl, rfl⟩ | ⟨image, r, t, m, allocation, known, memory, rfl⟩
  · exact ⟨held, mutable, rfl, fun _ _ => rfl, .refl held.sound held.owns, id⟩
  · obtain ⟨room, slack, even, small⟩ := n.copyCapacity_correct
    have positive : 0 < n.copyCapacity := Nat.lt_of_lt_of_le (by decide) slack
    have allocated := Store.allocate_allocated held.sound even positive allocation
    obtain ⟨moved, data, region, evolved⟩ := moved_to allocated held.header room known memory
    have baseline : (t.withMemory m).baseline = s.baseline := evolved.baseline
    have readOnly : (t.withMemory m).isReadOnly n.ref = true := by
      rw [Store.isReadOnly, baseline]
      exact decide_eq_true image
    -- Nothing of the image is freed, so the copy is all that changes hands.
    have released := Store.releaseReadOnly_evolves n.footprint evolved.sound evolved.owns readOnly
    have mutable : s.baseline ≤ n'.ref := by
      rw [known]
      exact allocated.mutable
    refine ⟨moved.release released ?_, ?_, ?_, ?_, ?_, ?_⟩
    · rw [Store.baseline_withMemory, region]
      exact released.owns
    · rw [released.baseline, baseline]
      exact mutable
    · rw [known]
    · rw [Store.memory_release]
      exact data
    · rw [region_image image, released.baseline, Store.baseline_withMemory, region]
      exact evolved.trans released
    · intro regular
      rw [released.baseline, baseline, known]
      exact regular.moved allocated held.sound even slack (small regular.fits)

theorem reallocate_moved {capacity : Nat} {r : Ref} {u : Store} (held : Held s n)
    (mutable : s.baseline ≤ n.ref) (room : n.byteSize ≤ capacity) (even : 8 ∣ capacity)
    (longer : n.capacity ≤ capacity) (small : capacity ≤ Header.maxCapacity)
    (run : StoreM.reallocate n.ref n.byteSize capacity s = (.ok r, u)) :
    Moved s n (u.withMemory (u.memory.setHeaderCapacity r capacity))
      ⟨r, { n.head with capacity }⟩ := by
  have positive : 0 < capacity :=
    Nat.lt_of_lt_of_le (Nat.lt_of_lt_of_le (by decide) n.length_le_byteSize) room
  simp only [StoreM.reallocate, StoreM.bind_ok, StoreM.modifyMemory_bind, StoreM.free_bind,
    StoreM.pure_ok, Nat.min_eq_left room] at run
  obtain ⟨r, t, allocation, rfl, rfl⟩ := run
  have allocated := Store.allocate_allocated held.sound even positive allocation
  obtain ⟨moved, data, region, step⟩ := moved_to allocated held.header room rfl rfl
  simp only [Store.memory_release, Store.memory_withMemory, Store.withMemory_release,
    Store.withMemory_withMemory]
  generalize (t.memory.move n.ref r n.byteSize).setHeaderCapacity r capacity = m at moved data step ⊢
  have baseline : (t.withMemory m).baseline = s.baseline := step.baseline
  have freed : block n.ref n.byteSize ⊆ n.region s.baseline := held.bytes_subset mutable
  have nothing : Disjoint ∅ (n.region s.baseline) := Set.empty_disjoint _
  have fresh := step.apart held.owns nothing
  have evolved := step.frame held.owns nothing
  rw [Set.empty_union] at evolved
  -- Of the old block only the bytes in use are released; the rest stays allocated for good.
  have both : block n.ref n.byteSize ∪ block r capacity ⊆
      block r capacity ∪ n.region s.baseline :=
    Set.union_subset (freed.trans Set.subset_union_right) Set.subset_union_left
  have evolved := evolved.forget both
  have owned := Store.owns_union.mp evolved.owns
  have apart : Disjoint (block n.ref n.byteSize) (block r capacity) :=
    (fresh.mono_right freed).symm
  have released := Store.release_evolves evolved.sound owned.1 (held.aligned mutable)
    (Header.even_bytesFor ..) (baseline ▸ mutable)
  have last := released.frame owned.2 apart
  rw [Set.empty_union] at last
  refine ⟨moved.release released ?_, ?_, rfl, ?_, ?_, ?_⟩
  · rw [Store.baseline_withMemory, region]
    exact last.owns
  · rw [released.baseline, baseline]
    exact allocated.mutable
  · rw [Store.memory_release]
    exact data
  · rw [released.baseline, Store.baseline_withMemory, region]
    exact evolved.trans last
  · intro regular
    rw [released.baseline, baseline]
    have slack := Nat.le_trans (regular.slack mutable) longer
    exact regular.moved allocated held.sound even slack small

/-! ### Room for more elements -/

/-- Room was made for `count` elements at `width`. The edit knows the node `n'` still with the old
size and width; `g` is the node that the header was written for. -/
structure Reserved (s : Store) (n : Node) (count width : Nat) (s' : Store) (n' g : Node) : Prop where
  held : Held s' g
  mutable : s'.baseline ≤ g.ref
  known : n' = ⟨g.ref, { n.head with capacity := g.capacity }⟩
  head : g.head = { n.head with capacity := g.capacity, width, size := count }
  data : SameData s.memory n s'.memory g
  evolves : Evolves s (n.region s.baseline) s' (g.region s'.baseline)
  regular : n.Regular s.baseline → g.Regular s'.baseline

theorem resized {count width : Nat} (held : Held s n) (mutable : s.baseline ≤ n.ref)
    (legal : width ∈ Width.legal) (room : Header.bytesFor count width n.head.layout ≤ n.capacity)
    (memory : m = (s.memory.setHeaderWidth n.ref width).setHeaderSize n.ref count) :
    Reserved s n count width (s.withMemory m) n ⟨n.ref, { n.head with width, size := count }⟩ := by
  have kept (i : Nat) (outside : i ∉ block n.ref Header.length) : m.get i = s.memory.get i := by
    rw [mem_block, Header.length] at outside
    rw [memory, Memory.get_setHeaderSize _ (by omega), Memory.get_setHeaderWidth _ (by omega)]
  have header : m.header n.ref = Header.wrap { n.head with width, size := count } := by
    rw [memory, Memory.header_setHeaderSize, Memory.header_setHeaderWidth _ _ _ legal, held.header]
    rfl
  obtain ⟨reheaded, step⟩ := held.rehead mutable kept header rfl room
  refine ⟨reheaded, mutable, rfl, rfl, ?_, step, fun regular => regular.rehead mutable rfl room⟩
  intro k inside
  -- What is behind the header was not written.
  apply kept
  intro header
  have := header.2
  dsimp only [data] at this
  omega

theorem reserve_reserved {count width : Nat} (held : Held s n) (mutable : s.baseline ≤ n.ref)
    (legal : width ∈ Width.legal) (run : reserve count width (n, s) = (.ok (), (n', s'))) :
    ∃ g, Reserved s n count width s' n' g := by
  obtain ⟨t, m, memory, rfl, ⟨room, rfl, rfl⟩ |
    ⟨needed, capacity, r, u, same, grows, small, chosen, moves, rfl, rfl⟩⟩ := reserve_cases run
  · exact ⟨_, resized held mutable legal room memory⟩
  · have bounds := grownCapacity_correct n.capacity small
    rw [chosen] at bounds
    obtain ⟨enough, top, even⟩ := bounds
    have longer : n.capacity ≤ capacity := Nat.le_trans (Nat.le_of_lt grows) enough
    have room : n.byteSize ≤ capacity := Nat.le_trans (held.room mutable) longer
    -- First the move to the larger block, then the header, as if there had been room before.
    have moved := reallocate_moved held mutable room even longer top moves
    generalize u.withMemory (u.memory.setHeaderCapacity r capacity) = v at moved memory ⊢
    have resized := resized moved.held moved.mutable legal (same ▸ enough) memory
    refine ⟨_, resized.held, resized.mutable, rfl, rfl, ?_, moved.evolves.trans resized.evolves,
      resized.regular ∘ moved.regular⟩
    exact fun k inside => (resized.data k inside).trans (moved.data k inside)

/-! ### Nodes that fit their headers -/

theorem Live.write (live : Live s n) (mutable : s.baseline ≤ n.ref)
    (kept : ∀ i, i ∉ n.payload → m.get i = s.memory.get i) :
    Live (s.withMemory m) n ∧
      Evolves s (n.region s.baseline) (s.withMemory m) (n.region s.baseline) := by
  obtain ⟨held, step⟩ := live.held.write mutable kept
  exact ⟨held.live live.regular live.stored.size_lt, step⟩

theorem Live.rehead {h : Header} (live : Live s n) (mutable : s.baseline ≤ n.ref)
    (kept : ∀ i, i ∉ block n.ref Header.length → m.get i = s.memory.get i)
    (header : m.header n.ref = h) (same : h.capacity = n.capacity)
    (room : h.byteSize ≤ n.capacity) :
    Live (s.withMemory m) ⟨n.ref, h⟩ ∧
      Evolves s (n.region s.baseline) (s.withMemory m)
        (region (s.withMemory m).baseline ⟨n.ref, h⟩) := by
  have size : h.size < 2 ^ 24 := header ▸ m.size_header n.ref
  have capacity : h.capacity < 2 ^ 24 := header ▸ m.capacity_header n.ref
  have wrapped : m.header n.ref = h.wrap := header.trans (Header.wrap_of_lt size capacity).symm
  obtain ⟨held, step⟩ := live.held.rehead mutable kept wrapped same room
  exact ⟨held.live (live.regular.rehead mutable same room) size, step⟩

structure Copied (s : Store) (n : Node) (s' : Store) (n' : Node) : Prop where
  live : Live s' n'
  mutable : s'.baseline ≤ n'.ref
  head : n'.head = { n.head with capacity := n'.capacity }
  evolves : Evolves s (n.region s.baseline) s' (n'.region s'.baseline)
  data : SameData s.memory n s'.memory n'

theorem copyOnWrite_ok (live : Live s n) (run : copyOnWrite (n, s) = (.ok (), (n', s'))) :
    Copied s n s' n' := by
  have moved := copyOnWrite_moved live.held run
  have size : n'.size < 2 ^ 24 := by
    rw [Node.size, moved.head]
    exact live.stored.size_lt
  exact ⟨moved.held.live (moved.regular live.regular) size, moved.mutable, moved.head,
    moved.evolves, moved.data⟩

/-- Room was made for `count` elements at `width`. The edit knows the node `n'` still with the old
size and width; `g` is the node in memory. -/
structure Grown (s : Store) (n : Node) (count width : Nat) (s' : Store) (n' g : Node) : Prop where
  live : Live s' g
  mutable : s'.baseline ≤ g.ref
  known : n' = ⟨g.ref, { n.head with capacity := g.capacity }⟩
  head : g.head = { n.head with capacity := g.capacity, width, size := count }
  evolves : Evolves s (n.region s.baseline) s' (g.region s'.baseline)
  data : ∀ k, Header.length + k < n.byteSize →
    s'.memory.get (g.data + k) = s.memory.get (n.data + k)

theorem reserve_ok {count width : Nat} (live : Live s n) (mutable : s.baseline ≤ n.ref)
    (legal : width ∈ Width.legal) (small : count < 2 ^ 24)
    (run : reserve count width (n, s) = (.ok (), (n', s'))) :
    ∃ g, Grown s n count width s' n' g := by
  obtain ⟨g, reserved⟩ := reserve_reserved live.held mutable legal run
  have size : g.size < 2 ^ 24 := by rwa [Node.size, reserved.head]
  exact ⟨g, reserved.held.live (reserved.regular live.regular) size, reserved.mutable,
    reserved.known, reserved.head, reserved.evolves, reserved.data⟩

end Node

end ColumnStore
