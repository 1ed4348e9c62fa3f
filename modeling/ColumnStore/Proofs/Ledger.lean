import ColumnStore.Proofs.Nodes
import ColumnStore.Proofs.PackedRun

set_option autoImplicit false

/-!
How many bytes of the slabs are not free. A node takes its capacity; a block that is exchanged
while only a part of it is in use loses the other part.
-/
namespace ColumnStore

namespace Store

/-- Bytes of the slabs that are not free. -/
def taken (s : Store) : Int := s.slabBytes - s.free.total

variable {s s' : Store} {r : Ref} {size : Nat}

theorem isAllFree_iff : s.isAllFree = true ↔ s.taken = 0 := by
  rw [isAllFree, decide_eq_true_iff, taken]
  omega

@[simp] theorem taken_withMemory (m : Memory) : (s.withMemory m).taken = s.taken := rfl

theorem taken_releaseMutable : (s.releaseMutable r size).taken + size = s.taken := by
  have grouped := (FreeList.release_regroups s.isBoundary r size s.free).total
  simp only [FreeList.total_cons] at grouped
  simp only [taken, releaseMutable, grouped]
  omega

theorem taken_release (mutable : s.baseline ≤ r) : (s.release r size).taken + size = s.taken := by
  have : ¬ s.isReadOnly r := by simpa [isReadOnly] using mutable
  rw [release, if_neg this, taken_releaseMutable]

theorem taken_addSlab {slabSize : Nat} (fits : size ≤ slabSize) :
    (s.addSlab slabSize size).taken = s.taken + size := by
  have room : size ≤ slabBytesFor slabSize := by
    rw [slabBytesFor, roundUp8]
    omega
  have given := @taken_releaseMutable
    { s with
      slabEnds := (s.slabEnd + slabBytesFor slabSize) :: s.slabEnds,
      slabBytes := s.slabBytes + slabBytesFor slabSize }
    (s.slabEnd + size) (slabBytesFor slabSize - size)
  rw [addSlab]
  simp only [taken] at given ⊢
  omega

theorem taken_allocate (even : 8 ∣ size) (ok : s.allocate size = (.ok r, s')) :
    s'.taken = s.taken + size := by
  rw [allocate] at ok
  split at ok
  next found free taken =>
    cases ok
    have grouped := (FreeList.take_regroups even taken).total
    simp only [FreeList.total_cons] at grouped
    simp only [Store.taken]
    omega
  next =>
    split at ok
    next => cases ok
    next slabSize found =>
      split at ok
      next =>
        cases ok
        exact taken_addSlab (le_slabSizeFor found)
      next => cases ok

/-- A block that is exchanged takes its new size and gives back only the bytes it is said to have. -/
theorem taken_reallocate {oldSize newSize : Nat} {r' : Ref} (sound : s.Sound)
    (mutable : s.baseline ≤ r) (even : 8 ∣ newSize) (positive : 0 < newSize)
    (run : StoreM.reallocate r oldSize newSize s = (.ok r', s')) :
    s'.taken + oldSize = s.taken + newSize := by
  simp only [StoreM.reallocate, StoreM.bind_ok, StoreM.modifyMemory_bind, StoreM.free_bind,
    StoreM.pure_ok] at run
  obtain ⟨_, t, allocation, rfl, rfl⟩ := run
  have allocated := allocate_allocated sound even positive allocation
  rw [taken_release (allocated.evolves.baseline ▸ mutable), taken_withMemory,
    taken_allocate even allocation]

end Store

namespace Node

variable {s s' s'' : Store} {n n' n'' : Node} {vs : List Int64} {lost lost' : Nat}

/-- An edit of a mutable node. The bytes that were taken and are not those of the node any more are
lost for good. -/
structure Ledger (s : Store) (n : Node) (s' : Store) (n' : Node) (lost : Nat) : Prop where
  balance : s'.taken + n.capacity = s.taken + n'.capacity + lost
  mutable : s'.baseline ≤ n'.ref
  grows : n.capacity ≤ n'.capacity
  kept : n'.capacity = n.capacity → lost = 0

theorem Ledger.trans (first : Ledger s n s' n' lost) (second : Ledger s' n' s'' n'' lost') :
    Ledger s n s'' n'' (lost + lost') where
  balance := by
    have := first.balance
    have := second.balance
    push_cast
    omega
  mutable := second.mutable
  grows := Nat.le_trans first.grows second.grows
  kept := by
    intro same
    have := first.grows
    have := second.grows
    rw [first.kept (by omega), second.kept (by omega)]

theorem Ledger.refl (mutable : s.baseline ≤ n.ref) : Ledger s n s n 0 :=
  ⟨(Int.add_zero _).symm, mutable, Nat.le_refl _, fun _ => rfl⟩

theorem Ledger.write (ledger : Ledger s n s' n' lost) (m : Memory) :
    Ledger s n (s'.withMemory m) n' lost :=
  ⟨ledger.balance, ledger.mutable, ledger.grows, ledger.kept⟩

/-- What is known of the elements does not matter, only the block does. -/
theorem Ledger.known (ledger : Ledger s n s' n' lost) (ref : n''.ref = n'.ref)
    (capacity : n''.capacity = n'.capacity) : Ledger s n s' n'' lost :=
  ⟨capacity ▸ ledger.balance, ref ▸ ledger.mutable, capacity ▸ ledger.grows, capacity ▸ ledger.kept⟩

/-- Elements only get wider, and nothing is lost while their width stays. -/
structure Widens (s : Store) (n : Node) (s' : Store) (n' : Node) (lost : Nat) : Prop
    extends Ledger s n s' n' lost where
  wider : n.width ≤ n'.width
  steady : n'.width = n.width → lost = 0

theorem Widens.refl (mutable : s.baseline ≤ n.ref) : Widens s n s n 0 :=
  ⟨.refl mutable, Nat.le_refl _, fun _ => rfl⟩

theorem Widens.trans (first : Widens s n s' n' lost) (second : Widens s' n' s'' n'' lost') :
    Widens s n s'' n'' (lost + lost') where
  toLedger := first.toLedger.trans second.toLedger
  wider := Nat.le_trans first.wider second.wider
  steady := by
    intro same
    have := first.wider
    have := second.wider
    rw [first.steady (by omega), second.steady (by omega)]

/-! ### Growth -/

/-- What is lost when `n` makes room for `count` elements at `width`: of a block that is too small
only the bytes in use are released. -/
def lossFor (n : Node) (count width : Nat) : Nat :=
  if n.capacity < Header.bytesFor count width n.head.layout then n.capacity - n.byteSize else 0

theorem reserve_ledger {count width : Nat} (live : Live s n) (mutable : s.baseline ≤ n.ref)
    (run : reserve count width (n, s) = (.ok (), (n', s'))) :
    Ledger s n s' n' (n.lossFor count width) := by
  rw [lossFor]
  obtain ⟨t, m, -, rfl, ⟨room, rfl, rfl⟩ |
    ⟨needed, capacity, r, u, same, grows, small, chosen, moves, rfl, rfl⟩⟩ := reserve_cases run
  · rw [if_neg (Nat.not_lt_of_le room)]
    exact .write (.refl mutable) m
  · have bounds := grownCapacity_correct n.capacity small
    rw [chosen] at bounds
    obtain ⟨enough, top, even⟩ := bounds
    rw [if_pos (same ▸ grows)]
    have used := live.stored.room mutable
    have moved := reallocate_moved live.held mutable (by omega) even (by omega) top moves
    have taken := Store.taken_reallocate live.sound mutable even (by omega) moves
    have grown : Node.capacity ⟨r, { n.head with capacity }⟩ = capacity := rfl
    refine .write ⟨?_, moved.mutable, ?_, ?_⟩ m
    · rw [Store.taken_withMemory, grown]
      omega
    · omega
    · omega

/-- Sixteen zeros use the header's bytes only; a wide element behind them costs all the others. -/
example : lossFor ⟨8, { Header.new .plain .bits 0 with size := 16 }⟩ 17 64 = 120 := by decide

theorem bytesFor_succ {size width : Nat} (narrow : width ≤ 64) :
    Header.bytesFor (size + 1) width .bits ≤ Header.bytesFor size width .bits + 8 := by
  rw [Header.bytesFor, Header.bytesFor, Layout.dataSize, Layout.dataSize, Nat.succ_mul]
  omega

/-- A block without room for one more element of the same width is full. -/
theorem lossFor_succ (packed : Packed s n vs) (mutable : s.baseline ≤ n.ref) :
    n.lossFor (n.size + 1) n.width = 0 := by
  have narrow := Width.le_of_legal packed.live.stored.legal
  have used : n.byteSize = Header.bytesFor n.size n.width .bits := by
    rw [byteSize, Header.byteSize, packed.layout]
  have room := packed.live.stored.room mutable
  have even := packed.live.stored.even mutable
  have whole := Header.even_bytesFor n.size n.width .bits
  have more : Header.bytesFor (n.size + 1) n.width .bits ≤ Header.bytesFor n.size n.width .bits + 8 :=
    bytesFor_succ narrow
  rw [used] at room
  -- Sizes and capacities are whole words, and one element takes at most one word.
  rw [lossFor, packed.layout, used]
  split <;> omega

/-! ### Edits -/

section Edits

variable (packed : Packed s n vs) (mutable : s.baseline ≤ n.ref)
include packed mutable

theorem ensureWidth_widens {v : Int64} (run : ensureWidth v (n, s) = (.ok (), (n', s'))) :
    ∃ lost, Widens s n s' n' lost := by
  simp only [ensureWidth, Edit.self_bind] at run
  cases fits : Width.fits n.width v with
  | true =>
      simp only [fits, Bool.not_true, Bool.false_eq_true, if_false, Edit.pure_ok] at run
      obtain ⟨-, same⟩ := run
      cases same
      exact ⟨0, .refl mutable⟩
  | false =>
      simp only [fits, Bool.not_false, if_true, Edit.bind_ok, copyOnWrite_mutable mutable,
        setKnownWidth, Edit.update_bind, Edit.self_bind, Edit.modifyMemory_apply] at run
      obtain ⟨_, _, same, _, ⟨n₂, s₂⟩, grow, result⟩ := run
      cases same
      injection result with _ result
      injection result with node store
      subst node store
      have wider := Width.lt_ofValue packed.live.stored.legal fits
      have ledger := reserve_ledger packed.live mutable grow
      -- The width has changed, so what was lost does not count against it.
      exact ⟨_, (ledger.write _).known rfl rfl, Nat.le_of_lt wider,
        fun same => absurd same (Nat.ne_of_gt wider)⟩

theorem set_widens {i : Nat} {v : Int64} (run : set i v (n, s) = (.ok (), (n', s'))) :
    ∃ lost, Widens s n s' n' lost := by
  simp only [set, Edit.bind_ok, copyOnWrite_mutable mutable, Edit.self_bind,
    Edit.modifyMemory_apply] at run
  obtain ⟨_, _, same, _, ⟨n₂, s₂⟩, widen, result⟩ := run
  cases same
  injection result with _ result
  injection result with node store
  subst node store
  obtain ⟨lost, widens⟩ := ensureWidth_widens packed mutable widen
  exact ⟨lost, widens.toLedger.write _, widens.wider, widens.steady⟩

theorem insert_widens {i : Nat} {v : Int64} (run : insert i v (n, s) = (.ok (), (n', s'))) :
    ∃ lost, Widens s n s' n' lost := by
  simp only [insert, Edit.bind_ok, copyOnWrite_mutable mutable, Edit.self_bind, setKnownWidth,
    setKnownSize, Edit.update_bind, Edit.update_apply, Edit.modifyMemory_bind] at run
  obtain ⟨_, _, same, _, ⟨n₂, s₂⟩, grow, result⟩ := run
  cases same
  obtain ⟨w, chosen⟩ :
      ∃ w, (if Width.fits n.width v then n.width else Width.ofValue v) = w := ⟨_, rfl⟩
  rw [chosen] at grow result
  have wider : n.width ≤ w := by
    rw [← chosen]
    cases fits : Width.fits n.width v with
    | true =>
        rw [if_pos rfl]
    | false =>
        rw [if_neg Bool.false_ne_true]
        exact Nat.le_of_lt (Width.lt_ofValue packed.live.stored.legal fits)
  injection result with _ result
  injection result with node store
  subst node store
  have ledger := reserve_ledger packed.live mutable grow
  refine ⟨_, (ledger.write _).known rfl rfl, wider, ?_⟩
  intro same
  have : w = n.width := same
  rw [this, lossFor_succ packed mutable]

theorem add_widens {v : Int64} (run : add v (n, s) = (.ok (), (n', s'))) :
    ∃ lost, Widens s n s' n' lost := by
  simp only [add, Edit.self_bind] at run
  exact insert_widens packed mutable run

theorem adjust_widens {i : Nat} {d : Int64} (run : adjust i d (n, s) = (.ok (), (n', s'))) :
    ∃ lost, Widens s n s' n' lost := by
  simp only [adjust, Edit.self_bind, Edit.read_bind] at run
  exact set_widens packed mutable run

theorem adjustFrom_widens {d : Int64} {i count : Nat} (inside : i + count ≤ vs.length)
    (run : adjustFrom d i count (n, s) = (.ok (), (n', s'))) : ∃ lost, Widens s n s' n' lost := by
  induction count generalizing i n s vs with
  | zero =>
      rw [adjustFrom, Edit.pure_ok] at run
      obtain ⟨-, same⟩ := run
      cases same
      exact ⟨0, .refl mutable⟩
  | succ count ih =>
      rw [adjustFrom, Edit.bind_ok] at run
      obtain ⟨_, ⟨n₁, s₁⟩, first, rest⟩ := run
      have edited := adjust_ok packed (by omega) first
      obtain ⟨lost, widens⟩ := adjust_widens packed mutable first
      obtain ⟨lost', widens'⟩ := ih edited.packed widens.mutable (by simp; omega) rest
      exact ⟨_, widens.trans widens'⟩

theorem adjustRange_widens {d : Int64} {start stop : Nat} (inside : stop ≤ vs.length)
    (run : adjustRange start stop d (n, s) = (.ok (), (n', s'))) : ∃ lost, Widens s n s' n' lost := by
  rw [adjustRange] at run
  by_cases empty : stop ≤ start
  · rw [Nat.sub_eq_zero_of_le empty, adjustFrom, Edit.pure_ok] at run
    obtain ⟨-, same⟩ := run
    cases same
    exact ⟨0, .refl mutable⟩
  · exact adjustFrom_widens packed mutable (by omega) run

theorem adjustFromAtLeast_widens {limit d : Int64} {i count : Nat} (whole : i + count = vs.length)
    (run : adjustFromAtLeast limit d i count (n, s) = (.ok (), (n', s'))) :
    ∃ lost, Widens s n s' n' lost := by
  induction count generalizing i n s vs with
  | zero =>
      rw [adjustFromAtLeast, Edit.pure_ok] at run
      obtain ⟨-, same⟩ := run
      cases same
      exact ⟨0, .refl mutable⟩
  | succ count ih =>
      simp only [adjustFromAtLeast, Edit.self_bind, Edit.read_bind] at run
      by_cases large : limit ≤ n.get s.memory i
      · rw [if_pos large] at run
        obtain ⟨_, ⟨n₁, s₁⟩, first, rest⟩ := Edit.bind_ok.mp run
        have edited := adjust_ok packed (by omega) first
        obtain ⟨lost, widens⟩ := adjust_widens packed mutable first
        obtain ⟨lost', widens'⟩ := ih edited.packed widens.mutable (by simp; omega) rest
        exact ⟨_, widens.trans widens'⟩
      · rw [if_neg large] at run
        exact ih packed mutable (by omega) run

theorem adjustAtLeast_widens {limit d : Int64}
    (run : adjustAtLeast limit d (n, s) = (.ok (), (n', s'))) : ∃ lost, Widens s n s' n' lost := by
  simp only [adjustAtLeast, Edit.self_bind] at run
  exact adjustFromAtLeast_widens packed mutable (by rw [Nat.zero_add, packed.length]) run

omit packed in
theorem eraseRange_ledger {start stop : Nat}
    (run : eraseRange start stop (n, s) = (.ok (), (n', s'))) : Ledger s n s' n' 0 := by
  simp only [eraseRange] at run
  by_cases empty : start = stop
  · rw [if_neg (not_not_intro empty), Edit.pure_ok] at run
    obtain ⟨-, same⟩ := run
    cases same
    exact .refl mutable
  · rw [if_pos empty] at run
    simp only [Edit.bind_ok, copyOnWrite_mutable mutable, Edit.self_bind, Edit.modifyMemory_bind,
      setSize, setKnownSize, Edit.update_bind, Edit.modifyMemory_apply] at run
    obtain ⟨_, _, same, result⟩ := run
    cases same
    injection result with _ result
    injection result with node store
    subst node store
    exact (((Ledger.refl mutable).write _).write _).known rfl rfl

omit packed in
theorem erase_ledger {i : Nat} (run : erase i (n, s) = (.ok (), (n', s'))) : Ledger s n s' n' 0 :=
  eraseRange_ledger mutable run

omit packed in
theorem truncate_ledger {size : Nat} (run : truncate size (n, s) = (.ok (), (n', s'))) :
    Ledger s n s' n' 0 := by
  simp only [truncate, Edit.bind_ok, copyOnWrite_mutable mutable, Edit.self_bind, setSize,
    setKnownSize, Edit.update_bind, Edit.modifyMemory_apply] at run
  obtain ⟨_, _, same, _, ⟨n₁, s₁⟩, shrink, rest⟩ := run
  cases same
  injection shrink with _ result
  injection result with node store
  have shrunk : Ledger s n s₁ n₁ 0 := by
    subst node store
    exact ((Ledger.refl mutable).write _).known rfl rfl
  by_cases empty : size = 0 ∧ n₁.head.layout = .bits
  · rw [if_pos empty] at rest
    simp only [setWidth, setKnownWidth, Edit.update_bind, Edit.self_bind, Edit.modifyMemory_apply]
      at rest
    injection rest with _ result
    injection result with node store
    subst node store
    exact (shrunk.write _).known rfl rfl
  · rw [if_neg empty, Edit.pure_ok] at rest
    obtain ⟨-, same⟩ := rest
    cases same
    exact shrunk

omit packed in
theorem setAllToZero_ledger (run : setAllToZero (n, s) = (.ok (), (n', s'))) :
    Ledger s n s' n' 0 := by
  simp only [setAllToZero, Edit.bind_ok, copyOnWrite_mutable mutable, setWidth, setKnownWidth,
    Edit.update_bind, Edit.self_bind, Edit.modifyMemory_apply] at run
  obtain ⟨_, _, same, result⟩ := run
  cases same
  injection result with _ result
  injection result with node store
  subst node store
  exact ((Ledger.refl mutable).write _).known rfl rfl

omit packed in
theorem setContext_ledger {value : Bool} (run : setContext value (n, s) = (.ok (), (n', s'))) :
    Ledger s n s' n' 0 := by
  simp only [setContext, Edit.self_bind] at run
  by_cases same : n.head.context = value
  · rw [if_neg (not_not_intro same), Edit.pure_ok] at run
    obtain ⟨-, same⟩ := run
    cases same
    exact .refl mutable
  · rw [if_pos same] at run
    simp only [Edit.bind_ok, copyOnWrite_mutable mutable, Edit.self_bind, Edit.update_bind,
      Edit.modifyMemory_apply] at run
    obtain ⟨_, _, same, result⟩ := run
    cases same
    injection result with _ result
    injection result with node store
    subst node store
    exact ((Ledger.refl mutable).write _).known rfl rfl

end Edits

/-! ### Runs -/

/-- An operation that keeps the width loses nothing. -/
theorem Op.run_ledger {op : Op} (packed : Packed s n vs) (mutable : s.baseline ≤ n.ref)
    (inRange : op.InRange vs) (ok : op.run (n, s) = (.ok (), (n', s'))) :
    ∃ lost, Ledger s n s' n' lost ∧ (n'.width = n.width → lost = 0) := by
  have widens (some : ∃ lost, Widens s n s' n' lost) :
      ∃ lost, Ledger s n s' n' lost ∧ (n'.width = n.width → lost = 0) := by
    obtain ⟨lost, widens⟩ := some
    exact ⟨lost, widens.toLedger, widens.steady⟩
  have shrinks (ledger : Ledger s n s' n' 0) :
      ∃ lost, Ledger s n s' n' lost ∧ (n'.width = n.width → lost = 0) :=
    ⟨0, ledger, fun _ => rfl⟩
  cases op with
  | add v => exact widens (add_widens packed mutable ok)
  | insert i v => exact widens (insert_widens packed mutable ok)
  | set i v => exact widens (set_widens packed mutable ok)
  | erase i => exact shrinks (erase_ledger mutable ok)
  | eraseRange start stop => exact shrinks (eraseRange_ledger mutable ok)
  | truncate size => exact shrinks (truncate_ledger mutable ok)
  | clear => exact shrinks (truncate_ledger mutable ok)
  | setAllToZero => exact shrinks (setAllToZero_ledger mutable ok)
  | adjust i d => exact widens (adjust_widens packed mutable ok)
  | adjustRange start stop d =>
      exact widens (adjustRange_widens packed mutable inRange ok)
  | adjustAtLeast limit d => exact widens (adjustAtLeast_widens packed mutable ok)
  | ensureWidth v => exact widens (ensureWidth_widens packed mutable ok)
  | setContext value => exact shrinks (setContext_ledger mutable ok)
  | copyOnWrite =>
      have same := (copyOnWrite_mutable mutable).symm.trans ok
      cases same
      exact shrinks (.refl mutable)

/-- Whenever an operation changes the width, the block stays. -/
def Steady : List Op → Node × Store → Prop
  | [], _ => True
  | op :: ops, p =>
      match op.run p with
      | (.ok _, q) => (q.1.width = p.1.width ∨ q.1.capacity = p.1.capacity) ∧ Steady ops q
      | (.error _, _) => True

theorem run_ledger {ops : List Op} (packed : Packed s n vs) (mutable : s.baseline ≤ n.ref)
    (inRange : InRange ops vs) (ok : run ops (n, s) = (.ok (), (n', s'))) :
    ∃ lost, Ledger s n s' n' lost ∧ (Steady ops (n, s) → lost = 0) := by
  induction ops generalizing s n vs with
  | nil =>
      obtain ⟨-, same⟩ := Edit.pure_ok.mp ok
      cases same
      exact ⟨0, .refl mutable, fun _ => rfl⟩
  | cons op ops ih =>
      rw [run, Edit.bind_ok] at ok
      obtain ⟨_, ⟨n₁, s₁⟩, first, rest⟩ := ok
      have edited := op.run_ok packed inRange.1 inRange.2.1 first
      obtain ⟨lost, ledger, keeps⟩ := op.run_ledger packed mutable inRange.1 first
      obtain ⟨lost', ledger', keeps'⟩ := ih edited.packed ledger.mutable inRange.2.2 rest
      refine ⟨_, ledger.trans ledger', ?_⟩
      rw [Steady, first]
      -- A step may widen the elements of a block that has room for it.
      rintro ⟨width | capacity, steady⟩
      · rw [keeps width, keeps' steady]
      · rw [ledger.kept capacity, keeps' steady]

theorem taken_createPacked {role : Role} (created : createPacked role s = (.ok n, s')) :
    s'.taken = s.taken + n.capacity := by
  simp only [createPacked, create, StoreM.bind_ok, StoreM.modifyMemory_bind, StoreM.pure_ok]
    at created
  obtain ⟨r, t, allocation, rfl, rfl⟩ := created
  rw [Store.taken_withMemory, Store.taken_allocate (by decide) allocation]
  rfl

theorem taken_destroyDeep (live : Live s n) (mutable : s.baseline ≤ n.ref)
    (childless : n.hasRefs = false) :
    ∃ s', destroyDeep n s = (.ok (), s') ∧ s'.taken + n.capacity = s.taken := by
  have whole : n.footprint = n.capacity := Nat.max_eq_left (live.stored.room mutable)
  refine ⟨s.release n.ref n.footprint, ?_, ?_⟩
  · simp only [destroyDeep, subtree, StoreM.read_bind, subtreeWithin_childless childless]
    rfl
  · rw [whole]
    exact Store.taken_release mutable

/-- What a node took is given back when it is destroyed, but for what its growth has lost. -/
theorem destroy_gives_back {ops : List Op} {s₁ s₂ : Store} (sound : s.Sound)
    (created : createPacked .plain s = (.ok n, s₁)) (inRange : InRange ops [])
    (ok : run ops (n, s₁) = (.ok (), (n', s₂))) :
    ∃ s₃, ∃ lost : Nat, destroyDeep n' s₂ = (.ok (), s₃) ∧ s₃.taken = s.taken + lost ∧
      (Steady ops (n, s₁) → lost = 0) := by
  obtain ⟨packed, mutable, head, -⟩ := createPacked_ok sound created
  have edited := run_edited packed inRange ok
  obtain ⟨lost, ledger, keeps⟩ := run_ledger packed mutable inRange ok
  have childless : n'.hasRefs = false := by
    rw [hasRefs, edited.refs, head]
    rfl
  obtain ⟨s₃, destroyed, freed⟩ := taken_destroyDeep edited.packed.live ledger.mutable childless
  have took := taken_createPacked created
  have balance := ledger.balance
  exact ⟨s₃, lost, destroyed, by omega, keeps⟩

/-- On a store of its own, a node leaves nothing behind as long as its block is not exchanged for
wider elements. -/
theorem all_free_of_steady {settings : StoreSettings} {ops : List Op} {s₂ : Store}
    (created : createPacked .plain (.empty settings) = (.ok n, s)) (inRange : InRange ops [])
    (ok : run ops (n, s) = (.ok (), (n', s₂))) (steady : Steady ops (n, s)) :
    ∃ s₃, destroyDeep n' s₂ = (.ok (), s₃) ∧ s₃.isAllFree = true := by
  obtain ⟨s₃, lost, destroyed, taken, keeps⟩ :=
    destroy_gives_back (Store.sound_empty settings) created inRange ok
  refine ⟨s₃, destroyed, Store.isAllFree_iff.mpr ?_⟩
  rw [taken, keeps steady]
  rfl

end Node

end ColumnStore
