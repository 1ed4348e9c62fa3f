import ColumnStore.Proofs.FreeList

set_option autoImplicit false

/-!
Blocks that are allocated, moved and freed in any order. Live blocks and free chunks together fill
the slabs exactly, each of them lies in one slab, and only its owner changes the bytes of a block.
-/
namespace ColumnStore

/-- No boundary lies strictly inside the chunk. -/
def Chunk.Uncut (boundary : Nat → Bool) (c : Chunk) : Prop :=
  ∀ e, boundary e = true → c.start < e → c.stop ≤ e

theorem uncut_parts (boundary : Nat → Bool) :
    FreeList.Inherited boundary (Chunk.Uncut boundary) where
  front := by
    intro c size whole fits e edge inside
    have stop := whole e edge inside
    simp only [Chunk.stop] at stop ⊢
    omega
  back := by
    intro c size whole fits e edge inside
    have inside : c.start + size < e := inside
    have stop := whole e edge (by omega)
    simp only [Chunk.stop] at stop ⊢
    omega
  join := by
    intro c d first second touch open_ e edge inside
    have past := first e edge inside
    have : e ≠ d.start := fun same => open_ (same ▸ edge)
    have := second e edge (by omega)
    simp only [Chunk.stop] at touch this ⊢
    omega

namespace Store

variable {s s' : Store} {live live' : FreeList} {c : Chunk} {r size : Nat}

/-! ### Slabs -/

def slabsFrom (baseline : Nat) : List Nat → List Chunk
  | [] => []
  | stop :: below =>
      ⟨below.headD baseline, stop - below.headD baseline⟩ :: slabsFrom baseline below

/-- From the newest down to the one at the baseline. -/
def slabs (s : Store) : List Chunk := slabsFrom s.baseline s.slabEnds

theorem exists_slab {baseline : Nat} {ends : List Nat} (low : baseline ≤ c.start)
    (high : c.stop ≤ ends.headD baseline) (some : 0 < c.size)
    (uncut : ∀ e ∈ ends, c.start < e → c.stop ≤ e) :
    ∃ slab ∈ slabsFrom baseline ends, c.cells ⊆ slab.cells := by
  induction ends with
  | nil =>
      simp only [List.headD_nil, Chunk.stop] at high
      omega
  | cons stop below ih =>
      rw [List.headD_cons] at high
      obtain ⟨-, uncut⟩ := List.forall_mem_cons.mp uncut
      by_cases here : below.headD baseline ≤ c.start
      · refine ⟨_, List.mem_cons_self .., ?_⟩
        intro i
        simp only [Chunk.mem_cells, Chunk.stop] at high ⊢
        omega
      · -- The chunk starts below the newest slab, whose start is a boundary.
        have lower : c.stop ≤ below.headD baseline := by
          cases below with
          | nil => exact absurd low here
          | cons stop' below => exact uncut stop' (List.mem_cons_self ..) (Nat.lt_of_not_le here)
        obtain ⟨slab, there, inside⟩ := ih lower uncut
        exact ⟨slab, List.mem_cons_of_mem _ there, inside⟩

/-! ### Live blocks -/

/-- Live blocks and free chunks are apart, and together they make up the slabs. -/
structure Splits (s : Store) (live : FreeList) : Prop where
  blocks : (live ++ s.free).Sound
  cells : (live ++ s.free).cells = block s.baseline s.slabBytes
  total : (live ++ s.free).total = s.slabBytes
  span : s.slabBytes + s.baseline = s.slabEnd
  ends : ∀ e, s.isBoundary e = true → e ≤ s.slabEnd
  uncut : ∀ c ∈ live ++ s.free, c.Uncut s.isBoundary

theorem Splits.regroup {free : FreeList} (splits : Splits s live)
    (grouped : FreeList.Regroups (live ++ s.free) (live' ++ free))
    (uncut : ∀ c ∈ live' ++ free, c.Uncut s.isBoundary) : Splits { s with free } live' :=
  { splits with
    blocks := grouped.sound splits.blocks
    cells := grouped.cells.trans splits.cells
    total := grouped.total.trans splits.total
    uncut }

theorem Splits.perm (splits : Splits s live) (same : live.Perm live') : Splits s live' :=
  splits.regroup (.perm (same.append_right s.free))
    fun c there => splits.uncut c ((same.append_right s.free).mem_iff.mpr there)

theorem Splits.withMemory (splits : Splits s live) (m : Memory) : Splits (s.withMemory m) live :=
  { splits with }

theorem splits_nil (fresh : s.slabEnds = []) (none : s.free = []) (unused : s.slabBytes = 0) :
    Splits s [] := by
  have top : s.slabEnd = s.baseline := by rw [slabEnd, fresh, List.headD_nil]
  constructor
  case blocks =>
    rw [none]
    exact FreeList.sound_nil
  case cells =>
    rw [none, unused]
    ext i
    simp only [List.nil_append, FreeList.cells_nil, Set.mem_empty_iff_false, mem_block, false_iff]
    omega
  case total =>
    rw [none, unused]
    rfl
  case span => rw [unused, top, Nat.zero_add]
  case ends =>
    intro e there
    simp only [isBoundary, fresh, List.contains_nil, Bool.false_eq_true] at there
  case uncut =>
    rw [none]
    exact List.forall_mem_nil _

theorem Splits.within (splits : Splits s live) (there : c ∈ live ++ s.free) :
    c.cells ⊆ block s.baseline s.slabBytes := by
  intro i inside
  rw [← splits.cells]
  exact ⟨c, there, inside⟩

theorem Splits.stop_le (splits : Splits s live) (there : c ∈ live ++ s.free) (some : 0 < c.size) :
    c.stop ≤ s.slabEnd := by
  have last : c.start + c.size - 1 ∈ block s.baseline s.slabBytes := by
    refine splits.within there ?_
    simp only [Chunk.mem_cells, Chunk.stop]
    omega
  rw [← splits.span, Chunk.stop]
  simp only [mem_block] at last
  omega

theorem Splits.baseline_le (splits : Splits s live) (there : c ∈ live ++ s.free)
    (some : 0 < c.size) : s.baseline ≤ c.start :=
  (splits.within there ⟨Nat.le_refl _, Nat.lt_add_of_pos_right some⟩).1

theorem Splits.owns (splits : Splits s live) (there : c ∈ live) : s.Owns c.cells := by
  have inside := splits.within (List.mem_append_left s.free there)
  refine ⟨fun i here => (inside here).1, Set.disjoint_left.mpr ?_⟩
  rintro i here (⟨d, free, there'⟩ | beyond)
  · have apart := (List.pairwise_append.mp splits.blocks.apart).2.2 c there d free
    exact Set.disjoint_left.mp apart here there'
  · have below := (inside here).2
    rw [Nat.add_comm, splits.span] at below
    exact Nat.not_lt_of_le beyond below

theorem Splits.take {free : FreeList} (splits : Splits s live) (even : 8 ∣ size)
    (taken : s.free.take size = some (r, free)) :
    Splits { s with free } (⟨r, size⟩ :: live) := by
  obtain ⟨older, uncut⟩ := List.forall_mem_append.mp splits.uncut
  obtain ⟨block, rest⟩ := (uncut_parts s.isBoundary).take uncut taken
  refine splits.regroup ?_ ?_
  · exact (FreeList.Regroups.append live (FreeList.take_regroups even taken)).trans
      (.perm List.perm_middle)
  · rw [List.cons_append]
    exact List.forall_mem_cons.mpr ⟨block, List.forall_mem_append.mpr ⟨older, rest⟩⟩

theorem Splits.release (splits : Splits s (⟨r, size⟩ :: live)) :
    Splits (s.releaseMutable r size) live := by
  rw [releaseMutable]
  obtain ⟨block, uncut⟩ := List.forall_mem_cons.mp splits.uncut
  obtain ⟨older, free⟩ := List.forall_mem_append.mp uncut
  refine splits.regroup ?_ ?_
  · exact (FreeList.Regroups.perm List.perm_middle.symm).trans
      (.append live (FreeList.release_regroups s.isBoundary r size s.free))
  · exact List.forall_mem_append.mpr ⟨older, (uncut_parts s.isBoundary).release block free⟩

/-- The front part of a block as a block of its own. -/
theorem Splits.cut {bytes : Nat} (splits : Splits s (⟨r, bytes⟩ :: live)) (fits : size ≤ bytes)
    (even : 8 ∣ size) : Splits s (⟨r + size, bytes - size⟩ :: ⟨r, size⟩ :: live) := by
  obtain ⟨whole, rest⟩ := List.forall_mem_cons.mp splits.uncut
  refine splits.regroup ?_ ?_
  · exact (FreeList.Regroups.cut fits even (live ++ s.free)).trans (.perm (.swap ..))
  · have parts := uncut_parts s.isBoundary
    exact List.forall_mem_cons.mpr ⟨parts.back whole fits,
      List.forall_mem_cons.mpr ⟨parts.front whole fits, rest⟩⟩

/-- A new slab as one live block. -/
theorem Splits.grow (splits : Splits s live) (top : 8 ∣ s.slabEnd) {bytes : Nat}
    (whole : 8 ∣ bytes) :
    Splits { s with
        slabEnds := (s.slabEnd + bytes) :: s.slabEnds
        slabBytes := s.slabBytes + bytes } (⟨s.slabEnd, bytes⟩ :: live) := by
  have span := splits.span
  have boundary (e : Nat) : ((s.slabEnd + bytes) :: s.slabEnds).contains e = true ↔
      e = s.slabEnd + bytes ∨ s.isBoundary e = true := by
    rw [List.contains_cons, Bool.or_eq_true, beq_iff_eq, isBoundary]
  constructor
  case blocks =>
    refine FreeList.sound_cons.mpr ⟨?_, ⟨top, whole⟩, splits.blocks⟩
    show Disjoint _ (live ++ s.free).cells
    rw [splits.cells, Set.disjoint_left]
    intro i inside below
    simp only [Chunk.mem_cells, Chunk.stop, mem_block] at inside below
    omega
  case cells =>
    show FreeList.cells (_ :: (live ++ s.free)) = block s.baseline (s.slabBytes + bytes)
    rw [FreeList.cells_cons, splits.cells, ← span]
    ext i
    simp only [Set.mem_union, Chunk.mem_cells, Chunk.stop, mem_block]
    omega
  case total =>
    show FreeList.total (_ :: (live ++ s.free)) = s.slabBytes + bytes
    rw [FreeList.total_cons, splits.total, Nat.add_comm]
  case span =>
    show s.slabBytes + bytes + s.baseline = s.slabEnd + bytes
    omega
  case ends =>
    intro e edge
    show e ≤ s.slabEnd + bytes
    rcases (boundary e).mp edge with same | older
    · exact Nat.le_of_eq same
    · exact Nat.le_trans (splits.ends e older) (Nat.le_add_right ..)
  case uncut =>
    refine List.forall_mem_cons.mpr ⟨?_, ?_⟩
    · intro e edge inside
      show s.slabEnd + bytes ≤ e
      rcases (boundary e).mp edge with same | older
      · exact Nat.le_of_eq same.symm
      · exact absurd (splits.ends e older) (Nat.not_le_of_lt inside)
    · intro d there e edge inside
      rcases (boundary e).mp edge with rfl | older
      · rcases Nat.eq_zero_or_pos d.size with none | some
        · rw [Chunk.stop, none]
          exact Nat.le_of_lt inside
        · exact Nat.le_trans (splits.stop_le there some) (Nat.le_add_right ..)
      · exact splits.uncut d there e older inside

theorem dvd_slabBytesFor (slabSize : Nat) : 8 ∣ slabBytesFor slabSize := by
  rw [slabBytesFor, roundUp8]
  omega

theorem le_slabBytesFor (slabSize : Nat) : slabSize ≤ slabBytesFor slabSize := by
  rw [slabBytesFor, roundUp8]
  omega

theorem Splits.addSlab {slabSize : Nat} (splits : Splits s live) (top : 8 ∣ s.slabEnd)
    (even : 8 ∣ size) (fits : size ≤ slabSize) :
    Splits (s.addSlab slabSize size) (⟨s.slabEnd, size⟩ :: live) := by
  have grown := splits.grow top (dvd_slabBytesFor slabSize)
  exact (grown.cut (Nat.le_trans fits (le_slabBytesFor slabSize)) even).release

theorem Splits.allocate (splits : Splits s live) (top : 8 ∣ s.slabEnd) (even : 8 ∣ size)
    (ok : s.allocate size = (.ok r, s')) : Splits s' (⟨r, size⟩ :: live) := by
  rw [Store.allocate] at ok
  split at ok
  next found free taken =>
    cases ok
    exact splits.take even taken
  next =>
    split at ok
    next => cases ok
    next slabSize found =>
      split at ok
      next =>
        cases ok
        exact splits.addSlab top even (le_slabSizeFor found)
      next => cases ok

theorem allocate_error {e : Error} (failed : s.allocate size = (.error e, s')) : s' = s := by
  rw [Store.allocate] at failed
  split at failed
  next => cases failed
  next =>
    split at failed
    next => cases failed; rfl
    next =>
      split at failed
      next => cases failed
      next => cases failed; rfl

end Store

end ColumnStore
