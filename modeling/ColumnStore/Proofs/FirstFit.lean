import ColumnStore.Proofs.Heap
import Mathlib.Data.List.Chain
import Mathlib.Order.Bounds.Defs

set_option autoImplicit false

/-!
The order of the free chunks. Blocks that are released and taken in any order leave chunks that
ascend and touch only at boundaries, and a block is taken from the lowest chunk that holds it.
-/
namespace ColumnStore

namespace FreeList

variable {boundary : Nat → Bool} {c d : Chunk} {l l' below above : FreeList} {start size r : Nat}

/-! ### Order -/

/-- Chunk `d` may come right behind chunk `c`: they overlap nowhere, and where they touch there is a
boundary. -/
def Follows (boundary : Nat → Bool) (c d : Chunk) : Prop :=
  c.stop ≤ d.start ∧ (c.stop = d.start → boundary d.start = true)

structure Tidy (boundary : Nat → Bool) (l : FreeList) : Prop where
  positive : ∀ c ∈ l, 0 < c.size
  chain : l.IsChain (Follows boundary)

theorem tidy_nil (boundary : Nat → Bool) : Tidy boundary [] := ⟨List.forall_mem_nil _, .nil⟩

/-- Further boundaries do no harm. -/
theorem Tidy.mono {boundary' : Nat → Bool} (tidy : Tidy boundary l)
    (more : ∀ e, boundary e = true → boundary' e = true) : Tidy boundary' l :=
  ⟨tidy.positive, tidy.chain.imp fun _ _ follows => ⟨follows.1, fun touch => more _ (follows.2 touch)⟩⟩

theorem Tidy.pairwise (tidy : Tidy boundary l) : l.Pairwise fun c d => c.stop ≤ d.start := by
  have : IsTrans Chunk fun c d => c.stop ≤ d.start :=
    ⟨fun c d e first second =>
      Nat.le_trans first (Nat.le_trans (Nat.le_add_right d.start d.size) second)⟩
  exact List.isChain_iff_pairwise.mp (tidy.chain.imp fun _ _ follows => follows.1)

theorem Tidy.ascending (tidy : Tidy boundary l) : l.Pairwise fun c d => c.start < d.start := by
  refine tidy.pairwise.imp_of_mem fun {c d} there _ apart => ?_
  have := tidy.positive c there
  rw [Chunk.stop] at apart
  omega

theorem Tidy.apart (tidy : Tidy boundary l) : l.Pairwise fun c d => Disjoint c.cells d.cells := by
  refine tidy.pairwise.imp fun {c d} apart => Set.disjoint_left.mpr fun i here there => ?_
  rw [Chunk.mem_cells] at here there
  omega

theorem Tidy.split (tidy : Tidy boundary (below ++ c :: above)) :
    (∀ d ∈ below, d.stop ≤ c.start) ∧ ∀ d ∈ above, c.stop ≤ d.start := by
  obtain ⟨-, rest, across⟩ := List.pairwise_append.mp tidy.pairwise
  exact ⟨fun d there => across d there c (List.mem_cons_self ..), (List.pairwise_cons.mp rest).1⟩

/-! ### Releasing -/

theorem head_prepend (boundary : Nat → Bool) (c : Chunk) (l : FreeList) :
    ∀ d ∈ (prepend boundary c l).head?, d.start = c.start := by
  cases l with
  | nil =>
      rintro d ⟨⟩
      rfl
  | cons e l =>
      rw [prepend]
      split <;>
        · rintro d ⟨⟩
          rfl

theorem chain_prepend (chain : l.IsChain (Follows boundary))
    (before : ∀ d ∈ l.head?, c.stop ≤ d.start) :
    (prepend boundary c l).IsChain (Follows boundary) := by
  cases l with
  | nil => exact .singleton c
  | cons d l =>
      rw [prepend]
      split
      next touch =>
        -- The merged chunk ends where the second one did.
        have stop : Chunk.stop ⟨c.start, c.size + d.size⟩ = d.stop := by
          simp only [Chunk.stop] at touch ⊢
          omega
        obtain ⟨next, chain⟩ := List.isChain_cons.mp chain
        refine List.isChain_cons.mpr ⟨fun e there => ?_, chain⟩
        rw [Follows, stop]
        exact next e there
      next untouched =>
        refine List.isChain_cons_cons.mpr ⟨⟨before d rfl, fun touch => ?_⟩, chain⟩
        simpa [touch] using untouched

theorem head_between (boundary : Nat → Bool) (d c : Chunk) (l : FreeList) :
    ∀ e ∈ (between boundary d c l).head?, e.start = d.start := by
  rw [between]
  split
  next => exact head_prepend boundary ⟨d.start, d.size + c.size⟩ l
  next =>
    rintro e ⟨⟩
    rfl

theorem chain_between (chain : l.IsChain (Follows boundary)) (after : d.stop ≤ c.start)
    (before : ∀ e ∈ l.head?, c.stop ≤ e.start) :
    (between boundary d c l).IsChain (Follows boundary) := by
  rw [between]
  split
  next touch =>
    refine chain_prepend chain fun e there => ?_
    have := before e there
    simp only [Chunk.stop] at touch this ⊢
    omega
  next untouched =>
    refine List.isChain_cons.mpr ⟨fun e there => ?_, chain_prepend chain before⟩
    rw [Follows, head_prepend boundary c l e there]
    refine ⟨after, fun touch => ?_⟩
    simpa [touch] using untouched

theorem place_front (upper : ∀ d ∈ l, c.start ≤ d.start) :
    place boundary c l = prepend boundary c l := by
  have none : Ascending.count (fun d : Chunk => decide (d.start < c.start)) ([] ++ l) = 0 :=
    Ascending.count_split (List.forall_mem_nil _) (by simpa using upper)
  rw [List.nil_append] at none
  rw [place, none, List.splitAt_eq]
  rfl

theorem place_behind (lower : ∀ e ∈ below ++ [d], e.start < c.start)
    (upper : ∀ e ∈ above, c.start ≤ e.start) :
    place boundary c (below ++ d :: above) = below ++ between boundary d c above := by
  have parts : below ++ d :: above = (below ++ [d]) ++ above := by simp
  have count : Ascending.count (fun d : Chunk => decide (d.start < c.start)) (below ++ d :: above) =
      (below ++ [d]).length := by
    rw [parts]
    exact Ascending.count_split (by simpa using lower) (by simpa using upper)
  rw [place, count, parts, List.splitAt_eq, List.take_left, List.drop_left]
  simp only [List.getLast?_concat, List.dropLast_concat]

theorem chain_place (chain : (below ++ above).IsChain (Follows boundary))
    (lower : ∀ d ∈ below, d.start < c.start) (upper : ∀ d ∈ above, c.start ≤ d.start)
    (after : ∀ d ∈ below, d.stop ≤ c.start) (before : ∀ d ∈ above, c.stop ≤ d.start) :
    (place boundary c (below ++ above)).IsChain (Follows boundary) := by
  obtain ⟨chain, chain', link⟩ := List.isChain_append.mp chain
  have before (d : Chunk) (there : d ∈ above.head?) : c.stop ≤ d.start :=
    before d (List.mem_of_mem_head? there)
  rcases List.eq_nil_or_concat' below with rfl | ⟨front, d, rfl⟩
  · rw [List.nil_append, place_front upper]
    exact chain_prepend chain' before
  · rw [List.append_assoc, List.singleton_append, place_behind lower upper]
    have last := after d (List.mem_append_right _ (List.mem_singleton_self d))
    obtain ⟨front', -, link⟩ := List.isChain_append.mp chain
    refine front'.append (chain_between chain' last before) fun e there f there' => ?_
    -- What comes behind the front starts where chunk `d` did.
    rw [Follows, head_between boundary d c above f there']
    exact link e there d rfl

theorem Tidy.place (tidy : Tidy boundary l) (some : 0 < c.size)
    (apart : Disjoint (block c.start c.size) l.cells) : Tidy boundary (l.place boundary c) := by
  refine ⟨forall_place (fun first _ _ _ => Nat.add_pos_left first _) some tidy.positive, ?_⟩
  have apart := disjoint_cells.mp apart
  simp only [Chunk.stop] at apart
  obtain ⟨lower, upper, rfl, low, high⟩ := Ascending.exists_split
    (P := fun d : Chunk => d.start < c.start) (tidy.ascending.imp fun less low => Nat.lt_trans less low)
  refine chain_place tidy.chain low (fun d there => Nat.le_of_not_lt (high d there)) ?_ ?_
  -- A chunk that shares no byte with the block lies before it or behind it as a whole.
  · intro d there
    have := low d there
    have := apart d (List.mem_append_left _ there)
    have := tidy.positive d (List.mem_append_left _ there)
    rw [Chunk.stop]
    omega
  · intro d there
    have := high d there
    have := apart d (List.mem_append_right _ there)
    have := tidy.positive d (List.mem_append_right _ there)
    rw [Chunk.stop]
    omega

theorem Tidy.release (tidy : Tidy boundary l) (apart : Disjoint (block start size) l.cells) :
    Tidy boundary (l.release boundary start size) := by
  rw [FreeList.release]
  split
  next => exact tidy
  next some => exact tidy.place (Nat.pos_of_ne_zero some) apart

/-! ### Taking -/

theorem Tidy.take (tidy : Tidy boundary l) (taken : l.take size = some (r, l')) :
    Tidy boundary l' := by
  obtain ⟨below, c, above, rfl, -, fits, -, rfl⟩ := take_eq_some taken
  obtain ⟨low, high⟩ := List.forall_mem_append.mp tidy.positive
  obtain ⟨some, high⟩ := List.forall_mem_cons.mp high
  obtain ⟨chain, chain', link⟩ := List.isChain_append.mp tidy.chain
  obtain ⟨next, chain'⟩ := List.isChain_cons.mp chain'
  split
  next whole =>
    -- The two neighbours cannot touch: there were bytes between them.
    refine ⟨List.forall_mem_append.mpr ⟨low, high⟩, chain.append chain' fun d there e there' => ?_⟩
    have before := (link d there c rfl).1
    have after := (next e there').1
    rw [Chunk.stop] at after
    exact ⟨by omega, fun touch => by omega⟩
  next part =>
    have left : 0 < c.size - size := by omega
    refine ⟨List.forall_mem_append.mpr ⟨low, List.forall_mem_cons.mpr ⟨left, high⟩⟩,
      chain.append (List.isChain_cons.mpr ⟨fun e there => ?_, chain'⟩) fun d there e here => ?_⟩
    · have stop : Chunk.stop ⟨c.start + size, c.size - size⟩ = c.stop := by
        simp only [Chunk.stop]
        omega
      rw [Follows, stop]
      exact next e there
    · cases here
      obtain ⟨before, edge⟩ := link d there c rfl
      refine ⟨Nat.le_trans before (Nat.le_add_right ..), fun touch => ?_⟩
      -- Only a block without bytes leaves the start where it was.
      have none : size = 0 := by
        simp only at touch
        omega
      subst none
      exact edge touch

theorem Tidy.cells_take (tidy : Tidy boundary l) (taken : l.take size = some (r, l')) :
    block r size ⊆ l.cells ∧ l'.cells = l.cells \ block r size := by
  obtain ⟨below, c, above, rfl, -, fits, rfl, rfl⟩ := take_eq_some taken
  obtain ⟨low, high⟩ := tidy.split
  have front : block c.start size ⊆ c.cells := by
    intro i
    simp only [mem_block, Chunk.mem_cells, Chunk.stop]
    omega
  have first : Disjoint (block c.start size) (cells below) :=
    disjoint_cells.mpr fun d there => .inr (.inr (.inr (low d there)))
  have last : Disjoint (block c.start size) (cells above) := by
    refine disjoint_cells.mpr fun d there => .inr (.inr (.inl ?_))
    have := high d there
    rw [Chunk.stop] at this
    omega
  have rest : cells (if c.size = size then above else ⟨c.start + size, c.size - size⟩ :: above) =
      c.cells \ block c.start size ∪ cells above := by
    split
    next whole =>
      subst whole
      rw [show block c.start c.size = c.cells from rfl, Set.sdiff_self, Set.empty_union]
    next =>
      rw [cells_cons]
      congr 1
      ext i
      simp only [Set.mem_sdiff, mem_block, Chunk.mem_cells, Chunk.stop]
      omega
  rw [cells_append, cells_append, cells_cons, rest, Set.union_sdiff_distrib,
    Set.union_sdiff_distrib, first.symm.sdiff_eq_left, last.symm.sdiff_eq_left]
  exact ⟨fun i here => .inr (.inl (front here)), rfl⟩

theorem Tidy.lowest (tidy : Tidy boundary l) (taken : l.take size = some (r, l')) :
    IsLeast {start | ∃ c ∈ l, size ≤ c.size ∧ c.start = start} r := by
  obtain ⟨below, c, above, rfl, small, fits, rfl, -⟩ := take_eq_some taken
  refine ⟨⟨c, by simp, fits, rfl⟩, ?_⟩
  rintro start ⟨d, there, large, rfl⟩
  -- What lies in front is too small, and what lies behind starts later.
  rcases List.mem_append.mp there with before | there
  · exact absurd large (Nat.not_le_of_lt (small d before))
  rcases List.mem_cons.mp there with rfl | after
  · exact Nat.le_refl _
  · exact Nat.le_trans (Nat.le_add_right ..) (tidy.split.2 d after)

/-! ### Runs -/

inductive Op where
  | release (start size : Nat)
  | take (size : Nat)
  deriving DecidableEq, Repr

namespace Op

/-- No byte is released that is free already. -/
def Legal (l : FreeList) : Op → Prop
  | release start size => Disjoint (block start size) l.cells
  | take _ => True

instance decidableLegal (l : FreeList) : (op : Op) → Decidable (op.Legal l)
  | release _ _ => decidable_of_iff _ disjoint_cells.symm
  | take _ => inferInstanceAs (Decidable True)

/-- Nothing changes when no chunk is large enough. -/
def run (boundary : Nat → Bool) (l : FreeList) : Op → FreeList
  | release start size => l.release boundary start size
  | take size => (l.take size).elim l Prod.snd

end Op

def run (boundary : Nat → Bool) (l : FreeList) (ops : List Op) : FreeList :=
  ops.foldl (Op.run boundary) l

def Legal (boundary : Nat → Bool) : FreeList → List Op → Prop
  | _, [] => True
  | l, op :: ops => op.Legal l ∧ Legal boundary (op.run boundary l) ops

instance decidableLegal (boundary : Nat → Bool) :
    (l : FreeList) → (ops : List Op) → Decidable (Legal boundary l ops)
  | _, [] => .isTrue True.intro
  | l, op :: ops =>
      have := decidableLegal boundary (op.run boundary l) ops
      inferInstanceAs (Decidable (_ ∧ _))

variable {op : Op} {ops : List Op}

theorem Tidy.op_run (tidy : Tidy boundary l) (legal : op.Legal l) :
    Tidy boundary (op.run boundary l) := by
  cases op with
  | release start size => exact tidy.release legal
  | take size =>
      rw [Op.run]
      cases taken : l.take size with
      | none => exact tidy
      | some found => exact tidy.take taken

theorem Tidy.run (tidy : Tidy boundary l) (legal : Legal boundary l ops) :
    Tidy boundary (run boundary l ops) := by
  induction ops generalizing l with
  | nil => exact tidy
  | cons op ops ih => exact ih (tidy.op_run legal.1) legal.2

/-- What blocks and chunks are, the chunks are after any operations. -/
theorem Inherited.run {P : Chunk → Prop} (parts : Inherited boundary P)
    (blocks : ∀ start size, .release start size ∈ ops → P ⟨start, size⟩) (each : ∀ c ∈ l, P c) :
    ∀ c ∈ FreeList.run boundary l ops, P c := by
  induction ops generalizing l with
  | nil => exact each
  | cons op ops ih =>
      refine ih (fun start size later => blocks start size (List.mem_cons_of_mem _ later)) ?_
      cases op with
      | release start size => exact parts.release (blocks start size (List.mem_cons_self ..)) each
      | take size =>
          rw [Op.run]
          cases taken : l.take size with
          | none => exact each
          | some found => exact (parts.take each taken).2

/-- The order of the chunks, and what the next block released or taken does to the free bytes. -/
structure Exact (boundary : Nat → Bool) (l : FreeList) : Prop where
  ascending : l.Pairwise fun c d => c.start < d.start
  positive : ∀ c ∈ l, 0 < c.size
  apart : l.Pairwise fun c d => Disjoint c.cells d.cells
  merged : l.IsChain fun c d => c.stop = d.start → boundary d.start = true
  released : ∀ start size, Disjoint (block start size) l.cells →
    (l.release boundary start size).cells = l.cells ∪ block start size
  taken : ∀ size r l', l.take size = some (r, l') →
    IsLeast {start | ∃ c ∈ l, size ≤ c.size ∧ c.start = start} r ∧
      block r size ⊆ l.cells ∧ l'.cells = l.cells \ block r size
  refused : ∀ size, l.take size = none ↔ ¬ ∃ c ∈ l, size ≤ c.size

theorem Tidy.exact (tidy : Tidy boundary l) : Exact boundary l where
  ascending := tidy.ascending
  positive := tidy.positive
  apart := tidy.apart
  merged := tidy.chain.imp fun _ _ follows => follows.2
  released := by
    intro start size _
    rw [(release_regroups boundary start size l).cells, cells_cons, Set.union_comm]
    rfl
  taken := fun size r l' found => ⟨tidy.lowest found, tidy.cells_take found⟩
  refused := by
    intro size
    rw [take_eq_none_iff]
    simp

/-- Chunks above ref 0 that end in the address space. -/
theorem addressed_parts (boundary : Nat → Bool) :
    Inherited boundary fun c => 0 < c.start ∧ c.stop ≤ Store.addressSpace where
  front := by
    intro c size inside fits
    simp only [Chunk.stop] at inside ⊢
    omega
  back := by
    intro c size inside fits
    simp only [Chunk.stop] at inside ⊢
    omega
  join := by
    intro c d first second touch _
    simp only [Chunk.stop] at first second touch ⊢
    omega

theorem wrap_eq (inside : ∀ c ∈ l, 0 < c.start ∧ c.stop ≤ Store.addressSpace)
    (positive : ∀ c ∈ l, 0 < c.size) : l.wrap = l := by
  refine (List.map_congr_left fun c there => ?_).trans (List.map_id l)
  have some := positive c there
  obtain ⟨above, below⟩ := inside c there
  rw [Chunk.stop, Store.addressSpace] at below
  rw [Nat.mod_eq_of_lt (by omega), Nat.mod_eq_of_lt (by omega)]
  rfl

theorem run_exact (legal : Legal boundary [] ops) :
    Exact boundary (run boundary [] ops) ∧
      ((∀ start size, .release start size ∈ ops → Chunk.Uncut boundary ⟨start, size⟩) →
        ∀ c ∈ run boundary [] ops, c.Uncut boundary) ∧
      ((∀ start size, .release start size ∈ ops → 0 < start ∧ start + size ≤ Store.addressSpace) →
        (run boundary [] ops).wrap = run boundary [] ops) := by
  have tidy := (tidy_nil boundary).run legal
  refine ⟨tidy.exact, fun uncut => ?_, fun inside => ?_⟩
  · exact (uncut_parts boundary).run uncut (List.forall_mem_nil _)
  · exact wrap_eq ((addressed_parts boundary).run inside (List.forall_mem_nil _)) tidy.positive

/-- Two chunks with a gap that the last release closes, and a boundary between two others. -/
def closedGap : List Op :=
  [.release 8 8, .release 24 8, .release 48 16, .release 64 16, .release 16 8, .take 16, .take 100]

theorem run_exact_closedGap :
    run (· == 64) [] closedGap = [⟨24, 8⟩, ⟨48, 16⟩, ⟨64, 16⟩] ∧
      Exact (· == 64) [⟨24, 8⟩, ⟨48, 16⟩, ⟨64, 16⟩] ∧
      (∀ c ∈ [⟨24, 8⟩, ⟨48, 16⟩, ⟨64, 16⟩], Chunk.Uncut (· == 64) c) ∧
      wrap [⟨24, 8⟩, ⟨48, 16⟩, ⟨64, 16⟩] = [⟨24, 8⟩, ⟨48, 16⟩, ⟨64, 16⟩] := by
  have final : run (· == 64) [] closedGap = [⟨24, 8⟩, ⟨48, 16⟩, ⟨64, 16⟩] := by decide +kernel
  have legal : Legal (· == 64) [] closedGap := by decide +kernel
  have blocks (start size : Nat) (there : .release start size ∈ closedGap) :
      0 < start ∧ start + size ≤ 80 ∧ (start + size ≤ 64 ∨ 64 ≤ start) := by
    simp only [closedGap, List.mem_cons, Op.release.injEq, reduceCtorEq, List.not_mem_nil,
      or_false] at there
    omega
  obtain ⟨chunks, uncut, words⟩ := run_exact legal
  rw [final] at chunks uncut words
  refine ⟨final, chunks, uncut fun start size there => ?_, words fun start size there => ?_⟩
  · rintro e edge inside
    have := blocks start size there
    simp only [beq_iff_eq] at edge
    simp only [Chunk.stop] at inside ⊢
    omega
  · have := blocks start size there
    rw [Store.addressSpace]
    exact ⟨this.1, Nat.le_trans this.2.1 (by decide)⟩

end FreeList

/-! ### Boundaries that are added with slabs -/

namespace Store

variable {s s' : Store} {r size : Nat}

theorem tidy_addSlab {slabSize : Nat} (sound : s.Sound) (tidy : s.free.Tidy s.isBoundary) :
    (s.addSlab slabSize size).free.Tidy (s.addSlab slabSize size).isBoundary := by
  have more (e : Nat) (edge : s.isBoundary e = true) :
      ((s.slabEnd + slabBytesFor slabSize) :: s.slabEnds).contains e = true := by
    rw [List.contains_cons, Bool.or_eq_true]
    exact .inr edge
  refine (tidy.mono more).release (Set.disjoint_left.mpr fun i here free => ?_)
  -- The slab is new, and all that was free lies below it.
  have below := (sound.inside i free).2
  simp only [mem_block] at here
  omega

theorem tidy_allocate {result : Except Error Ref} (sound : s.Sound)
    (tidy : s.free.Tidy s.isBoundary) (run : s.allocate size = (result, s')) :
    s'.free.Tidy s'.isBoundary := by
  rw [allocate] at run
  split at run
  next found free taken =>
    cases run
    exact tidy.take taken
  next =>
    split at run
    next =>
      cases run
      exact tidy
    next =>
      split at run
      next =>
        cases run
        exact tidy_addSlab sound tidy
      next =>
        cases run
        exact tidy

theorem tidy_release (tidy : s.free.Tidy s.isBoundary)
    (apart : Disjoint (block r size) s.free.cells) :
    (s.release r size).free.Tidy (s.release r size).isBoundary := by
  rw [release]
  split
  next => exact tidy
  next => exact tidy.release apart

end Store

namespace Heap

variable {h : Heap} {i size : Nat} {c : Chunk}

def Tidy (h : Heap) : Prop := h.store.free.Tidy h.store.isBoundary

theorem Sound.apart_free {c : Chunk} (sound : h.Sound) (there : c ∈ h.live) :
    Disjoint (block c.start c.size) h.store.free.cells :=
  (sound.splits.owns there).apart.mono_right Set.subset_union_left

theorem tidy_allocate (sound : h.Sound) (tidy : h.Tidy) : (h.allocate size).Tidy := by
  rw [allocate, StoreM.allocate]
  rcases run : h.store.allocate size with ⟨e | r, s⟩
  · exact Store.tidy_allocate sound.store tidy run
  · exact Store.tidy_allocate sound.store tidy run

theorem tidy_free (sound : h.Sound) (tidy : h.Tidy) (there : h.live[i]? = some c) :
    (h.free i c).Tidy :=
  Store.tidy_release tidy (sound.apart_free (List.mem_of_getElem? there))

theorem tidy_reallocate (sound : h.Sound) (tidy : h.Tidy) (there : h.live[i]? = some c)
    (positive : 0 < size) (even : 8 ∣ size) : (h.reallocate i c size).Tidy := by
  rcases taken : h.store.allocate size with ⟨e | r, s⟩
  · rwa [reallocate_error i c taken]
  · have allocated := (allocate_steps sound positive even).sound
    rw [allocate, StoreM.allocate, taken] at allocated
    have live := List.mem_append_left [⟨r, size⟩] (List.mem_of_getElem? there)
    rw [reallocate_ok i c taken]
    have tidy : s.free.Tidy s.isBoundary := Store.tidy_allocate sound.store tidy taken
    exact Store.tidy_release tidy (allocated.apart_free live)

theorem tidy_write (tidy : h.Tidy) (offset : Nat) (data : ByteArray) :
    (h.write c offset data).Tidy := by
  rw [write]
  split
  next => exact tidy
  next => exact tidy

theorem tidy_step {op : Op} (sound : h.Sound) (tidy : h.Tidy) (legal : op.Legal) :
    (h.step op).Tidy := by
  have at_ {i : Nat} {f : Chunk → Heap} (kept : ∀ c, h.live[i]? = some c → (f c).Tidy) :
      (h.live[i]?.elim h f).Tidy := by
    cases there : h.live[i]? with
    | none => exact tidy
    | some c => exact kept c there
  cases op with
  | allocate size => exact tidy_allocate sound tidy
  | reallocate i size => exact at_ fun c there => tidy_reallocate sound tidy there legal.1 legal.2
  | free i => exact at_ fun c there => tidy_free sound tidy there
  | write i offset data => exact at_ fun c _ => tidy_write tidy offset data

theorem run_tidy {ops : List Op} (sound : h.Sound) (tidy : h.Tidy)
    (legal : ∀ op ∈ ops, op.Legal) : (h.run ops).Tidy := by
  induction ops generalizing h with
  | nil => exact tidy
  | cons op ops ih =>
      obtain ⟨first, rest⟩ := List.forall_mem_cons.mp legal
      exact ih (step_steps sound first).sound (tidy_step sound tidy first) rest

theorem Fresh.tidy {settings : StoreSettings} (fresh : Fresh settings h) : h.Tidy := by
  cases fresh with
  | empty => exact FreeList.tidy_nil _
  | attached bound valid =>
      obtain rfl := Store.ofImage_eq valid
      exact FreeList.tidy_nil _

/-- The free chunks of a store, in which every new slab adds a boundary. -/
theorem run_free_exact {settings : StoreSettings} {ops : List Op} (fresh : Fresh settings h)
    (legal : ∀ op ∈ ops, op.Legal) :
    (h.run ops).store.free.Exact (h.run ops).store.isBoundary :=
  (run_tidy fresh.sound fresh.tidy legal).exact

end Heap

end ColumnStore
