import ColumnStore.Store.Basic
import Mathlib.Algebra.GroupWithZero.Nat
import Mathlib.Data.Set.BooleanAlgebra
import Mathlib.Data.Set.Disjoint
import Mathlib.Order.CompletePartialOrder

set_option autoImplicit false

/-!
Which addresses belong to whom. Free chunks never overlap, what is allocated is taken from them or
from beyond the last slab, and a computation that owns some addresses writes to no others.
-/
namespace ColumnStore

/-- The addresses of `n` bytes from `r` on. -/
def block (r n : Nat) : Set Nat := {i | r ≤ i ∧ i < r + n}

@[simp] theorem mem_block {r n i : Nat} : i ∈ block r n ↔ r ≤ i ∧ i < r + n := Iff.rfl

def Chunk.cells (c : Chunk) : Set Nat := block c.start c.size

@[simp] theorem Chunk.mem_cells {c : Chunk} {i : Nat} : i ∈ c.cells ↔ c.start ≤ i ∧ i < c.stop :=
  Iff.rfl

namespace FreeList

def cells (l : FreeList) : Set Nat := {i | ∃ c ∈ l, i ∈ c.cells}

structure Sound (l : FreeList) : Prop where
  apart : l.Pairwise fun c d => Disjoint c.cells d.cells
  aligned : ∀ c ∈ l, 8 ∣ c.start ∧ 8 ∣ c.size

@[simp] theorem cells_nil : cells [] = ∅ := by
  ext i
  simp [cells]

@[simp] theorem cells_cons (c : Chunk) (l : FreeList) : cells (c :: l) = c.cells ∪ cells l := by
  ext i
  simp [cells]

@[simp] theorem total_nil : total [] = 0 := rfl

@[simp] theorem total_cons (c : Chunk) (l : FreeList) : total (c :: l) = c.size + total l := by
  have from_ (n : Nat) : l.foldl (fun total c => total + c.size) n = n + total l := by
    rw [total]
    induction l generalizing n with
    | nil => rfl
    | cons d l ih => rw [List.foldl_cons, List.foldl_cons, ih, ih (0 + d.size)]; omega
  rw [total, List.foldl_cons, from_, Nat.zero_add]

@[simp] theorem sound_nil : Sound [] := ⟨List.Pairwise.nil, by simp⟩

theorem sound_cons {c : Chunk} {l : FreeList} :
    Sound (c :: l) ↔ Disjoint c.cells (cells l) ∧ (8 ∣ c.start ∧ 8 ∣ c.size) ∧ Sound l := by
  have spread : Disjoint c.cells (cells l) ↔ ∀ d ∈ l, Disjoint c.cells d.cells := by
    simp only [Set.disjoint_left, cells, Set.mem_ofPred_eq]
    constructor
    · intro apart d there i here inside
      exact apart here ⟨d, there, inside⟩
    · rintro apart i here ⟨d, there, inside⟩
      exact apart d there here inside
  constructor
  · rintro ⟨apart, aligned⟩
    rw [List.pairwise_cons] at apart
    exact ⟨spread.mpr apart.1, aligned c (by simp),
      apart.2, fun d there => aligned d (by simp [there])⟩
  · rintro ⟨apart, aligned, rest⟩
    refine ⟨List.pairwise_cons.mpr ⟨spread.mp apart, rest.apart⟩, ?_⟩
    intro d there
    rcases List.mem_cons.mp there with rfl | there
    · exact aligned
    · exact rest.aligned d there

/-- The same addresses, each as often, in other chunks. -/
structure Regroups (l l' : FreeList) : Prop where
  cells : l'.cells = l.cells
  total : l'.total = l.total
  sound : l.Sound → l'.Sound

namespace Regroups

theorem refl (l : FreeList) : Regroups l l := ⟨rfl, rfl, id⟩

theorem trans {l l' l'' : FreeList} (first : Regroups l l') (second : Regroups l' l'') :
    Regroups l l'' :=
  ⟨second.cells.trans first.cells, second.total.trans first.total, second.sound ∘ first.sound⟩

theorem cons (c : Chunk) {l l' : FreeList} (rest : Regroups l l') :
    Regroups (c :: l) (c :: l') := by
  constructor
  · rw [cells_cons, cells_cons, rest.cells]
  · rw [total_cons, total_cons, rest.total]
  · rw [sound_cons, sound_cons, rest.cells]
    rintro ⟨apart, aligned, sound⟩
    exact ⟨apart, aligned, rest.sound sound⟩

theorem append (front : FreeList) {l l' : FreeList} (rest : Regroups l l') :
    Regroups (front ++ l) (front ++ l') := by
  induction front with
  | nil => exact rest
  | cons c front ih => exact ih.cons c

theorem perm {l l' : FreeList} (same : l.Perm l') : Regroups l l' := by
  constructor
  · ext i
    simp [FreeList.cells, same.mem_iff]
  · exact (same.foldl_eq' (fun _ _ _ _ n => Nat.add_right_comm n _ _) 0).symm
  · rintro ⟨apart, aligned⟩
    refine ⟨(same.pairwise_iff fun h => h.symm).mp apart, ?_⟩
    intro c there
    exact aligned c (same.mem_iff.mpr there)

/-- Two chunks that touch, as one. -/
theorem join {c d : Chunk} (touch : c.stop = d.start) (l : FreeList) :
    Regroups (c :: d :: l) (⟨c.start, c.size + d.size⟩ :: l) := by
  have same : Chunk.cells ⟨c.start, c.size + d.size⟩ = c.cells ∪ d.cells := by
    ext i
    simp only [Chunk.mem_cells, Chunk.stop, Set.mem_union] at touch ⊢
    omega
  constructor
  · rw [cells_cons, cells_cons, cells_cons, same, Set.union_assoc]
  · rw [total_cons, total_cons, total_cons, Nat.add_assoc]
  · simp only [sound_cons, cells_cons, Set.disjoint_union_right, same, Set.disjoint_union_left]
    rintro ⟨⟨-, apart⟩, ⟨start, first⟩, apart', ⟨-, second⟩, sound⟩
    exact ⟨⟨apart, apart'⟩, ⟨start, Nat.dvd_add first second⟩, sound⟩

/-- A chunk cut in two. -/
theorem cut {c : Chunk} {size : Nat} (fits : size ≤ c.size) (even : 8 ∣ size) (l : FreeList) :
    Regroups (c :: l) (⟨c.start, size⟩ :: ⟨c.start + size, c.size - size⟩ :: l) := by
  have same : c.cells =
      Chunk.cells ⟨c.start, size⟩ ∪ Chunk.cells ⟨c.start + size, c.size - size⟩ := by
    ext i
    simp only [Chunk.mem_cells, Chunk.stop, Set.mem_union]
    omega
  have apart : Disjoint (Chunk.cells ⟨c.start, size⟩)
      (Chunk.cells ⟨c.start + size, c.size - size⟩) := by
    rw [Set.disjoint_left]
    intro i
    simp only [Chunk.mem_cells, Chunk.stop]
    omega
  constructor
  · rw [cells_cons, cells_cons, cells_cons, same, Set.union_assoc]
  · rw [total_cons, total_cons, total_cons, ← Nat.add_assoc, Nat.add_sub_cancel' fits]
  · simp only [sound_cons, cells_cons, Set.disjoint_union_right, same, Set.disjoint_union_left]
    rintro ⟨⟨first, second⟩, ⟨start, whole⟩, sound⟩
    exact ⟨⟨apart, first⟩, ⟨start, even⟩, second,
      ⟨Nat.dvd_add start even, Nat.dvd_sub whole even⟩, sound⟩

end Regroups

/-- The first chunk that is large enough gives its front. -/
theorem take_eq_some {size r : Nat} {l l' : FreeList} (taken : take size l = some (r, l')) :
    ∃ below c above, l = below ++ c :: above ∧ (∀ d ∈ below, d.size < size) ∧ size ≤ c.size ∧
      r = c.start ∧ l' = below ++
        if c.size = size then above else ⟨c.start + size, c.size - size⟩ :: above := by
  induction l generalizing l' with
  | nil => cases taken
  | cons c l ih =>
      rw [take] at taken
      by_cases fits : size ≤ c.size
      · refine ⟨[], c, l, rfl, List.forall_mem_nil _, fits, ?_⟩
        rw [if_pos fits] at taken
        split at taken
        next whole =>
          cases taken
          exact ⟨rfl, (if_pos whole).symm⟩
        next part =>
          cases taken
          exact ⟨rfl, (if_neg part).symm⟩
      · rw [if_neg fits] at taken
        obtain ⟨⟨r', l''⟩, found, same⟩ := Option.map_eq_some_iff.mp taken
        cases same
        obtain ⟨below, d, above, rfl, small, large, start, rest⟩ := ih found
        refine ⟨c :: below, d, above, rfl, ?_, large, start, ?_⟩
        · exact List.forall_mem_cons.mpr ⟨Nat.lt_of_not_le fits, small⟩
        · rw [rest, List.cons_append]

theorem take_regroups {size r : Nat} {l l' : FreeList} (even : 8 ∣ size)
    (taken : take size l = some (r, l')) : Regroups l (⟨r, size⟩ :: l') := by
  obtain ⟨below, c, above, rfl, -, fits, rfl, rfl⟩ := take_eq_some taken
  have cut : Regroups (c :: above) (⟨c.start, size⟩ ::
      if c.size = size then above else ⟨c.start + size, c.size - size⟩ :: above) := by
    split
    next whole =>
      subst whole
      exact .refl _
    next => exact .cut fits even above
  exact (cut.append below).trans (.perm List.perm_middle)

theorem prepend_regroups (boundary : Nat → Bool) (c : Chunk) (l : FreeList) :
    Regroups (c :: l) (prepend boundary c l) := by
  cases l with
  | nil => exact .refl _
  | cons d ds =>
      rw [prepend]
      split
      next touch => exact .join touch.1 ds
      next => exact .refl _

theorem between_regroups (boundary : Nat → Bool) (d c : Chunk) (l : FreeList) :
    Regroups (d :: c :: l) (between boundary d c l) := by
  rw [between]
  split
  next touch => exact (Regroups.join touch.1 l).trans (prepend_regroups ..)
  next => exact (prepend_regroups boundary c l).cons d

theorem place_regroups (boundary : Nat → Bool) (c : Chunk) (l : FreeList) :
    Regroups (c :: l) (place boundary c l) := by
  rw [place, List.splitAt_eq]
  generalize Ascending.count (fun d : Chunk => decide (d.start < c.start)) l = k
  have parts : List.take k l ++ List.drop k l = l := List.take_append_drop k l
  generalize List.take k l = below at parts ⊢
  generalize List.drop k l = above at parts ⊢
  subst parts
  cases last : below.getLast? with
  | none =>
      rw [List.getLast?_eq_none_iff] at last
      subst last
      exact prepend_regroups boundary c above
  | some d =>
      obtain ⟨front, split⟩ := List.getLast?_eq_some_iff.mp last
      subst split
      -- The new chunk comes behind the last one that starts below it.
      have moved : (c :: (front ++ [d] ++ above)).Perm (front ++ d :: c :: above) := by
        rw [List.append_assoc, List.singleton_append]
        exact List.perm_middle.symm.trans (List.Perm.append_left _ (.swap ..))
      simp only [last, List.dropLast_concat]
      exact (Regroups.perm moved).trans (.append _ (between_regroups boundary d c above))

theorem release_regroups (boundary : Nat → Bool) (start size : Nat) (l : FreeList) :
    Regroups (⟨start, size⟩ :: l) (release boundary start size l) := by
  rw [release]
  split
  next none =>
    subst none
    have empty : Chunk.cells ⟨start, 0⟩ = ∅ := by
      ext i
      simp only [Chunk.mem_cells, Chunk.stop, Set.mem_empty_iff_false, iff_false]
      omega
    constructor
    · rw [cells_cons, empty, Set.empty_union]
    · rw [total_cons, Nat.zero_add]
    · rw [sound_cons]
      exact fun sound => sound.2.2
  next => exact place_regroups ..

end FreeList

namespace Store

def withMemory (s : Store) (m : Memory) : Store := { s with memory := m }

@[simp] theorem memory_withMemory (s : Store) (m : Memory) : (s.withMemory m).memory = m := rfl

@[simp] theorem baseline_withMemory (s : Store) (m : Memory) :
    (s.withMemory m).baseline = s.baseline := rfl

@[simp] theorem withMemory_withMemory (s : Store) (m m' : Memory) :
    (s.withMemory m).withMemory m' = s.withMemory m' := rfl

@[simp] theorem withMemory_release (s : Store) (m : Memory) (r : Ref) (size : Nat) :
    (s.release r size).withMemory m = (s.withMemory m).release r size := by
  rw [release, release]
  by_cases image : s.isReadOnly r
  · rw [if_pos image]
    exact (if_pos image).symm
  · rw [if_neg image]
    exact (if_neg image).symm

@[simp] theorem memory_release (s : Store) (r : Ref) (size : Nat) :
    (s.release r size).memory = s.memory := by
  rw [release]
  split <;> rfl

/-- Free addresses and those beyond the last slab. -/
def spare (s : Store) : Set Nat := s.free.cells ∪ {i | s.slabEnd ≤ i}

@[simp] theorem mem_spare {s : Store} {i : Nat} :
    i ∈ s.spare ↔ i ∈ s.free.cells ∨ s.slabEnd ≤ i := Iff.rfl

structure Sound (s : Store) : Prop where
  free : s.free.Sound
  inside : ∀ i ∈ s.free.cells, s.baseline ≤ i ∧ i < s.slabEnd
  start : 8 ≤ s.baseline
  aligned : 8 ∣ s.baseline
  order : s.baseline ≤ s.slabEnd
  top : 8 ∣ s.slabEnd
  bound : s.slabEnd ≤ addressSpace

/-- Allocated addresses. -/
structure Owns (s : Store) (mine : Set Nat) : Prop where
  above : ∀ i ∈ mine, s.baseline ≤ i
  apart : Disjoint mine s.spare

/-- A computation that owned `mine` before and owns `mine'` after it. -/
structure Evolves (s : Store) (mine : Set Nat) (s' : Store) (mine' : Set Nat) : Prop where
  sound : s'.Sound
  owns : s'.Owns mine'
  baseline : s'.baseline = s.baseline
  top : s.slabEnd ≤ s'.slabEnd
  within : mine' ∪ s'.spare ⊆ mine ∪ s.spare
  kept : ∀ i, i ∉ mine → i ∉ s.spare → s'.memory.get i = s.memory.get i

variable {s s' s'' : Store} {mine mine' mine'' rest : Set Nat}

theorem sound_empty (settings : StoreSettings) : (empty settings).Sound where
  free := FreeList.sound_nil
  inside := by simp [empty]
  start := Nat.le_refl 8
  aligned := Nat.dvd_refl 8
  order := Nat.le_refl _
  top := Nat.dvd_refl 8
  bound := show 8 ≤ addressSpace by decide

/-- A store over an image has no slabs yet. -/
theorem ofImage_eq {settings : StoreSettings} {image : ByteArray} {root : Ref}
    (valid : ofImage settings image = .ok (s, root)) :
    s = { empty settings with attached := true, baseline := image.size, memory := ⟨image⟩ } := by
  rw [ofImage] at valid
  cases checked : Image.validate image with
  | error e =>
      rw [checked] at valid
      cases valid
  | ok found =>
      rw [checked] at valid
      cases valid
      rfl

theorem sound_ofImage {settings : StoreSettings} {image : ByteArray} {root : Ref}
    (bound : image.size ≤ addressSpace) (valid : ofImage settings image = .ok (s, root)) : s.Sound := by
  have size : ¬ (image.size < 2 * Image.frameSize ∨ image.size % 8 ≠ 0) := by
    intro bad
    simp [ofImage, Image.validate, bad, bind, Except.bind] at valid
  -- An image that is accepted consists of whole words and is not empty.
  have even : 8 ∣ image.size := by omega
  have start : 8 ≤ image.size := by
    rw [Image.frameSize] at size
    omega
  obtain rfl := ofImage_eq valid
  exact ⟨FreeList.sound_nil, by simp [empty], start, even, Nat.le_refl _, even, bound⟩

theorem Sound.spare_above (sound : s.Sound) {i : Nat} (spare : i ∈ s.spare) : s.baseline ≤ i := by
  rcases spare with free | beyond
  · exact (sound.inside i free).1
  · exact Nat.le_trans sound.order beyond

theorem owns_empty (s : Store) : s.Owns ∅ := ⟨by simp, by simp⟩

theorem owns_union : s.Owns (mine ∪ rest) ↔ s.Owns mine ∧ s.Owns rest := by
  constructor
  · rintro ⟨above, apart⟩
    rw [Set.disjoint_union_left] at apart
    exact ⟨⟨fun i h => above i (.inl h), apart.1⟩, ⟨fun i h => above i (.inr h), apart.2⟩⟩
  · rintro ⟨⟨above, apart⟩, ⟨above', apart'⟩⟩
    refine ⟨?_, Set.disjoint_union_left.mpr ⟨apart, apart'⟩⟩
    rintro i (h | h)
    · exact above i h
    · exact above' i h

theorem Owns.mono (owns : s.Owns mine) (less : rest ⊆ mine) : s.Owns rest :=
  ⟨fun i h => owns.above i (less h), owns.apart.mono_left less⟩

theorem Owns.below (owns : s.Owns mine) {i : Nat} (h : i ∈ mine) : i < s.slabEnd := by
  have : i ∉ s.spare := Set.disjoint_left.mp owns.apart h
  rw [mem_spare, not_or] at this
  exact Nat.lt_of_not_le this.2

namespace Evolves

theorem refl (sound : s.Sound) (owns : s.Owns mine) : Evolves s mine s mine :=
  ⟨sound, owns, rfl, Nat.le_refl _, Set.Subset.refl _, fun _ _ _ => rfl⟩

theorem trans (first : Evolves s mine s' mine') (second : Evolves s' mine' s'' mine'') :
    Evolves s mine s'' mine'' where
  sound := second.sound
  owns := second.owns
  baseline := second.baseline.trans first.baseline
  top := Nat.le_trans first.top second.top
  within := second.within.trans first.within
  kept := by
    intro i outside used
    have outside' : i ∉ mine' ∪ s'.spare := fun h => (first.within h).elim outside used
    rw [Set.mem_union, not_or] at outside'
    rw [second.kept i outside'.1 outside'.2, first.kept i outside used]

/-- What is owned afterwards may be forgotten. -/
theorem forget (step : Evolves s mine s' mine') (less : rest ⊆ mine') : Evolves s mine s' rest :=
  { step with
    owns := step.owns.mono less
    within := (Set.union_subset_union_left _ less).trans step.within }

theorem apart (step : Evolves s mine s' mine') (owns : s.Owns rest) (apart : Disjoint mine rest) :
    Disjoint mine' rest := by
  rw [Set.disjoint_right] at apart ⊢
  intro i other mine'
  rcases step.within (.inl mine') with h | h
  · exact apart other h
  · exact Set.disjoint_left.mp owns.apart other h

theorem still_owns (step : Evolves s mine s' mine') (owns : s.Owns rest)
    (apart : Disjoint mine rest) : s'.Owns rest := by
  constructor
  · rw [step.baseline]
    exact owns.above
  · rw [Set.disjoint_left] at apart ⊢
    intro i other spare
    rcases step.within (.inr spare) with h | h
    · exact apart h other
    · exact Set.disjoint_left.mp owns.apart other h

theorem same (step : Evolves s mine s' mine') (owns : s.Owns rest) (apart : Disjoint mine rest)
    {i : Nat} (other : i ∈ rest) : s'.memory.get i = s.memory.get i :=
  step.kept i (Set.disjoint_right.mp apart other) (Set.disjoint_left.mp owns.apart other)

/-- Nothing is written to the image. -/
theorem image (step : Evolves s mine s' mine') (sound : s.Sound) (owns : s.Owns mine) {i : Nat}
    (below : i < s.baseline) : s'.memory.get i = s.memory.get i := by
  apply step.kept
  · intro h
    exact Nat.not_lt_of_le (owns.above i h) below
  · intro h
    exact Nat.not_lt_of_le (sound.spare_above h) below

theorem frame (step : Evolves s mine s' mine') (owns : s.Owns rest) (apart : Disjoint mine rest) :
    Evolves s (mine ∪ rest) s' (mine' ∪ rest) where
  sound := step.sound
  owns := owns_union.mpr ⟨step.owns, step.still_owns owns apart⟩
  baseline := step.baseline
  top := step.top
  within := by
    rintro i ((h | h) | h)
    · rcases step.within (.inl h) with h | h
      · exact .inl (.inl h)
      · exact .inr h
    · exact .inl (.inr h)
    · rcases step.within (.inr h) with h | h
      · exact .inl (.inl h)
      · exact .inr h
  kept := by
    intro i outside used
    exact step.kept i (fun h => outside (.inl h)) used

end Evolves

theorem write_evolves {m : Memory} (sound : s.Sound) (owns : s.Owns mine)
    (kept : ∀ i, i ∉ mine → m.get i = s.memory.get i) :
    Evolves s mine (s.withMemory m) mine where
  sound := ⟨sound.free, sound.inside, sound.start, sound.aligned, sound.order, sound.top,
    sound.bound⟩
  owns := ⟨owns.above, owns.apart⟩
  baseline := rfl
  top := Nat.le_refl _
  within := Set.Subset.refl _
  kept := fun i outside _ => kept i outside

theorem releaseMutable_evolves {r size : Nat} (sound : s.Sound) (owns : s.Owns (block r size))
    (start : 8 ∣ r) (even : 8 ∣ size) : Evolves s (block r size) (s.releaseMutable r size) ∅ := by
  have grouped := FreeList.release_regroups s.isBoundary r size s.free
  have free : (s.free.release s.isBoundary r size).cells = block r size ∪ s.free.cells := by
    rw [grouped.cells, FreeList.cells_cons]
    rfl
  have apart := Set.disjoint_left.mp owns.apart
  constructor
  · constructor
    · apply grouped.sound
      rw [FreeList.sound_cons]
      exact ⟨Set.disjoint_left.mpr fun i h h' => apart h (.inl h'), ⟨start, even⟩, sound.free⟩
    · intro i h
      rw [releaseMutable, free] at h
      rcases h with h | h
      · exact ⟨owns.above i h, owns.below h⟩
      · exact sound.inside i h
    · exact sound.start
    · exact sound.aligned
    · exact sound.order
    · exact sound.top
    · exact sound.bound
  · exact owns_empty _
  · rfl
  · exact Nat.le_refl _
  · rw [Set.empty_union]
    rintro i (h | h)
    · rw [releaseMutable, free] at h
      rcases h with h | h
      · exact .inl h
      · exact .inr (.inl h)
    · exact .inr (.inr h)
  · exact fun i _ _ => rfl

theorem release_evolves {r size : Nat} (sound : s.Sound) (owns : s.Owns (block r size))
    (start : 8 ∣ r) (even : 8 ∣ size) (mutable : s.baseline ≤ r) :
    Evolves s (block r size) (s.release r size) ∅ := by
  have : ¬ s.isReadOnly r := by simpa [isReadOnly] using mutable
  rw [release, if_neg this]
  exact releaseMutable_evolves sound owns start even

theorem releaseReadOnly_evolves {r : Ref} (size : Nat) (sound : s.Sound) (owns : s.Owns mine)
    (image : s.isReadOnly r) : Evolves s mine (s.release r size) mine := by
  rw [release, if_pos image]
  exact ⟨⟨sound.free, sound.inside, sound.start, sound.aligned, sound.order, sound.top,
    sound.bound⟩,
    ⟨owns.above, owns.apart⟩, rfl, Nat.le_refl _, Set.Subset.refl _, fun _ _ _ => rfl⟩

/-- A slab holds the block it is made for. -/
theorem le_slabSizeFor {size slabSize : Nat} (found : s.slabSizeFor? size = some slabSize) :
    size ≤ slabSize := by
  have preferred : size ≤ s.preferredSlabSize size := by
    rw [preferredSlabSize]
    omega
  rw [slabSizeFor?] at found
  split at found
  next => cases found; exact preferred
  next limit _ =>
    split at found
    next => cases found; exact preferred
    next =>
      split at found
      next => cases found; exact Nat.le_refl _
      next => cases found

theorem addSlab_evolves {slabSize size : Nat} (sound : s.Sound) (even : 8 ∣ size)
    (fits : size ≤ slabSize) (bound : s.slabEnd + slabBytesFor slabSize ≤ addressSpace) :
    Evolves s ∅ (s.addSlab slabSize size) (block s.slabEnd size) := by
  obtain ⟨bytes, slab⟩ : ∃ bytes, slabBytesFor slabSize = bytes := ⟨_, rfl⟩
  rw [slab] at bound
  have whole : 8 ∣ bytes := by
    rw [← slab, slabBytesFor, roundUp8]
    omega
  have room : size ≤ bytes := by
    rw [← slab, slabBytesFor, roundUp8]
    omega
  have top := sound.top
  -- All of the slab is owned first; what the block does not need is released from that.
  let grown : Store :=
    { s with slabEnds := (s.slabEnd + bytes) :: s.slabEnds, slabBytes := s.slabBytes + bytes }
  have grows : Evolves s ∅ grown (block s.slabEnd bytes) := by
    refine ⟨⟨sound.free, ?_, sound.start, sound.aligned, ?_, Nat.dvd_add top whole, bound⟩, ⟨?_, ?_⟩,
      rfl, Nat.le_add_right _ _, ?_, fun _ _ _ => rfl⟩
    · intro i h
      have := sound.inside i h
      exact ⟨this.1, Nat.lt_of_lt_of_le this.2 (Nat.le_add_right _ _)⟩
    · exact Nat.le_trans sound.order (Nat.le_add_right _ _)
    · intro i h
      exact Nat.le_trans sound.order h.1
    · rw [Set.disjoint_left]
      rintro i h (h' | h')
      · exact Nat.not_lt_of_le h.1 (sound.inside i h').2
      · exact Nat.not_lt_of_le h' h.2
    · rintro i (h | h | h)
      · exact .inr (.inr h.1)
      · exact .inr (.inl h)
      · exact .inr (.inr (Nat.le_trans (Nat.le_add_right _ _) h))
  have parts : block s.slabEnd bytes =
      block (s.slabEnd + size) (bytes - size) ∪ block s.slabEnd size := by
    ext i
    simp only [mem_block, Set.mem_union]
    omega
  have apart : Disjoint (block (s.slabEnd + size) (bytes - size)) (block s.slabEnd size) := by
    rw [Set.disjoint_left]
    intro i
    simp only [mem_block]
    omega
  rw [parts] at grows
  obtain ⟨rest, taken⟩ := owns_union.mp grows.owns
  have gives := (releaseMutable_evolves grows.sound rest (Nat.dvd_add top even)
    (Nat.dvd_sub whole even)).frame taken apart
  rw [Set.empty_union] at gives
  rw [addSlab, slab]
  exact grows.trans gives

/-- What allocation gives: a fresh aligned block, and memory as it was. -/
structure Allocated (s : Store) (size : Nat) (r : Ref) (s' : Store) : Prop where
  evolves : Evolves s ∅ s' (block r size)
  memory : s'.memory = s.memory
  start : 8 ∣ r
  mutable : s.baseline ≤ r

theorem Allocated.positive {size : Nat} {r : Ref} (allocated : Allocated s size r s')
    (sound : s.Sound) : 0 < r :=
  Nat.lt_of_lt_of_le (by decide) (Nat.le_trans sound.start allocated.mutable)

theorem Allocated.bound {size : Nat} {r : Ref} (allocated : Allocated s size r s')
    (some : 0 < size) : r < addressSpace :=
  Nat.lt_of_lt_of_le (allocated.evolves.owns.below ⟨Nat.le_refl r, Nat.lt_add_of_pos_right some⟩)
    allocated.evolves.sound.bound

theorem allocate_allocated {size : Nat} {r : Ref} (sound : s.Sound) (even : 8 ∣ size)
    (positive : 0 < size) (ok : s.allocate size = (.ok r, s')) : Allocated s size r s' := by
  rw [allocate] at ok
  split at ok
  next found free taken =>
    cases ok
    have grouped := FreeList.take_regroups even taken
    have cells : block r size ∪ free.cells = s.free.cells := by
      rw [← grouped.cells, FreeList.cells_cons]
      rfl
    have split := FreeList.sound_cons.mp (grouped.sound sound.free)
    have first : r ∈ s.free.cells := by
      rw [← cells]
      exact .inl ⟨Nat.le_refl _, by omega⟩
    refine ⟨⟨⟨split.2.2, ?_, sound.start, sound.aligned, sound.order, sound.top,
    sound.bound⟩, ⟨?_, ?_⟩, rfl,
      Nat.le_refl _, ?_, fun _ _ _ => rfl⟩, rfl, split.2.1.1, (sound.inside _ first).1⟩
    · intro i h
      exact sound.inside i (cells ▸ .inr h)
    · intro i h
      exact (sound.inside i (cells ▸ .inl h)).1
    · rw [Set.disjoint_left]
      rintro i h (h' | h')
      · exact Set.disjoint_left.mp split.1 h h'
      · exact Nat.not_lt_of_le h' (sound.inside i (cells ▸ .inl h)).2
    · rintro i (h | h | h)
      · exact .inr (.inl (cells ▸ .inl h))
      · exact .inr (.inl (cells ▸ .inr h))
      · exact .inr (.inr h)
  next =>
    split at ok
    next => cases ok
    next slabSize found =>
      split at ok
      next bound =>
        cases ok
        exact ⟨addSlab_evolves sound even (le_slabSizeFor found) bound, rfl, sound.top, sound.order⟩
      next => cases ok

end Store

end ColumnStore
