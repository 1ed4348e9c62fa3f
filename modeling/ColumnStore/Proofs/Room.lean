import ColumnStore.Node.Basic
import ColumnStore.Proofs.Blocks

set_option autoImplicit false

/-!
Room for new nodes. They all take blocks of one size, so the room that free chunks have is a number
of blocks: making a node takes one of them, and giving a node back adds one, however chunks are cut
and merged.
-/
namespace ColumnStore

namespace FreeList

variable {boundary : Nat → Bool} {c d : Chunk} {l l' : FreeList} {size start bytes r : Nat}

/-- How many blocks of a size the chunks hold. -/
def slots (size : Nat) (l : FreeList) : Nat := (l.map (·.size / size)).sum

@[simp] theorem slots_nil (size : Nat) : slots size [] = 0 := rfl

@[simp] theorem slots_cons (size : Nat) (c : Chunk) (l : FreeList) :
    slots size (c :: l) = c.size / size + slots size l := List.sum_cons

@[simp] theorem slots_append (size : Nat) (l l' : FreeList) :
    slots size (l ++ l') = slots size l + slots size l' := by
  rw [slots, List.map_append, List.sum_append, ← slots, ← slots]

theorem slots_eq_zero (small : ∀ c ∈ l, c.size < size) : slots size l = 0 := by
  induction l with
  | nil => rfl
  | cons c l ih =>
      obtain ⟨first, rest⟩ := List.forall_mem_cons.mp small
      rw [slots_cons, ih rest, Nat.div_eq_of_lt first]

theorem slots_take (positive : 0 < size) (taken : l.take size = some (r, l')) :
    slots size l' + 1 = slots size l := by
  induction l generalizing l' with
  | nil => cases taken
  | cons c l ih =>
      rw [FreeList.take] at taken
      by_cases fits : size ≤ c.size
      · have one : c.size / size = (c.size - size) / size + 1 := Nat.div_eq_sub_div positive fits
        rw [if_pos fits] at taken
        by_cases whole : c.size = size
        · rw [if_pos whole] at taken
          cases taken
          rw [slots_cons, whole, Nat.div_self positive, Nat.add_comm]
        · rw [if_neg whole] at taken
          cases taken
          rw [slots_cons, slots_cons, one, Nat.add_right_comm]
      · rw [if_neg fits] at taken
        obtain ⟨⟨r', l''⟩, found, same⟩ := Option.map_eq_some_iff.mp taken
        cases same
        rw [slots_cons, slots_cons, Nat.add_assoc, ih found]

/-- A merged chunk holds what its parts held, or more. -/
theorem slots_prepend (size : Nat) (boundary : Nat → Bool) (c : Chunk) (l : FreeList) :
    slots size (c :: l) ≤ slots size (prepend boundary c l) := by
  cases l with
  | nil => exact Nat.le_refl _
  | cons d l =>
      rw [prepend]
      split
      next =>
        have := @Nat.div_add_div_le_add_div c.size d.size size
        simp only [slots_cons]
        omega
      next => exact Nat.le_refl _

theorem slots_between (size : Nat) (boundary : Nat → Bool) (d c : Chunk) (l : FreeList) :
    slots size (d :: c :: l) ≤ slots size (between boundary d c l) := by
  rw [between]
  split
  next =>
    have parts := @Nat.div_add_div_le_add_div d.size c.size size
    have merged := slots_prepend size boundary ⟨d.start, d.size + c.size⟩ l
    simp only [slots_cons] at merged ⊢
    omega
  next =>
    rw [slots_cons, slots_cons size d]
    exact Nat.add_le_add_left (slots_prepend size boundary c l) _

theorem slots_release (size : Nat) (boundary : Nat → Bool) (start bytes : Nat) (l : FreeList) :
    slots size l + bytes / size ≤ slots size (release boundary start bytes l) := by
  rw [release]
  split
  next none => rw [none, Nat.zero_div, Nat.add_zero]
  next =>
    rw [place, List.splitAt_eq]
    generalize Ascending.count (fun d : Chunk => decide (d.start < start)) l = k
    have parts : List.take k l ++ List.drop k l = l := List.take_append_drop k l
    generalize List.take k l = below at parts ⊢
    generalize List.drop k l = above at parts ⊢
    subst parts
    cases last : below.getLast? with
    | none =>
        rw [List.getLast?_eq_none_iff] at last
        subst last
        have here := slots_prepend size boundary ⟨start, bytes⟩ above
        rw [slots_cons] at here
        rw [List.nil_append, Nat.add_comm]
        exact here
    | some d =>
        obtain ⟨front, split⟩ := List.getLast?_eq_some_iff.mp last
        subst split
        have here := slots_between size boundary d ⟨start, bytes⟩ above
        simp only [last, List.dropLast_concat, slots_append, slots_cons, slots_nil] at here ⊢
        omega

end FreeList

namespace Store

variable {s s' : Store} {r : Ref} {total used : Nat}

/-- How many new nodes the free chunks hold. -/
def slots (s : Store) : Nat := s.free.slots Header.initialCapacity

/-- Bytes of a slab that is made for a new node. -/
def nextSlab (s : Store) : Nat := slabBytesFor (s.preferredSlabSize Header.initialCapacity)

/-- There is no memory limit, and there is room until `total` new nodes are in use at once, of
which `used` are already. New slabs double, so they take at most four times what they hold. -/
structure Roomy (s : Store) (total used : Nat) : Prop where
  unlimited : s.settings.memoryLimit = none
  room : total ≤ s.slots + used ∨
    s.nextSlab + s.slabEnd ≤ addressSpace ∧
      4 * (total * Header.initialCapacity) + s.slabEnd ≤ addressSpace + s.nextSlab

/-- Far from the end of the address space there is room. -/
theorem roomy_of_space (unlimited : s.settings.memoryLimit = none)
    (space : s.nextSlab + 4 * (total * Header.initialCapacity) + s.slabEnd ≤ addressSpace) :
    s.Roomy total 0 :=
  ⟨unlimited, .inr ⟨by omega, by omega⟩⟩

theorem Roomy.withMemory (roomy : s.Roomy total used) (m : Memory) :
    (s.withMemory m).Roomy total used :=
  ⟨roomy.unlimited, roomy.room⟩

/-- Slabs are at least twice as long as the one before. -/
theorem nextSlab_addSlab : (s.addSlab (s.preferredSlabSize Header.initialCapacity)
    Header.initialCapacity).nextSlab = 2 * s.nextSlab := by
  obtain ⟨next, same⟩ : ∃ next, s.nextSlab = next := ⟨_, rfl⟩
  have whole : 8 ∣ next := same ▸ dvd_slabBytesFor _
  have large : s.preferredSlabSize Header.initialCapacity ≤ next := same ▸ le_slabBytesFor _
  have last : (s.addSlab (s.preferredSlabSize Header.initialCapacity)
      Header.initialCapacity).lastSlabSize = next := by
    show s.slabEnd + s.nextSlab - s.slabEnd = next
    rw [same, Nat.add_sub_cancel_left]
  rw [preferredSlabSize] at large
  rw [nextSlab, preferredSlabSize, last, same]
  show slabBytesFor (max (max Header.initialCapacity s.settings.minSlabSize) (next * 2)) = 2 * next
  rw [Header.initialCapacity] at large ⊢
  rw [slabBytesFor, roundUp8]
  omega

/-- What a new slab has besides the block it is made for. -/
theorem slots_addSlab (slabSize size : Nat) :
    (slabBytesFor slabSize - size) / Header.initialCapacity ≤ (s.addSlab slabSize size).slots := by
  rw [slots, addSlab, releaseMutable]
  exact Nat.le_trans (Nat.le_add_left _ _) (FreeList.slots_release ..)

theorem Roomy.allocate (roomy : s.Roomy total used) (more : used < total) :
    ∃ r s', s.allocate Header.initialCapacity = (.ok r, s') ∧ s'.Roomy total (used + 1) := by
  rw [Store.allocate]
  cases taken : s.free.take Header.initialCapacity with
  | some found =>
      obtain ⟨r, free⟩ := found
      have fewer := FreeList.slots_take (by decide) taken
      refine ⟨r, _, rfl, roomy.unlimited, roomy.room.imp (fun room => ?_) id⟩
      rw [slots] at room
      show total ≤ free.slots Header.initialCapacity + (used + 1)
      omega
  | none =>
      have full : s.slots = 0 :=
        FreeList.slots_eq_zero ((FreeList.take_eq_none_iff _ _).mp taken)
      obtain ⟨space, spaces⟩ := roomy.room.resolve_left (by omega)
      simp only [slabSizeFor?, roomy.unlimited]
      rw [if_pos (Nat.add_comm s.nextSlab s.slabEnd ▸ space)]
      refine ⟨_, _, rfl, roomy.unlimited, ?_⟩
      have large : Header.initialCapacity ≤ s.nextSlab := by
        refine Nat.le_trans ?_ (le_slabBytesFor _)
        rw [preferredSlabSize]
        omega
      have held : (s.nextSlab - Header.initialCapacity) / Header.initialCapacity + 1 =
          s.nextSlab / Header.initialCapacity := (Nat.div_eq_sub_div (by decide) large).symm
      have gained : (s.nextSlab - Header.initialCapacity) / Header.initialCapacity ≤
          (s.addSlab (s.preferredSlabSize Header.initialCapacity) Header.initialCapacity).slots :=
        slots_addSlab _ _
      have top : (s.addSlab (s.preferredSlabSize Header.initialCapacity)
          Header.initialCapacity).slabEnd = s.slabEnd + s.nextSlab := rfl
      by_cases enough : total ≤ s.nextSlab / Header.initialCapacity + used
      · exact .inl (by omega)
      · -- A slab that does not hold all nodes is shorter than they are.
        have short : s.nextSlab < total * Header.initialCapacity :=
          (Nat.div_lt_iff_lt_mul (by decide)).mp (by omega)
        rw [top, nextSlab_addSlab]
        exact .inr ⟨by omega, by omega⟩

theorem Roomy.release (roomy : s.Roomy total (used + 1)) (mutable : s.baseline ≤ r) :
    (s.release r Header.initialCapacity).Roomy total used := by
  have : ¬ s.isReadOnly r := by simpa [isReadOnly] using mutable
  rw [Store.release, if_neg this]
  obtain ⟨unlimited, room | space⟩ := roomy
  · have more := FreeList.slots_release Header.initialCapacity s.isBoundary r
      Header.initialCapacity s.free
    rw [Nat.div_self (show 0 < Header.initialCapacity by decide)] at more
    refine ⟨unlimited, .inl ?_⟩
    rw [slots] at room
    show total ≤ (s.free.release s.isBoundary r Header.initialCapacity).slots
      Header.initialCapacity + used
    omega
  · exact ⟨unlimited, .inr space⟩

end Store

end ColumnStore
