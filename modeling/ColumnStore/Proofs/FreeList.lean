import ColumnStore.Proofs.Store

set_option autoImplicit false

/-!
What the chunks of a free list have in common, after blocks were taken from it and released to it.
-/
namespace ColumnStore.FreeList

theorem cells_append (l l' : FreeList) : cells (l ++ l') = l.cells ∪ l'.cells := by
  induction l with
  | nil => rw [List.nil_append, cells_nil, Set.empty_union]
  | cons c l ih => rw [List.cons_append, cells_cons, cells_cons, ih, Set.union_assoc]

theorem total_append (a b : FreeList) : total (a ++ b) = total a + total b := by
  induction a with
  | nil => rw [List.nil_append, total_nil, Nat.zero_add]
  | cons c a ih => rw [List.cons_append, total_cons, total_cons, ih, Nat.add_assoc]

theorem total_eq_zero {l : FreeList} (positive : ∀ c ∈ l, 0 < c.size) : l.total = 0 ↔ l = [] := by
  cases l with
  | nil => exact ⟨fun _ => rfl, fun _ => rfl⟩
  | cons c l =>
      have := positive c (List.mem_cons_self ..)
      rw [total_cons]
      exact ⟨fun zero => by omega, fun none => by cases none⟩

/-- Only chunks that hold bytes can overlap. -/
theorem disjoint_cells {l : FreeList} {start size : Nat} : Disjoint (block start size) l.cells ↔
    ∀ c ∈ l, size = 0 ∨ c.size = 0 ∨ start + size ≤ c.start ∨ c.stop ≤ start := by
  constructor
  · intro apart c there
    by_contra overlap
    have here : max start c.start ∈ block start size := by
      simp only [mem_block, Chunk.stop] at overlap ⊢
      omega
    refine Set.disjoint_left.mp apart here ⟨c, there, ?_⟩
    simp only [Chunk.mem_cells, Chunk.stop] at overlap ⊢
    omega
  · intro apart
    refine Set.disjoint_left.mpr ?_
    rintro i here ⟨c, there, inside⟩
    have := apart c there
    simp only [mem_block, Chunk.mem_cells, Chunk.stop] at here inside this
    omega

/-! ### Properties of all chunks -/

section

variable {boundary : Nat → Bool} {P : Chunk → Prop} {c d : Chunk} {l : FreeList}
  (join : ∀ {c d : Chunk}, P c → P d → c.stop = d.start → ¬ boundary d.start →
    P ⟨c.start, c.size + d.size⟩)
include join

theorem forall_prepend (first : P c) (rest : ∀ d ∈ l, P d) : ∀ d ∈ prepend boundary c l, P d := by
  cases l with
  | nil => exact List.forall_mem_singleton.mpr first
  | cons d ds =>
      obtain ⟨second, rest⟩ := List.forall_mem_cons.mp rest
      rw [prepend]
      split
      next touch => exact List.forall_mem_cons.mpr ⟨join first second touch.1 touch.2, rest⟩
      next => exact List.forall_mem_cons.mpr ⟨first, List.forall_mem_cons.mpr ⟨second, rest⟩⟩

theorem forall_between (first : P d) (second : P c) (rest : ∀ d ∈ l, P d) :
    ∀ e ∈ between boundary d c l, P e := by
  rw [between]
  split
  next touch => exact forall_prepend join (join first second touch.1 touch.2) rest
  next => exact List.forall_mem_cons.mpr ⟨first, forall_prepend join second rest⟩

theorem forall_place (block : P c) (rest : ∀ d ∈ l, P d) : ∀ d ∈ place boundary c l, P d := by
  rw [place, List.splitAt_eq]
  generalize Ascending.count (fun d : Chunk => decide (d.start < c.start)) l = k
  have above (d : Chunk) (there : d ∈ l.drop k) : P d := rest d (List.mem_of_mem_drop there)
  cases last : (List.take k l).getLast? with
  | none =>
      simp only [last]
      exact forall_prepend join block above
  | some d =>
      simp only [last]
      have there := List.mem_of_mem_take (List.mem_of_getLast? last)
      rw [List.forall_mem_append]
      exact ⟨fun e there => rest e (List.mem_of_mem_take (List.dropLast_subset _ there)),
        forall_between join (rest d there) block above⟩

end

/-- A property that chunks pass on to their parts, and to one chunk when they merge. -/
structure Inherited (boundary : Nat → Bool) (P : Chunk → Prop) : Prop where
  front : ∀ {c : Chunk} {size : Nat}, P c → size ≤ c.size → P ⟨c.start, size⟩
  back : ∀ {c : Chunk} {size : Nat}, P c → size ≤ c.size → P ⟨c.start + size, c.size - size⟩
  join : ∀ {c d : Chunk}, P c → P d → c.stop = d.start → ¬ boundary d.start →
    P ⟨c.start, c.size + d.size⟩

namespace Inherited

variable {boundary : Nat → Bool} {P : Chunk → Prop} {l l' : FreeList} (parts : Inherited boundary P)
include parts

theorem take {size r : Nat} (each : ∀ c ∈ l, P c) (taken : l.take size = some (r, l')) :
    P ⟨r, size⟩ ∧ ∀ c ∈ l', P c := by
  obtain ⟨below, c, above, rfl, -, fits, rfl, rfl⟩ := take_eq_some taken
  obtain ⟨low, high⟩ := List.forall_mem_append.mp each
  obtain ⟨here, high⟩ := List.forall_mem_cons.mp high
  refine ⟨parts.front here fits, List.forall_mem_append.mpr ⟨low, ?_⟩⟩
  split
  next => exact high
  next => exact List.forall_mem_cons.mpr ⟨parts.back here fits, high⟩

theorem release {start size : Nat} (block : P ⟨start, size⟩) (rest : ∀ d ∈ l, P d) :
    ∀ d ∈ FreeList.release boundary start size l, P d := by
  rw [FreeList.release]
  split
  next => exact rest
  next => exact forall_place parts.join block rest

end Inherited

end ColumnStore.FreeList
