import ColumnStore.Ascending

set_option autoImplicit false

/-!
Free chunks in order of their start. A released chunk merges with the neighbours it touches, unless
the shared edge is a boundary between slabs; a block is taken from the first chunk that holds it.
-/
namespace ColumnStore

structure Chunk where
  start : Nat
  size : Nat
  deriving DecidableEq, Repr, Inhabited

def Chunk.stop (c : Chunk) : Nat := c.start + c.size

abbrev FreeList := List Chunk

namespace FreeList

def total (l : FreeList) : Nat := l.foldl (fun total c => total + c.size) 0

/-- The start of the taken block, and what is left. -/
def take (size : Nat) : FreeList → Option (Nat × FreeList)
  | [] => none
  | c :: cs =>
      if size ≤ c.size then
        if c.size = size then some (c.start, cs)
        else some (c.start, ⟨c.start + size, c.size - size⟩ :: cs)
      else (take size cs).map fun (r, cs) => (r, c :: cs)

/-- Chunk `c` in front of the chunks after it. -/
def prepend (boundary : Nat → Bool) (c : Chunk) : FreeList → FreeList
  | [] => [c]
  | d :: ds =>
      if c.stop = d.start ∧ ¬ boundary d.start then ⟨c.start, c.size + d.size⟩ :: ds
      else c :: d :: ds

/-- Chunk `c` after `d`, the last chunk that starts below it. -/
def between (boundary : Nat → Bool) (d c : Chunk) (ds : FreeList) : FreeList :=
  if d.stop = c.start ∧ ¬ boundary c.start then prepend boundary ⟨d.start, d.size + c.size⟩ ds
  else d :: prepend boundary c ds

/-- Chunk `c` after the chunks that start below it. -/
def place (boundary : Nat → Bool) (c : Chunk) (l : FreeList) : FreeList :=
  let (below, above) := l.splitAt (Ascending.count (·.start < c.start) l)
  match below.getLast? with
  | none => prepend boundary c above
  | some d => below.dropLast ++ between boundary d c above

def release (boundary : Nat → Bool) (start size : Nat) (l : FreeList) : FreeList :=
  if size = 0 then l else place boundary ⟨start, size⟩ l

/-- Starts and sizes given from outside are kept to 64 bits. -/
def wrap (l : FreeList) : FreeList := l.map fun c => ⟨c.start % UInt64.size, c.size % UInt64.size⟩

theorem take_eq_none_iff (size : Nat) (l : FreeList) :
    take size l = none ↔ ∀ c ∈ l, c.size < size := by
  induction l with
  | nil => simp [take]
  | cons c cs ih =>
      rw [take, List.forall_mem_cons]
      split
      next fits =>
        have not : ¬ c.size < size := Nat.not_lt_of_le fits
        split <;> simp [not]
      next small => rw [Option.map_eq_none_iff, ih, and_iff_right (Nat.lt_of_not_le small)]

end FreeList

end ColumnStore
