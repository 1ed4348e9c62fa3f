import ColumnStore.Image.Frame
import ColumnStore.Settings
import ColumnStore.Store.FreeList

set_option autoImplicit false

/-!
The store hands out blocks of bytes. Refs below the baseline belong to a read-only image; slabs
follow one another above it, and every block lies inside one slab.
-/
namespace ColumnStore

structure Store where
  settings : StoreSettings
  /-- A read-only image lies below the baseline. -/
  attached : Bool
  baseline : Ref
  /-- Where each slab ends, the newest first. -/
  slabEnds : List Ref
  slabBytes : Nat
  free : FreeList
  /-- Released parts of the image, which are never reused. -/
  freeReadOnly : FreeList
  memory : Memory

/-- A computation on a store; the store it has reached is kept when it fails. -/
abbrev StoreM := ExceptT Error (StateM Store)

namespace Store

/-- Without an image the first ref is 8, so that no block is at ref 0. -/
def emptyBaseline : Ref := 8

def empty (settings : StoreSettings) : Store where
  settings := settings
  attached := false
  baseline := emptyBaseline
  slabEnds := []
  slabBytes := 0
  free := []
  freeReadOnly := []
  memory := .empty

def ofImage (settings : StoreSettings) (image : ByteArray) : Except Error (Store × Ref) := do
  let root ← Image.validate image
  return ({ empty settings with
    attached := true
    baseline := image.size
    memory := ⟨image⟩ }, root)

def isReadOnly (s : Store) (r : Ref) : Bool := r < s.baseline

def isBoundary (s : Store) (r : Ref) : Bool := s.slabEnds.contains r

/-- Where the next slab starts. -/
def slabEnd (s : Store) : Ref := s.slabEnds.headD s.baseline

def lastSlabSize (s : Store) : Nat := s.slabEnd - s.slabEnds.tail.headD s.baseline

def isAllFree (s : Store) : Bool := s.free.total = s.slabBytes

/-- Slabs double, and hold the block they are made for. -/
def preferredSlabSize (s : Store) (size : Nat) : Nat :=
  max (max size s.settings.minSlabSize) (s.lastSlabSize * 2)

/-- Near the memory limit a slab is no larger than its first block. -/
def slabSizeFor? (s : Store) (size : Nat) : Option Nat :=
  match s.settings.memoryLimit with
  | none => some (s.preferredSlabSize size)
  | some limit =>
      if s.slabBytes + s.preferredSlabSize size ≤ limit then some (s.preferredSlabSize size)
      else if s.slabBytes + size ≤ limit then some size
      else none

def roundUp8 (n : Nat) : Nat := (n + 7) / 8 * 8

/-- Refs have 64 bits. -/
def addressSpace : Nat := UInt64.size

/-- Slabs are made of whole words. -/
def slabBytesFor (slabSize : Nat) : Nat := max 8 (roundUp8 slabSize)

def releaseMutable (s : Store) (r : Ref) (size : Nat) : Store :=
  { s with free := s.free.release s.isBoundary r size }

/-- A new slab with its first block taken. -/
def addSlab (s : Store) (slabSize size : Nat) : Store :=
  let start := s.slabEnd
  let bytes := slabBytesFor slabSize
  releaseMutable
    { s with slabEnds := (start + bytes) :: s.slabEnds, slabBytes := s.slabBytes + bytes }
    (start + size) (bytes - size)

/-- A block from the free chunks, else from a new slab. -/
def allocate (size : Nat) (s : Store) : Except Error Ref × Store :=
  match s.free.take size with
  | some (r, free) => (.ok r, { s with free })
  | none =>
      match s.slabSizeFor? size with
      | none => (.error (.outOfMemory size), s)
      | some slabSize =>
          if s.slabEnd + slabBytesFor slabSize ≤ addressSpace then
            (.ok s.slabEnd, s.addSlab slabSize size)
          else (.error (.outOfMemory size), s)

def release (r : Ref) (size : Nat) (s : Store) : Store :=
  if s.isReadOnly r then
    { s with freeReadOnly := s.freeReadOnly.release (fun _ => false) r size }
  else s.releaseMutable r size

end Store

namespace StoreM

def memory : StoreM Memory := fun s => (.ok s.memory, s)

@[inline] def modifyMemory (f : Memory → Memory) : StoreM Unit :=
  fun ⟨settings, attached, baseline, slabEnds, slabBytes, free, freeReadOnly, memory⟩ =>
    (.ok (), ⟨settings, attached, baseline, slabEnds, slabBytes, free, freeReadOnly, f memory⟩)

def allocate (size : Nat) : StoreM Ref := fun s => s.allocate size

def free (r : Ref) (size : Nat) : StoreM Unit := fun s => (.ok (), s.release r size)

/-- Moves a block and its leading bytes. -/
def reallocate (r : Ref) (oldSize newSize : Nat) : StoreM Ref := do
  let target ← allocate newSize
  modifyMemory fun m => m.move r target (min oldSize newSize)
  free r oldSize
  return target

@[inline] def isReadOnly (r : Ref) : StoreM Bool := fun s => (.ok (s.isReadOnly r), s)

end StoreM

end ColumnStore
