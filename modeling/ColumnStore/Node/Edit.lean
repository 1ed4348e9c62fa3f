import ColumnStore.Node.Basic

set_option autoImplicit false

/-!
Edits of a node of packed integers. The width grows with the values written and falls back to zero
only when the node is emptied or zeroed; a node in the read-only image is copied out first.
-/
namespace ColumnStore.Node

open StoreM (modifyMemory)

/-- Spare bytes given to a node that is copied out of the image. -/
def copySlack : Nat := 64

def copyOnWrite : Edit Node Unit := do
  let n ← Edit.self
  if ← StoreM.isReadOnly n.ref then
    let used := n.byteSize
    let capacity := max (min (used + copySlack) Header.maxCapacity) used
    let target ← StoreM.allocate capacity
    modifyMemory fun m => (m.move n.ref target used).setHeaderCapacity target capacity
    Edit.put ⟨target, { n.head with capacity }⟩
    StoreM.free n.ref n.footprint

/-- A block at least doubles when it grows, up to the largest capacity. -/
def grownCapacity (capacity needed : Nat) : Nat :=
  Store.roundUp8 (min (max (capacity * 2) needed) Header.maxCapacity)

/-- Room for `count` elements at `width`; the stored size and width change, the known ones do not. -/
def reserve (count width : Nat) : Edit Node Unit := do
  let n ← Edit.self
  let needed := Header.bytesFor count width n.head.layout
  if n.capacity < needed then
    if Header.maxCapacity < needed then
      throw (.capacityExceeded needed Header.maxCapacity)
    let capacity := grownCapacity n.capacity needed
    let target ← StoreM.reallocate n.ref n.byteSize capacity
    Edit.put ⟨target, { n.head with capacity }⟩
    modifyMemory fun m => m.setHeaderCapacity target capacity
  let n ← Edit.self
  modifyMemory fun m => (m.setHeaderWidth n.ref width).setHeaderSize n.ref count

@[inline] def setKnownWidth (width : Nat) : Edit Node Unit :=
  Edit.update fun n => { n with head := { n.head with width } }

@[inline] def setKnownSize (size : Nat) : Edit Node Unit :=
  Edit.update fun n => { n with head := { n.head with size } }

def setSize (size : Nat) : Edit Node Unit := do
  setKnownSize size
  let n ← Edit.self
  modifyMemory fun m => m.setHeaderSize n.ref size

def setWidth (width : Nat) : Edit Node Unit := do
  setKnownWidth width
  let n ← Edit.self
  modifyMemory fun m => m.setHeaderWidth n.ref width

/-- Every element is kept, at a width that fits `v` too. -/
def ensureWidth (v : Int64) : Edit Node Unit := do
  let old ← Edit.self
  if !Width.fits old.width v then
    copyOnWrite
    let width := Width.ofValue v
    reserve old.size width
    setKnownWidth width
    let n ← Edit.self
    modifyMemory fun m => m.widen n.data old.width width n.size

def set (i : Nat) (v : Int64) : Edit Node Unit := do
  copyOnWrite
  ensureWidth v
  let n ← Edit.self
  modifyMemory fun m => m.setElement n.data n.width i v

/-- The bytes of an insertion of `v` at `i` into `size` elements that widen from `w` to `w'`. -/
def insertElement (m : Memory) (p w w' size i : Nat) (v : Int64) : Memory :=
  if w ≠ w' ∨ w' < 8 then
    let m := (m.shiftUp p w w' i (size - i)).setElement p w' i v
    if w ≠ w' then m.widen p w w' i else m
  else
    let k := w / 8
    let m := if i = size then m else m.move (p + i * k) (p + (i + 1) * k) ((size - i) * k)
    m.setElement p w i v

def insert (i : Nat) (v : Int64) : Edit Node Unit := do
  copyOnWrite
  let old ← Edit.self
  let width := if Width.fits old.width v then old.width else Width.ofValue v
  reserve (old.size + 1) width
  setKnownWidth width
  let n ← Edit.self
  modifyMemory fun m => insertElement m n.data old.width width old.size i v
  setKnownSize (old.size + 1)

def add (v : Int64) : Edit Node Unit := do
  let n ← Edit.self
  insert n.size v

def eraseElements (m : Memory) (p w size start stop : Nat) : Memory :=
  if w < 8 then m.shiftDown p w stop start (size - stop)
  else m.move (p + stop * (w / 8)) (p + start * (w / 8)) ((size - stop) * (w / 8))

def eraseRange (start stop : Nat) : Edit Node Unit := do
  if start ≠ stop then
    copyOnWrite
    let n ← Edit.self
    modifyMemory fun m => eraseElements m n.data n.width n.size start stop
    setSize (n.size - (stop - start))

def erase (i : Nat) : Edit Node Unit := eraseRange i (i + 1)

/-- An emptied node of packed integers has width zero again. -/
def truncate (size : Nat) : Edit Node Unit := do
  copyOnWrite
  setSize size
  let n ← Edit.self
  if size = 0 ∧ n.head.layout = .bits then setWidth 0

def truncateDeep (size : Nat) : Edit Node Unit := do
  let n ← Edit.self
  if n.hasRefs then
    for r in ← StoreM.read fun m => ((n.toList m).drop size).filter Slot.isRef do
      Node.destroyDeepRef (Slot.toRef r)
  truncate size

def clear : Edit Node Unit := truncate 0

def setAllToZero : Edit Node Unit := do
  copyOnWrite
  setWidth 0

def adjust (i : Nat) (d : Int64) : Edit Node Unit := do
  let n ← Edit.self
  let v ← StoreM.read (n.get · i)
  set i (v + d)

/-- Adds `d` to `count` elements from `i` on. -/
def adjustFrom (d : Int64) (i : Nat) : Nat → Edit Node Unit
  | 0 => pure ()
  | count + 1 => do
      adjust i d
      adjustFrom d (i + 1) count

def adjustRange (start stop : Nat) (d : Int64) : Edit Node Unit :=
  adjustFrom d start (stop - start)

def adjustFromAtLeast (limit d : Int64) (i : Nat) : Nat → Edit Node Unit
  | 0 => pure ()
  | count + 1 => do
      let n ← Edit.self
      if limit ≤ (← StoreM.read (n.get · i)) then adjust i d
      adjustFromAtLeast limit d (i + 1) count

/-- Adds `d` to every element that is at least `limit`. -/
def adjustAtLeast (limit d : Int64) : Edit Node Unit := do
  let n ← Edit.self
  adjustFromAtLeast limit d 0 n.size

def setContext (value : Bool) : Edit Node Unit := do
  let n ← Edit.self
  if n.head.context ≠ value then
    copyOnWrite
    Edit.update fun n => { n with head := { n.head with context := value } }
    let n ← Edit.self
    modifyMemory fun m => m.setHeaderContext n.ref value

/-- Frees the node with `free` unless that was done before. -/
def giveUp (free : Node → StoreM Unit) : Edit Node Unit := do
  let n ← Edit.self
  if n.isAttached then
    free n
    Edit.put n.detach

def destroySelf : Edit Node Unit := giveUp destroy

def destroySelfDeep : Edit Node Unit := giveUp destroyDeep

/-- A new node with these elements. -/
def ofValues (role : Role) (vs : List Int64) : StoreM Node := do
  let (_, n) ← Edit.on (← createPacked role) (vs.forM add)
  return n

end ColumnStore.Node
