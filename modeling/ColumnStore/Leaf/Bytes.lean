import ColumnStore.Leaf.Basic
import ColumnStore.Leaf.Blob

set_option autoImplicit false

/-!
Leaves of byte strings: a top node with two slots, the ends of the values and their joined bytes.
-/
namespace ColumnStore

structure BytesLeaf where
  top : Node
  /-- Where each value ends in the blob. -/
  ends : Node
  blob : Blob
  deriving DecidableEq, Repr, Inhabited

/-- Stores the ref of a moved child in slot `i` of its parent. -/
def Node.patchSlot (i : Nat) (r : Ref) : Edit Node Unit := do
  let n ← Edit.self
  if (← StoreM.read (n.getRef · i)) ≠ r then Node.set i (Slot.ofRef r)

namespace BytesLeaf

def editTop {α : Type} (e : Edit Node α) : Edit BytesLeaf α :=
  Edit.focus BytesLeaf.top (fun top l => { l with top }) e

def editEnds {α : Type} (e : Edit Node α) : Edit BytesLeaf α :=
  Edit.focus BytesLeaf.ends (fun ends l => { l with ends }) e

def editBlob {α : Type} (e : Edit Blob α) : Edit BytesLeaf α :=
  Edit.focus BytesLeaf.blob (fun blob l => { l with blob }) e

def create : StoreM BytesLeaf := do
  let top ← Node.createPacked .refs
  let ends ← Node.createPacked .plain
  let blob ← Blob.create
  let (_, top) ← Edit.on top do
    Node.add (Slot.ofRef ends.ref)
    Node.add (Slot.ofRef blob.node.ref)
  return { top, ends, blob }

def load (m : Memory) (r : Ref) : BytesLeaf :=
  let top := Node.load m r
  { top, ends := .load m (top.getRef m 0), blob := .load m (top.getRef m 1) }

def size (l : BytesLeaf) : Nat := l.ends.size

def stopOf (m : Memory) (l : BytesLeaf) (i : Nat) : Nat := Slot.toRef (l.ends.get m i)

def startOf (m : Memory) (l : BytesLeaf) (i : Nat) : Nat := if i = 0 then 0 else l.stopOf m (i - 1)

def get (m : Memory) (l : BytesLeaf) (i : Nat) : ByteArray :=
  l.blob.slice m (l.startOf m i) (l.stopOf m i)

def patchTop : Edit BytesLeaf Unit := do
  let l ← Edit.self
  editTop (Node.patchSlot 0 l.ends.ref)
  editTop (Node.patchSlot 1 l.blob.node.ref)

/-- Moves the ends from value `i` on. -/
def moveEnds (i : Nat) (d : Int64) : Edit BytesLeaf Unit := do
  let l ← Edit.self
  editEnds (Node.adjustRange i l.size d)

def insert (i : Nat) (v : ByteArray) : Edit BytesLeaf Unit := do
  let l ← Edit.self
  let start ← StoreM.read (l.startOf · i)
  editBlob (Blob.insert start v)
  editEnds (Node.insert i (Int64.ofNat (start + v.size)))
  moveEnds (i + 1) (Int64.ofNat v.size)
  patchTop

def add (v : ByteArray) : Edit BytesLeaf Unit := do
  let l ← Edit.self
  insert l.size v

def set (i : Nat) (v : ByteArray) : Edit BytesLeaf Unit := do
  let l ← Edit.self
  let start ← StoreM.read (l.startOf · i)
  let stop ← StoreM.read (l.stopOf · i)
  editBlob (Blob.replace start stop v)
  let d := Int64.ofNat v.size - Int64.ofNat (stop - start)
  if d ≠ 0 then moveEnds i d
  patchTop

def erase (i : Nat) : Edit BytesLeaf Unit := do
  let l ← Edit.self
  let start ← StoreM.read (l.startOf · i)
  let stop ← StoreM.read (l.stopOf · i)
  editBlob (Blob.erase start stop)
  editEnds (Node.erase i)
  moveEnds i (-Int64.ofNat (stop - start))
  patchTop

def truncate (size : Nat) : Edit BytesLeaf Unit := do
  let l ← Edit.self
  let bytes ← StoreM.read (l.startOf · size)
  editEnds (Node.truncate size)
  editBlob (Blob.truncate bytes)
  patchTop

def destroy (l : BytesLeaf) : StoreM Unit := l.top.destroyDeep

instance : Leaf BytesLeaf ByteArray where
  create := create
  load := load
  ref l := l.top.ref
  size := size
  get := get
  set := set
  insert := insert
  erase := erase
  truncate := truncate
  destroy := destroy

/-- The first index in a range that holds `v`. -/
def findFirst (m : Memory) (l : BytesLeaf) (v : ByteArray) (start : Nat) (stop : Option Nat) :
    Option Nat :=
  firstInRange (fun i => l.get m i == v) l.size start stop

end BytesLeaf

end ColumnStore
