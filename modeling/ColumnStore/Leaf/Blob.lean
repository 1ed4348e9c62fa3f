import ColumnStore.Node.Edit

set_option autoImplicit false

/-!
A node of raw bytes.
-/
namespace ColumnStore

structure Blob where
  node : Node
  deriving DecidableEq, Repr, Inhabited

namespace Blob

open StoreM (modifyMemory)

def edit {α : Type} (e : Edit Node α) : Edit Blob α :=
  Edit.focus Blob.node (fun node _ => ⟨node⟩) e

def create : StoreM Blob := Blob.mk <$> Node.create .plain .raw 1

def load (m : Memory) (r : Ref) : Blob := ⟨.load m r⟩

def size (b : Blob) : Nat := b.node.size

def get (m : Memory) (b : Blob) (i : Nat) : UInt8 := m.get (b.node.data + i)

/-- The bytes of a range. -/
def slice (m : Memory) (b : Blob) (start stop : Nat) : ByteArray :=
  m.read (b.node.data + start) (stop - start)

/-- Puts `data` in the place of a range; the node grows before bytes move and never shrinks. -/
def replace (start stop : Nat) (data : ByteArray) : Edit Blob Unit := do
  let size := (← Edit.self).size
  edit Node.copyOnWrite
  let newSize := size - (stop - start) + data.size
  if size < newSize then edit (Node.reserve newSize 1)
  let p := (← Edit.self).node.data
  modifyMemory fun m =>
    (m.move (p + stop) (p + start + data.size) (size - stop)).write (p + start) data
  edit (Node.reserve newSize 1)
  edit (Node.setKnownSize newSize)

def insert (i : Nat) (data : ByteArray) : Edit Blob Unit := replace i i data

def add (data : ByteArray) : Edit Blob Unit := do
  let b ← Edit.self
  insert b.size data

def erase (start stop : Nat) : Edit Blob Unit := replace start stop .empty

def truncate (size : Nat) : Edit Blob Unit := edit (Node.truncate size)

def clear : Edit Blob Unit := truncate 0

end Blob

end ColumnStore
