import ColumnStore.Node.Element
import ColumnStore.Slot
import ColumnStore.Store.Edit

set_option autoImplicit false

/-!
A node is a ref with the header found there. Its elements are read from memory.
-/
namespace ColumnStore

structure Node where
  ref : Ref
  head : Header
  deriving DecidableEq, Repr, Inhabited

/-- What a new node is for. -/
inductive Node.Role where
  | plain
  /-- Elements may be refs. -/
  | refs
  /-- An inner node of a tree, whose elements may be refs too. -/
  | inner
  deriving DecidableEq, Repr, Inhabited

def Header.new (role : Node.Role) (layout : Layout) (width : Nat) : Header where
  inner := role = .inner
  hasRefs := role ≠ .plain
  context := false
  layout := layout
  width := width
  size := 0
  capacity := Header.initialCapacity

namespace Node

def load (m : Memory) (r : Ref) : Node := ⟨r, m.header r⟩

/-- Refs are even; a node that was given up keeps an odd one. -/
def isAttached (n : Node) : Bool := n.ref % 2 = 0

abbrev size (n : Node) : Nat := n.head.size
abbrev width (n : Node) : Nat := n.head.width
abbrev capacity (n : Node) : Nat := n.head.capacity
abbrev hasRefs (n : Node) : Bool := n.head.hasRefs
abbrev isInner (n : Node) : Bool := n.head.inner

def role (n : Node) : Role := if n.isInner then .inner else if n.hasRefs then .refs else .plain

/-- Where the elements start. -/
def data (n : Node) : Nat := n.ref + Header.length

def byteSize (n : Node) : Nat := n.head.byteSize

/-- Bytes to release with the node; a capacity field that is too small does not count. -/
def footprint (n : Node) : Nat := max n.capacity n.byteSize

def get (m : Memory) (n : Node) (i : Nat) : Int64 := m.element n.data n.width i

def getRef (m : Memory) (n : Node) (i : Nat) : Ref := Slot.toRef (n.get m i)

def toList (m : Memory) (n : Node) : List Int64 := (List.range n.size).map (n.get m)

@[simp] theorem length_toList (m : Memory) (n : Node) : (n.toList m).length = n.size := by
  simp [toList]

/-- The children in slot order. -/
def children (m : Memory) (n : Node) : List Ref :=
  if n.hasRefs then ((n.toList m).filter Slot.isRef).map Slot.toRef else []

/-- A path in the store visits each node once, and a node takes more than one byte. -/
def depthBound (m : Memory) : Nat := m.bytes.size

/-- The nodes below a node and the node itself, children first. -/
def subtreeWithin (m : Memory) : Nat → Node → List Node
  | 0, n => [n]
  | depth + 1, n => (n.children m).flatMap (fun r => subtreeWithin m depth (load m r)) ++ [n]

def subtree (m : Memory) (n : Node) : List Node := subtreeWithin m (depthBound m) n

def create (role : Role) (layout : Layout) (width : Nat) : StoreM Node := do
  let r ← StoreM.allocate Header.initialCapacity
  let head := Header.new role layout width
  StoreM.modifyMemory fun m => m.setHeader r head
  return ⟨r, head⟩

/-- A new empty node of packed integers. -/
def createPacked (role : Role) : StoreM Node := create role .bits 0

def loadM (r : Ref) : StoreM Node := StoreM.read fun m => load m r

def destroy (n : Node) : StoreM Unit := StoreM.free n.ref n.footprint

def destroyDeep (n : Node) : StoreM Unit := do
  for d in ← StoreM.read (subtree · n) do
    d.destroy

def destroyDeepRef (r : Ref) : StoreM Unit := do
  (← loadM r).destroyDeep

def detach (n : Node) : Node := { n with ref := 1 }

end Node

end ColumnStore
