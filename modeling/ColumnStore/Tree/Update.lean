import ColumnStore.Tree.Basic

set_option autoImplicit false

/-!
Updates in place. A leaf that moves is stored in its parent before the parent is looked at again.
-/
namespace ColumnStore.Tree

variable {L V : Type} [Leaf L V]

/-- Edits the leaf at `r`, which is child `c`, and stores its ref again. -/
def editLeafChild (c : Nat) (r : Ref) (e : Edit L Unit) : Edit Node Unit := do
  let leaf ← StoreM.read (Leaf.load (L := L) · r)
  let (_, leaf) ← Edit.on leaf e
  Node.patchSlot (c + 1) (Leaf.ref leaf)

/-- Edits the inner node at `r`, which is child `c`, and stores its ref again. -/
def editInnerChild (c : Nat) (r : Ref) (e : Edit Node Unit) : Edit Node Unit := do
  let node ← Node.loadM r
  let (_, node) ← Edit.on node e
  Node.patchSlot (c + 1) node.ref

def setBelow (v : V) : Nat → Nat → Edit Node Unit
  | 0, _ => pure ()
  | depth + 1, i => do
      let n ← Edit.self
      let (c, j) ← StoreM.read fun m => Branch.locate m n (Branch.offsets m n) i
      let r ← StoreM.read (Branch.child · n c)
      if ← StoreM.read (Branch.isInner · r) then editInnerChild c r (setBelow v depth j)
      else editLeafChild (L := L) c r (Leaf.set j v)

def set (i : Nat) (v : V) : Edit (Tree L) Unit := do
  let t ← Edit.self
  match t.root with
  | .leaf l => editLeaf l (Leaf.set i v)
  | .inner n => editInner n (setBelow (L := L) v (← StoreM.read Node.depthBound) i)

mutual

def updateBelow (e : Edit L Unit) : Nat → Edit Node Unit
  | 0 => pure ()
  | depth + 1 => do
      let n ← Edit.self
      updateChildren e depth 0 (Branch.childCount n)
termination_by depth => (depth, 0)

/-- `count` children from child `c` on. -/
def updateChildren (e : Edit L Unit) (depth c : Nat) : Nat → Edit Node Unit
  | 0 => pure ()
  | count + 1 => do
      let n ← Edit.self
      let r ← StoreM.read (Branch.child · n c)
      if ← StoreM.read (Branch.isInner · r) then editInnerChild c r (updateBelow e depth)
      else editLeafChild c r e
      updateChildren e depth (c + 1) count
termination_by count => (depth, count + 1)

end

/-- Edits every leaf. -/
def updateLeaves (e : Edit L Unit) : Edit (Tree L) Unit := do
  let t ← Edit.self
  match t.root with
  | .leaf l => editLeaf l e
  | .inner n => editInner n (updateBelow e (← StoreM.read Node.depthBound))

end ColumnStore.Tree
