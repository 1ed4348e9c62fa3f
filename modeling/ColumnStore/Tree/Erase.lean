import ColumnStore.Tree.Basic

set_option autoImplicit false

/-!
Removal of one element. A leaf with a single element goes as a whole, with every inner node that
would be left without children; a root with one child gives way to it.
-/
namespace ColumnStore.Tree

variable {L V : Type} [Leaf L V]

/-- Frees the nodes of a branch in which every inner node has one child. -/
def destroyBranch (L : Type) {V : Type} [Leaf L V] : Nat → Ref → StoreM Unit
  | 0, _ => pure ()
  | depth + 1, r => do
      if ← StoreM.read (Branch.isInner · r) then
        let n ← Node.loadM r
        let next ← StoreM.read (Branch.child · n 0)
        Branch.destroy n
        destroyBranch L depth next
      else Leaf.destroy (← StoreM.read (Leaf.load (L := L) · r))

/-- Erases from the leaf at `r`, which is child `c`. A leaf with one element is left as it is, and
the answer is that it must go. -/
def eraseFromLeaf (L : Type) {V : Type} [Leaf L V] (c : Nat) (r : Ref) (i : Option Nat) :
    Edit Node Bool := do
  let leaf : L ← StoreM.read (Leaf.load · r)
  let size := Leaf.size leaf
  if size = 1 then return true
  let (_, leaf) ← Edit.on leaf (Leaf.erase (i.getD (size - 1)))
  Node.patchSlot (c + 1) (Leaf.ref leaf)
  return false

/-- Takes the end of child `c`, which is gone, out of the ends. -/
def removeEnd (c : Nat) : Edit Node Unit := do
  let o ← Edit.self
  if c < o.size then
    Node.erase c
    Node.adjustRange c (o.size - 1) (-1)
  else Node.erase (c - 1)

/-- The ends, if the node is in the general form. An erasure by index brings it there. -/
def offsetsToErase (i : Option Nat) : Edit Node (Option Node) := do
  let n ← Edit.self
  if i.isNone then StoreM.read (Branch.offsets · n) else return some (← Branch.ensureOffsets)

/-- The child to erase from, and the index in it. -/
def erasureChild (m : Memory) (n : Node) (offsets : Option Node) : Option Nat → Nat × Option Nat
  | none => (Branch.childCount n - 1, none)
  | some i => (Branch.locate m n offsets i).map id some

/-- Erases from child `c`, which is at `r`; `below` erases from an inner child. The answer is that
the child must go. -/
def eraseFromChild (L : Type) {V : Type} [Leaf L V] (below : Option Nat → Edit Node Bool) (c : Nat)
    (r : Ref) (i : Option Nat) : Edit Node Bool := do
  if ← StoreM.read (Branch.isInner · r) then
    let node ← Node.loadM r
    let (gone, node) ← Edit.on node (below i)
    if gone then return true
    Node.patchSlot (c + 1) node.ref
    return false
  else eraseFromLeaf L c r i

/-- Takes child `c`, which is at `r`, out of the node and frees it. -/
def removeChild (L : Type) {V : Type} [Leaf L V] (offsets : Option Node) (c : Nat) (r : Ref) :
    Edit Node Unit := do
  Node.erase (c + 1)
  if let some o := offsets then Branch.editOffsets o (removeEnd c)
  destroyBranch L (← StoreM.read Node.depthBound) r

/-- Counts one element less up to the end of child `c` and of those after it. -/
def shrinkEnds (offsets : Option Node) (c : Nat) : Edit Node Unit := do
  if let some o := offsets then Branch.editOffsets o (Node.adjustRange c o.size (-1))

/-- Erases below an inner node, the last element if there is no index. The answer is true when the
node holds a single element and must go as a whole. -/
def eraseBelow (L : Type) {V : Type} [Leaf L V] : Nat → Option Nat → Edit Node Bool
  | 0, _ => return false
  | depth + 1, i => do
      let offsets ← offsetsToErase i
      let n ← Edit.self
      let (c, j) ← StoreM.read (erasureChild · n offsets i)
      let r ← StoreM.read (Branch.child · n c)
      if ← eraseFromChild L (eraseBelow L depth) c r j then
        if Branch.childCount n = 1 then return true
        removeChild L offsets c r
      else shrinkEnds offsets c
      Branch.addTotal (-2)
      return false

/-- Frees inner nodes with one child from `r` down. -/
def collapse (L : Type) {V : Type} [Leaf L V] : Nat → Ref → StoreM (Root L)
  | 0, r => StoreM.read (Root.load · r)
  | depth + 1, r => do
      if ← StoreM.read (Branch.isInner · r) then
        let n ← Node.loadM r
        if 1 < Branch.childCount n then return .inner n
        let next ← StoreM.read (Branch.child · n 0)
        Branch.destroy n
        collapse L depth next
      else StoreM.read fun m => .leaf (Leaf.load m r)

/-- Erases below the root; the root that takes its place, if it has to. -/
def eraseBelowRoot (L : Type) {V : Type} [Leaf L V] (i : Option Nat) :
    Edit Node (Option (Root L)) := do
  let depth ← StoreM.read Node.depthBound
  let gone ← eraseBelow L depth i
  let n ← Edit.self
  if gone then
    let fresh : L ← Leaf.create
    destroyBranch L depth n.ref
    return some (.leaf fresh)
  else if 1 < Branch.childCount n then return none
  else
    let next ← StoreM.read (Branch.child · n 0)
    Branch.destroy n
    return some (← collapse L depth next)

/-- Erases element `i`, the last one if there is no index. -/
def erase (i : Option Nat) : Edit (Tree L) Unit := do
  let t ← Edit.self
  match t.root with
  | .leaf l => editLeaf l (Leaf.erase (i.getD (Leaf.size l - 1)))
  | .inner n =>
      if let some root ← editInner n (eraseBelowRoot L i) then setRoot root

end ColumnStore.Tree
