import ColumnStore.Tree.Basic

set_option autoImplicit false

/-!
Insertion. A full leaf splits where the value goes, and an append gives the value a leaf of its
own; a full inner node splits behind the child that split. A tree that only grows at its end keeps
the compact form.
-/
namespace ColumnStore

/-- The new right sibling of a node that split. -/
structure Split where
  sibling : Ref
  /-- Elements left in the node. -/
  offset : Nat
  /-- Elements of the node and its sibling. -/
  size : Nat
  deriving DecidableEq, Repr

namespace Tree

variable {L V : Type} [Leaf L V]

/-- Inserts `count` elements of `source` from `i` on at place `j`. -/
def copyElements (source : L) (i j : Nat) : Nat → Edit L Unit
  | 0 => pure ()
  | count + 1 => do
      Leaf.insert j (← StoreM.read (Leaf.get · source i))
      copyElements source (i + 1) (j + 1) count

/-- Inserts into a leaf, at its end if there is no index. -/
def insertIntoLeaf (maxNodeSize : Nat) (i : Option Nat) (v : V) : Edit L (Option Split) := do
  let leaf ← Edit.self
  let size := Leaf.size leaf
  let i := i.getD size
  if size < maxNodeSize then
    Leaf.insert i v
    return none
  let sibling : L ← Leaf.create
  if i = size then
    let (_, sibling) ← Edit.on sibling (Leaf.insert 0 v)
    return some ⟨Leaf.ref sibling, i, size + 1⟩
  else
    let (_, sibling) ← Edit.on sibling (copyElements leaf i 0 (size - i))
    Leaf.truncate i
    Leaf.insert i v
    return some ⟨Leaf.ref sibling, i + 1, size + 1⟩

/-- Adds `count` elements of `source` from `i` on, each with `d` added to it. -/
def appendElements (source : Node) (d : Int64) (i : Nat) : Nat → Edit Node Unit
  | 0 => pure ()
  | count + 1 => do
      Node.add ((← StoreM.read (source.get · i)) + d)
      appendElements source d (i + 1) count

/-- The compact form survives only if the child that split keeps its full size and its sibling
becomes the last child. -/
def offsetsFor (offsets : Option Node) (c : Nat) (split : Split) : Edit Node (Option Node) := do
  let n ← Edit.self
  match offsets with
  | some o => return some o
  | none =>
      if c + 1 = Branch.childCount n ∧ split.offset = (← StoreM.read (Branch.perChild · n)) then
        return none
      else return some (← Branch.ensureOffsets)

/-- Puts the sibling of child `c`, which has just split, behind it. -/
def insertChild (maxNodeSize : Nat) (offsets : Option Node) (c : Nat) (split : Split) :
    Edit Node (Option Split) := do
  let n ← Edit.self
  let count := Branch.childCount n
  let oldTotal ← StoreM.read (Branch.total · n)
  let start ← StoreM.read (Branch.childStart · n offsets c)
  let offsets ← offsetsFor offsets c split
  let stop := start + split.offset
  if count < maxNodeSize then
    Node.insert (c + 2) (Slot.ofRef split.sibling)
    Branch.addTotal 2
    if let some o := offsets then
      Branch.editOffsets o do
        Node.insert c (Int64.ofNat stop)
        let o ← Edit.self
        Node.adjustRange (c + 1) o.size 1
    return none
  let right ← Node.createPacked .inner
  match offsets with
  | none =>
      let n ← Edit.self
      let first ← StoreM.read (n.get · 0)
      let (_, right) ← Edit.on right do
        Node.add first
        Node.add (Slot.ofRef split.sibling)
        Node.add (Slot.tag (split.size - split.offset))
      return some ⟨right.ref, stop, oldTotal + 1⟩
  | some o =>
      let rightOffsets ← Node.createPacked .plain
      let (_, rightOffsets) ←
        Edit.on rightOffsets (appendElements o (1 - Int64.ofNat stop) c (count - 1 - c))
      let n ← Edit.self
      let (_, right) ← Edit.on right do
        Node.add (Slot.ofRef rightOffsets.ref)
        Node.add (Slot.ofRef split.sibling)
        appendElements n 0 (c + 2) (count - (c + 1))
        Node.add (Slot.tag (oldTotal + 1 - stop))
      Node.truncate (c + 2)
      Node.add (Slot.tag stop)
      Branch.editOffsets o (Node.truncate c)
      return some ⟨right.ref, stop, oldTotal + 1⟩

/-- Inserts into child `c`; `below` inserts into an inner child. -/
def insertIntoChild (below : Option Nat → Edit Node (Option Split)) (maxNodeSize : Nat) (v : V)
    (c : Nat) (i : Option Nat) : Edit Node (Option Split) := do
  let n ← Edit.self
  let r ← StoreM.read (Branch.child · n c)
  if ← StoreM.read (Branch.isInner · r) then
    let node ← Node.loadM r
    let (split, node) ← Edit.on node (below i)
    Node.patchSlot (c + 1) node.ref
    return split
  else
    let leaf : L ← StoreM.read (Leaf.load · r)
    let (split, leaf) ← Edit.on leaf (insertIntoLeaf maxNodeSize i v)
    Node.patchSlot (c + 1) (Leaf.ref leaf)
    return split

/-- The child for an insertion at `i`; between two children the earlier one is appended to. -/
def insertionChild (m : Memory) (offsets : Node) (i : Nat) : Nat × Nat :=
  if i = 0 then (0, 0)
  else
    let c := offsets.lowerBound m (Int64.ofNat i)
    (c, i - if c = 0 then 0 else Branch.endAt m offsets (c - 1))

/-- Inserts below an inner node, at its end if there is no index. -/
def insertBelow (maxNodeSize : Nat) (v : V) : Nat → Option Nat → Edit Node (Option Split)
  | 0, _ => return none
  | depth + 1, none => do
      let n ← Edit.self
      let c := Branch.childCount n - 1
      match ← insertIntoChild (L := L) (insertBelow maxNodeSize v depth) maxNodeSize v c none with
      | none =>
          Branch.addTotal 2
          return none
      | some split =>
          let n ← Edit.self
          insertChild maxNodeSize (← StoreM.read (Branch.offsets · n)) c split
  | depth + 1, some i => do
      let o ← Branch.ensureOffsets
      let (c, j) ← StoreM.read (insertionChild · o i)
      match ← insertIntoChild (L := L) (insertBelow maxNodeSize v depth) maxNodeSize v c (some j) with
      | none =>
          Branch.addTotal 2
          Branch.editOffsets o (Node.adjustRange c o.size 1)
          return none
      | some split => insertChild maxNodeSize (some o) c split

/-- A root over the old root and its sibling. It is compact when the split came from an append and
the old root was a leaf or compact. -/
def newRoot (old : Ref) (append : Bool) (split : Split) : StoreM Node := do
  let compact ← StoreM.read fun m =>
    append && (!Branch.isInner m old || (Branch.offsets m (.load m old)).isNone)
  let root ← Node.createPacked .inner
  let (_, root) ← Edit.on root do
    if compact then Node.add (Slot.tag split.offset)
    else
      let o ← Node.createPacked .plain
      let (_, o) ← Edit.on o (Node.add (Int64.ofNat split.offset))
      Node.add (Slot.ofRef o.ref)
    Node.add (Slot.ofRef old)
    Node.add (Slot.ofRef split.sibling)
    Node.add (Slot.tag split.size)
  return root

/-- Inserts in front of element `i`, at the end if there is no index. -/
def insert (i : Option Nat) (v : V) : Edit (Tree L) Unit := do
  let t ← Edit.self
  let size ← StoreM.read t.size
  let append := i = none ∨ i = some size
  let i := if append then none else i
  let split ← match t.root with
    | .leaf l => editLeaf l (insertIntoLeaf t.maxNodeSize i v)
    | .inner n =>
        editInner n (insertBelow (L := L) t.maxNodeSize v (← StoreM.read Node.depthBound) i)
  if let some split := split then
    let t ← Edit.self
    setRoot (.inner (← newRoot t.ref append split))

def add (v : V) : Edit (Tree L) Unit := insert none v

end Tree

end ColumnStore
