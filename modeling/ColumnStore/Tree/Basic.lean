import ColumnStore.Tree.Branch

set_option autoImplicit false

/-!
A sequence of values in one leaf, or in the leaves of a tree of inner nodes.
-/
namespace ColumnStore

inductive Root (L : Type) where
  | leaf (leaf : L)
  | inner (node : Node)
  deriving Inhabited

structure Tree (L : Type) where
  root : Root L
  /-- Most elements of a leaf and most children of an inner node. -/
  maxNodeSize : Nat
  deriving Inhabited

namespace Tree

variable {L V α : Type} [Leaf L V]

def create (maxNodeSize : Nat) : StoreM (Tree L) := do
  return { root := .leaf (← Leaf.create), maxNodeSize }

def Root.load (m : Memory) (r : Ref) : Root L :=
  if Branch.isInner m r then .inner (.load m r) else .leaf (Leaf.load m r)

def load (m : Memory) (maxNodeSize : Nat) (r : Ref) : Tree L :=
  { root := Root.load m r, maxNodeSize }

def ref (t : Tree L) : Ref :=
  match t.root with
  | .leaf l => Leaf.ref l
  | .inner n => n.ref

def isLeaf (t : Tree L) : Bool :=
  match t.root with
  | .leaf _ => true
  | .inner _ => false

def size (m : Memory) (t : Tree L) : Nat :=
  match t.root with
  | .leaf l => Leaf.size l
  | .inner n => Branch.total m n

def get (m : Memory) (t : Tree L) (i : Nat) : V :=
  match t.root with
  | .leaf l => Leaf.get m l i
  | .inner n =>
      let (r, j) := Branch.leafAt m n i
      Leaf.get m (Leaf.load m r : L) j

def toList (m : Memory) (t : Tree L) : List V := (List.range (t.size m)).map (t.get m)

/-- The leaf that holds element `i`, read from the store, and the leaf's first element. -/
def leafAt (m : Memory) (t : Tree L) (i : Nat) : L × Nat :=
  match t.root with
  | .leaf l => (Leaf.load m (Leaf.ref l), 0)
  | .inner n =>
      let (r, j) := Branch.leafAt m n i
      (Leaf.load m r, i - j)

/-- The leaves that hold elements from `start` on, each with its first element. -/
def leavesFrom (m : Memory) (t : Tree L) (start : Nat) : List (L × Nat) :=
  match t.root with
  | .leaf l => if Leaf.size l ≤ start then [] else [(l, 0)]
  | .inner n => (Branch.leavesFrom m n start).map fun (r, offset) => (Leaf.load m r, offset)

/-- The totals and ends stored in inner nodes agree with the leaves. -/
def verify (m : Memory) (t : Tree L) : Bool :=
  match t.root with
  | .leaf _ => true
  | .inner n => Branch.check m (fun r => Leaf.size (Leaf.load m r : L)) n == some (t.size m)

/-- Writes all nodes; the position of the root. -/
def write (m : Memory) (t : Tree L) (w : Image.Writer) : Ref × Image.Writer :=
  (Node.load m t.ref).write m true w

def editLeaf (l : L) (e : Edit L α) : Edit (Tree L) α := do
  let t ← Edit.self
  Edit.inside (fun l => { t with root := .leaf l }) l e

def editInner (n : Node) (e : Edit Node α) : Edit (Tree L) α := do
  let t ← Edit.self
  Edit.inside (fun n => { t with root := .inner n }) n e

def setRoot (root : Root L) : Edit (Tree L) Unit := Edit.update fun t => { t with root }

/-- Every node is freed, and an empty leaf takes the place of the tree. -/
def clear : Edit (Tree L) Unit := do
  let fresh : L ← Leaf.create
  let t ← Edit.self
  Node.destroyDeepRef t.ref
  setRoot (.leaf fresh)

def destroy (t : Tree L) : StoreM Unit :=
  match t.root with
  | .leaf l => Leaf.destroy l
  | .inner n => n.destroyDeep

end Tree

end ColumnStore
