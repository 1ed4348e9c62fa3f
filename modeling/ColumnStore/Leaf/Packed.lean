import ColumnStore.Leaf.Basic

set_option autoImplicit false

/-!
Leaves of packed integers, and the same with refs of nodes that the leaf owns.
-/
namespace ColumnStore

instance : Leaf Node Int64 where
  create := Node.createPacked .plain
  load := Node.load
  ref := Node.ref
  size := Node.size
  get m n i := n.get m i
  set := Node.set
  insert := Node.insert
  erase := Node.erase
  truncate := Node.truncate
  destroy := Node.destroyDeep

/-- A leaf whose even elements other than zero are refs. -/
structure RefLeaf where
  node : Node
  deriving DecidableEq, Repr, Inhabited

def RefLeaf.edit {α : Type} (e : Edit Node α) : Edit RefLeaf α :=
  Edit.focus RefLeaf.node (fun node _ => ⟨node⟩) e

instance : Leaf RefLeaf Int64 where
  create := RefLeaf.mk <$> Node.createPacked .refs
  load m r := ⟨.load m r⟩
  ref l := l.node.ref
  size l := l.node.size
  get m l i := l.node.get m i
  set i v := RefLeaf.edit (Node.set i v)
  insert i v := RefLeaf.edit (Node.insert i v)
  erase i := RefLeaf.edit (Node.erase i)
  truncate n := RefLeaf.edit (Node.truncate n)
  destroy l := l.node.destroyDeep

end ColumnStore
