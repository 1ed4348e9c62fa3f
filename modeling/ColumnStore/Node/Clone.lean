import ColumnStore.Node.Edit

set_option autoImplicit false

/-!
Copies of nodes in another store. Nodes without children are copied byte for byte; nodes with
children are rebuilt around the copies of their children.
-/
namespace ColumnStore.Node

mutual

def cloneWithin (source : Memory) : Nat → Node → StoreM Ref
  | 0, n => return n.ref
  | depth + 1, n =>
      if n.hasRefs then do
        let copy ← createPacked n.role
        let (_, copy) ← Edit.on copy do
          if n.head.context then setContext true
          cloneSlots source depth (n.toList source)
        return copy.ref
      else do
        let used := n.byteSize
        let target ← StoreM.allocate used
        StoreM.modifyMemory fun m =>
          (m.write target (source.read n.ref used)).setHeaderCapacity target used
        return target
termination_by depth => (depth, 0)

def cloneSlots (source : Memory) (depth : Nat) : List Int64 → Edit Node Unit
  | [] => pure ()
  | v :: vs => do
      if Slot.isRef v then
        let child ← cloneWithin source depth (load source (Slot.toRef v))
        add (Slot.ofRef child)
      else add v
      cloneSlots source depth vs
termination_by vs => (depth, vs.length + 1)

end

/-- A copy of the node and everything below it in the store that this runs on. -/
def cloneDeep (source : Memory) (n : Node) : StoreM Ref :=
  cloneWithin source (depthBound source) n

/-- A copy of the node and everything below it, alone in a new store. -/
def cloneAlone (settings : StoreSettings) (source : Memory) (n : Node) :
    Except Error (Node × Store) :=
  match cloneDeep source n (.empty settings) with
  | (.ok r, s) => .ok (load s.memory r, s)
  | (.error e, _) => .error e

end ColumnStore.Node
