import ColumnStore.Node.Basic

set_option autoImplicit false

/-!
What a node holds, read through its refs: the content does not depend on where nodes are.
-/
namespace ColumnStore

inductive Content where
  | scalar (v : Int64)
  /-- A node of integers, of which some may stand for the content of children. -/
  | node (inner hasRefs context : Bool) (items : List Content)
  /-- A node of another layout with its data. -/
  | data (layout : Layout) (width : Nat) (bytes : ByteArray)

namespace Node

def contentWithin (m : Memory) : Nat → Node → Content
  | 0, _ => .scalar 0
  | depth + 1, n =>
      match n.head.layout with
      | .bits =>
          .node n.isInner n.hasRefs n.head.context <| (n.toList m).map fun v =>
            if n.hasRefs && Slot.isRef v then contentWithin m depth (load m (Slot.toRef v))
            else .scalar v
      | layout => .data layout n.width (m.read n.data (layout.dataSize n.size n.width))

def content (m : Memory) (n : Node) : Content := contentWithin m (depthBound m) n

end Node

end ColumnStore
