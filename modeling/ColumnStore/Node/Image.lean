import ColumnStore.Image.Frame
import ColumnStore.Node.Basic

set_option autoImplicit false

/-!
Nodes written to an image, children before their parents. A slot that held a ref holds the position
of the written child, so the image stands on its own.
-/
namespace ColumnStore

namespace Image

/-- The node region of an image under construction. -/
structure Writer where
  nodes : ByteArray := .empty

def Writer.position (w : Writer) : Ref := frameSize + w.nodes.size

/-- Nodes are padded to a multiple of eight bytes. -/
def Writer.append (node : ByteArray) (w : Writer) : Ref × Writer :=
  (w.position, ⟨Memory.pushZeros (w.nodes ++ node) ((8 - node.size % 8) % 8)⟩)

/-- Where the elements of the node at `p` end, in bits from `p` on. -/
def usedBits (m : Memory) (p : Nat) : Nat :=
  let h := m.header p
  8 * Header.length +
    match h.layout with
    | .bits => h.size * h.width
    | .bytes => 8 * h.size * h.width
    | .raw => 8 * h.size

def clearBytes (m : Memory) (p : Nat) : Nat → Memory
  | 0 => m
  | n + 1 => clearBytes (m.set p 0) (p + 1) n

/-- The node at `p` with all bits past its last element cleared. -/
def clearNode (m : Memory) (p : Nat) : Memory :=
  let used := usedBits m p
  let stop := p + (m.header p).byteSize
  let full := p + used / 8
  if used % 8 = 0 then clearBytes m full (stop - full)
  else
    let kept := m.get full &&& UInt8.ofNat (1 <<< (used % 8) - 1)
    clearBytes (m.set full kept) (full + 1) (stop - (full + 1))

/-- Nodes follow one another from `p` on; `count` bounds their number. -/
def clearNodes (m : Memory) (p stop : Nat) : Nat → Memory
  | 0 => m
  | count + 1 =>
      let next := p + (m.header p).byteSize
      if p < stop then clearNodes (clearNode m p) next stop count else m

/-- The same nodes without what earlier elements left behind. -/
def Writer.clearSpare (w : Writer) : Writer :=
  ⟨(clearNodes ⟨w.nodes⟩ 0 w.nodes.size w.nodes.size).bytes⟩

def Writer.frame (w : Writer) (root : Ref) : ByteArray := Image.frame w.nodes root

end Image

namespace Node

open Image (Writer)

/-- The node as it is, with a capacity of just its bytes. -/
def copyBytes (m : Memory) (n : Node) : ByteArray :=
  let used := n.byteSize
  let copy : Memory := ⟨m.read n.ref used⟩
  (copy.setHeader 0 { copy.header 0 with capacity := used }).read 0 used

def fill (m : Memory) (p w i : Nat) : List Int64 → Memory
  | [] => m
  | v :: vs => fill (m.setElement p w i v) p w (i + 1) vs

/-- A node with children that holds `values` at the smallest width. -/
def encode (inner context : Bool) (values : List Int64) : ByteArray :=
  let width := (values.map Width.ofValue).foldl max 0
  let used := Header.bytesFor values.length width .bits
  let head : Header :=
    { inner, hasRefs := true, context, layout := .bits, width, size := values.length,
      capacity := used }
  (fill (Memory.empty.setHeader 0 head) Header.length width 0 values).read 0 used

mutual

def writeWithin (m : Memory) (deep : Bool) : Nat → Node → Writer → Ref × Writer
  | 0, n, w => w.append (n.copyBytes m)
  | depth + 1, n, w =>
      if deep && n.hasRefs then
        let (values, w) := writeSlots m deep depth (n.toList m) w
        w.append (encode n.isInner n.head.context values)
      else w.append (n.copyBytes m)
termination_by depth => (depth, 0)

def writeSlots (m : Memory) (deep : Bool) (depth : Nat) : List Int64 → Writer → List Int64 × Writer
  | [], w => ([], w)
  | v :: vs, w =>
      if Slot.isRef v then
        let (r, w) := writeWithin m deep depth (load m (Slot.toRef v)) w
        let (rest, w) := writeSlots m deep depth vs w
        (Slot.ofRef r :: rest, w)
      else
        let (rest, w) := writeSlots m deep depth vs w
        (v :: rest, w)
termination_by vs => (depth, vs.length + 1)

end

/-- Writes the node, and with `deep` everything below it. -/
def write (m : Memory) (n : Node) (deep : Bool) (w : Writer) : Ref × Writer :=
  writeWithin m deep (depthBound m) n w

/-- A node over children that are written already. -/
def writeParent (children : List Ref) (w : Writer) : Ref × Writer :=
  w.append (encode false false (children.map Slot.ofRef))

/-- A complete image of the node and everything below it. -/
def image (m : Memory) (n : Node) : ByteArray × Ref :=
  let (root, w) := n.write m true {}
  (w.frame root, root)

end Node

end ColumnStore
