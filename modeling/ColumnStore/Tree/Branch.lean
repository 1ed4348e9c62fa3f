import ColumnStore.Leaf.Bytes
import ColumnStore.Node.Sorted

set_option autoImplicit false

/-!
Inner nodes of a tree. Slot 0 says where children start, the slots after it are the children, and
the last slot is the tagged number of elements below. In the compact form slot 0 is the tagged
number of elements of every child but the last; in the general form it is a node with the ends of
all children but the last.
-/
namespace ColumnStore.Branch

def childCount (n : Node) : Nat := n.size - 2

def total (m : Memory) (n : Node) : Nat := Slot.untag (n.get m (n.size - 1))

def child (m : Memory) (n : Node) (i : Nat) : Ref := n.getRef m (i + 1)

/-- The node with the children's ends, in the general form. -/
def offsets (m : Memory) (n : Node) : Option Node :=
  let first := n.get m 0
  if Slot.isRef first then some (.load m (Slot.toRef first)) else none

/-- Elements of every child but the last, in the compact form. -/
def perChild (m : Memory) (n : Node) : Nat := Slot.untag (n.get m 0)

def endAt (m : Memory) (offsets : Node) (i : Nat) : Nat := Slot.toRef (offsets.get m i)

/-- The first element of child `i`, counted within the node. -/
def childStart (m : Memory) (n : Node) (offsets : Option Node) (i : Nat) : Nat :=
  if i = 0 then 0
  else
    match offsets with
    | some o => endAt m o (i - 1)
    | none => i * perChild m n

/-- The child that holds element `i`, and the element's index in it. -/
def locate (m : Memory) (n : Node) (offsets : Option Node) (i : Nat) : Nat × Nat :=
  let c := match offsets with
    | some o => o.upperBound m (Int64.ofNat i)
    | none => min (i / perChild m n) (childCount n - 1)
  (c, i - childStart m n offsets c)

def isInner (m : Memory) (r : Ref) : Bool := (m.header r).inner

/-- The leaf that holds element `i`, and the element's index in it. -/
def leafWithin (m : Memory) : Nat → Node → Nat → Ref × Nat
  | 0, n, i => (n.ref, i)
  | depth + 1, n, i =>
      let (c, j) := locate m n (offsets m n) i
      let r := child m n c
      if isInner m r then leafWithin m depth (.load m r) j else (r, j)

def leafAt (m : Memory) (n : Node) (i : Nat) : Ref × Nat := leafWithin m (Node.depthBound m) n i

/-- The leaves that hold elements from `start` on, each with its first element; the node's own
first element is `base`. -/
def leavesWithin (m : Memory) (start : Nat) : Nat → Node → Nat → List (Ref × Nat)
  | 0, _, _ => []
  | depth + 1, n, base =>
      let offsets := offsets m n
      if base + total m n ≤ start then []
      else
        let first := if start ≤ base then 0 else (locate m n offsets (start - base)).1
        ((List.range (childCount n)).drop first).flatMap fun c =>
          let r := child m n c
          let base := base + childStart m n offsets c
          if isInner m r then leavesWithin m start depth (.load m r) base else [(r, base)]

def leavesFrom (m : Memory) (n : Node) (start : Nat) : List (Ref × Nat) :=
  leavesWithin m start (Node.depthBound m) n 0

/-- Children that start where the ones before them end and are not empty; the elements in all. -/
def checkChildren (startOf : Nat → Nat) : Nat → Nat → List (Option Nat) → Option Nat
  | _, sum, [] => some sum
  | i, sum, size :: sizes => do
      let size ← size
      if 0 < size ∧ startOf i = sum then checkChildren startOf (i + 1) (sum + size) sizes else none

/-- The number of elements below a node whose parts agree. -/
def checkWithin (m : Memory) (leafSize : Ref → Nat) : Nat → Node → Option Nat
  | 0, _ => none
  | depth + 1, n => do
      let offsets := offsets m n
      let sizes := (List.range (childCount n)).map fun c =>
        let r := child m n c
        if isInner m r then checkWithin m leafSize depth (.load m r) else some (leafSize r)
      let sum ← checkChildren (childStart m n offsets) 0 0 sizes
      if n.isInner ∧ 1 ≤ childCount n ∧ sum = total m n ∧
          offsets.all (fun o => o.size == childCount n - 1) then some sum
      else none

def check (m : Memory) (leafSize : Ref → Nat) (n : Node) : Option Nat :=
  checkWithin m leafSize (Node.depthBound m) n

def addEnds (perChild i : Nat) : Nat → Edit Node Unit
  | 0 => pure ()
  | count + 1 => do
      Node.add (Int64.ofNat (i * perChild))
      addEnds perChild (i + 1) count

/-- Brings a compact node into the general form; the new ends are freed again on failure. -/
def ensureOffsets : Edit Node Node := do
  let n ← Edit.self
  match ← StoreM.read (offsets · n) with
  | some o => return o
  | none =>
      let per ← StoreM.read (perChild · n)
      let o ← Node.createPacked .plain
      let (r, o) ← Edit.trying o (addEnds per 1 (childCount n - 1))
      match r with
      | .error e =>
          o.destroy
          throw e
      | .ok _ =>
          tryCatch (Node.set 0 (Slot.ofRef o.ref)) fun e => do
            o.destroy
            throw e
          return o

/-- Counts `2 * d` onto the tagged number of elements. -/
def addTotal (d : Int64) : Edit Node Unit := do
  let n ← Edit.self
  Node.adjust (n.size - 1) d

/-- Edits the node with the ends and stores its ref again. -/
def editOffsets (o : Node) (e : Edit Node Unit) : Edit Node Unit := do
  let (_, o) ← Edit.on o e
  Node.patchSlot 0 o.ref

/-- Frees the node and its ends, and leaves its children alone. -/
def destroy (n : Node) : StoreM Unit := do
  let first ← StoreM.read (n.get · 0)
  if Slot.isRef first then Node.destroyDeepRef (Slot.toRef first)
  n.destroy

end ColumnStore.Branch
