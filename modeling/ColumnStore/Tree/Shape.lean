import ColumnStore.Tree.Basic

set_option autoImplicit false

/-!
The shape of a tree: its nodes with the numbers they store, and not its values.
-/
namespace ColumnStore

inductive Shape where
  | leaf (size : Nat)
  | compact (perChild total : Nat) (children : List Shape)
  | general (ends : List Nat) (total : Nat) (children : List Shape)
  deriving Repr, Inhabited

namespace Branch

def shapeWithin (m : Memory) (leafSize : Ref → Nat) : Nat → Ref → Shape
  | 0, r => .leaf (leafSize r)
  | depth + 1, r =>
      if isInner m r then
        let n := Node.load m r
        let children := (List.range (childCount n)).map fun c =>
          shapeWithin m leafSize depth (child m n c)
        match offsets m n with
        | some o => .general ((List.range o.size).map (endAt m o)) (total m n) children
        | none => .compact (perChild m n) (total m n) children
      else .leaf (leafSize r)

end Branch

namespace Tree

variable {L V : Type} [Leaf L V]

def shape (m : Memory) (t : Tree L) : Shape :=
  Branch.shapeWithin m (fun r => Leaf.size (Leaf.load m r : L)) (Node.depthBound m) t.ref

/-- First element and size of the leaf that holds element `i`. -/
def spanAt (m : Memory) (t : Tree L) (i : Nat) : Nat × Nat :=
  let (l, first) := t.leafAt m i
  (first, Leaf.size l)

/-- The same of the leaves from `start` on, until as many as the limit were seen; the flag tells
that it was not reached. -/
def visit (m : Memory) (t : Tree L) (start : Nat) (limit : Option Nat) : Bool × List (Nat × Nat) :=
  let spans := (t.leavesFrom m start).map fun (l, first) => (first, Leaf.size l)
  match limit.map (max 1) with
  | none => (true, spans)
  | some limit => (spans.length < limit, spans.take limit)

/-- The child of the root that holds element `i`, and the places of the element in the child and
in its leaf. -/
def placeOf (m : Memory) (t : Tree L) (i : Nat) : Option (Nat × Nat × Nat) :=
  match t.root with
  | .leaf _ => none
  | .inner n =>
      let (child, j) := Branch.locate m n (Branch.offsets m n) i
      some (child, j, (Branch.leafAt m n i).2)

end Tree

end ColumnStore
