import ColumnStore.Tree.Basic

set_option autoImplicit false

/-!
A range of a tree as the pieces of it that lie in single leaves, and a cursor that remembers the
leaf it was in.
-/
namespace ColumnStore

/-- The part of a range that lies in one leaf; `start` and `stop` count within the leaf. -/
structure Piece (L : Type) where
  leaf : L
  offset : Nat
  start : Nat
  stop : Nat

namespace Tree

variable {L V α S : Type} [Leaf L V]

def cut (start stop : Nat) : List (L × Nat) → List (Piece L)
  | [] => []
  | (leaf, offset) :: rest =>
      let size := Leaf.size leaf
      ⟨leaf, offset, start - offset, min (stop - offset) size⟩ ::
        if offset + size < stop then cut start stop rest else []

/-- The end of a range of rows; without a bound it is their number. -/
def stopOf (m : Memory) (t : Tree L) (stop : Option Nat) : Nat := Node.stopOf (t.size m) stop

def pieces (m : Memory) (t : Tree L) (start : Nat) (stop : Option Nat) : List (Piece L) :=
  let stop := t.stopOf m stop
  if start < stop then cut start stop (t.leavesFrom m start) else []

/-- The first find of `find` within a leaf, as a row of the tree. -/
def firstOf (find : L → Nat → Nat → Option Nat) : List (Piece L) → Option Nat
  | [] => none
  | p :: ps =>
      match find p.leaf p.start p.stop with
      | some i => some (p.offset + i)
      | none => firstOf find ps

def findFirst (m : Memory) (t : Tree L) (find : L → Nat → Nat → Option Nat) (start : Nat)
    (stop : Option Nat) : Option Nat :=
  firstOf find (t.pieces m start stop)

/-- Goes through the pieces until one of them stops the walk. -/
def walk (step : Piece L → S → S × Bool) : List (Piece L) → S → S × Bool
  | [], s => (s, true)
  | p :: ps, s => Search.andThen (step p s) (walk step ps)

/-- The best of the extremes of all pieces; the earlier one wins a tie. -/
def bestOf (extreme : L → Nat → Nat → Option (α × Nat)) (better : α → α → Bool) :
    List (Piece L) → Option (α × Nat) → Option (α × Nat)
  | [], best => best
  | p :: ps, best =>
      bestOf extreme better ps <|
        match extreme p.leaf p.start p.stop, best with
        | none, best => best
        | some (v, i), none => some (v, p.offset + i)
        | some (v, i), some (b, j) => if better v b then some (v, p.offset + i) else some (b, j)

end Tree

/-- The leaf that was read last, with the rows it holds. It serves while the tree is not edited. -/
structure Cursor (L : Type) where
  cached : Option (L × Nat × Nat) := none
  deriving Inhabited

namespace Cursor

variable {L V : Type} [Leaf L V]

/-- The leaf that holds row `i`, and its first row. -/
def leafFor (m : Memory) (t : Tree L) (i : Nat) (c : Cursor L) : (L × Nat) × Cursor L :=
  let fresh : (L × Nat) × Cursor L :=
    let (leaf, start) := t.leafAt m i
    ((leaf, start), ⟨some (leaf, start, start + Leaf.size leaf)⟩)
  match c.cached with
  | some (leaf, start, stop) => if start ≤ i ∧ i < stop then ((leaf, start), c) else fresh
  | none => fresh

/-- One past the last row of the leaf. -/
def stop (c : Cursor L) : Nat :=
  match c.cached with
  | some (_, _, stop) => stop
  | none => 0

/-- First row and end of the leaves read for rows, one after the other. -/
def spans (m : Memory) (t : Tree L) : List Nat → Cursor L → List (Nat × Nat)
  | [], _ => []
  | i :: is, c =>
      let ((_, start), c) := c.leafFor m t i
      (start, c.stop) :: spans m t is c

def get (m : Memory) (t : Tree L) (i : Nat) (c : Cursor L) : V × Cursor L :=
  let ((leaf, start), c) := c.leafFor m t i
  (Leaf.get m leaf (i - start), c)

end Cursor

end ColumnStore
