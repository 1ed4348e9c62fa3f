import ColumnStore.Leaf.Packed
import ColumnStore.Node.Aggregate
import ColumnStore.Node.Sorted
import ColumnStore.Tree.Erase
import ColumnStore.Tree.Insert
import ColumnStore.Tree.Pieces
import ColumnStore.Tree.Update

set_option autoImplicit false

/-!
Columns of integers. Searches and aggregates go leaf by leaf and answer in rows of the column.
-/
namespace ColumnStore

abbrev IntColumn := Tree Node

namespace IntColumn

variable {S : Type}

/-- Reports every match in a range of rows; the flag tells that the receiver did not stop it. -/
def find (m : Memory) (c : IntColumn) (r : Receiver S) (test : Comparison) (needle : Int64)
    (start : Nat) (stop : Option Nat) (s : S) : S × Bool :=
  Tree.walk (fun p => p.leaf.find m r test needle p.start (some p.stop) p.offset)
    (c.pieces m start stop) s

def findFirst (m : Memory) (c : IntColumn) (v : Int64) (start : Nat) (stop : Option Nat) :
    Option Nat :=
  (c.find m .first .equal v start stop none).1

/-- Every row of a range that holds `v`. -/
def findAll (m : Memory) (c : IntColumn) (v : Int64) (start : Nat) (stop : Option Nat) : List Nat :=
  (c.find m .collect .equal v start stop []).1.reverse

def count (m : Memory) (c : IntColumn) (v : Int64) : Nat :=
  (c.find m .count .equal v 0 none 0).1

/-- The first row of a sorted column that is at least `v`. -/
def lowerBound (m : Memory) (c : IntColumn) (v : Int64) : Nat :=
  bisect (fun i => c.get m i < v) 0 (c.size m)

/-- The first row of a sorted column that is above `v`. -/
def upperBound (m : Memory) (c : IntColumn) (v : Int64) : Nat :=
  bisect (fun i => c.get m i ≤ v) 0 (c.size m)

def sum (m : Memory) (c : IntColumn) (start : Nat) (stop : Option Nat) : Int64 :=
  (c.pieces m start stop).foldl (fun total p => total + p.leaf.sum m p.start (some p.stop)) 0

def minimum (m : Memory) (c : IntColumn) (start : Nat) (stop : Option Nat) : Option (Int64 × Nat) :=
  Tree.bestOf (fun leaf s e => leaf.minimum m s (some e)) (fun v best => v < best)
    (c.pieces m start stop) none

def maximum (m : Memory) (c : IntColumn) (start : Nat) (stop : Option Nat) : Option (Int64 × Nat) :=
  Tree.bestOf (fun leaf s e => leaf.maximum m s (some e)) (fun v best => v > best)
    (c.pieces m start stop) none

/-- The mean of a range, zero if it is empty. -/
def average (m : Memory) (c : IntColumn) (start : Nat) (stop : Option Nat) : Float :=
  let count := c.stopOf m stop - start
  if count = 0 then 0.0 else (c.sum m start stop).toFloat / Float.ofNat count

/-- Adds `d` to row `i`. -/
def adjust (i : Nat) (d : Int64) : Edit IntColumn Unit := do
  let c ← Edit.self
  Tree.set i ((← StoreM.read (c.get · i)) + d)

/-- Adds `d` to every row. -/
def adjustAll (d : Int64) : Edit IntColumn Unit :=
  Tree.updateLeaves do
    let leaf ← Edit.self
    Node.adjustRange 0 leaf.size d

end IntColumn

end ColumnStore
