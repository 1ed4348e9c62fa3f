import ColumnStore.Column.Bytes
import ColumnStore.Column.SearchIndex
import ColumnStore.Text.Utf8

set_option autoImplicit false

/-!
Columns of text that store every value: byte strings, with an index that every edit keeps up to
date if there is one.
-/
namespace ColumnStore

structure PlainColumn where
  tree : BytesColumn
  index : Option SearchIndex := none
  deriving Inhabited

namespace PlainColumn

variable {α : Type}

def create (maxNodeSize : Nat) : StoreM PlainColumn := return { tree := ← Tree.create maxNodeSize }

def load (m : Memory) (maxNodeSize : Nat) (r : Ref) : PlainColumn :=
  { tree := .load m maxNodeSize r }

def size (m : Memory) (c : PlainColumn) : Nat := c.tree.size m

def get (m : Memory) (c : PlainColumn) (row : Nat) : String := Text.decodeLossy (c.tree.get m row)

def toList (m : Memory) (c : PlainColumn) : List String := (List.range (c.size m)).map (c.get m)

def editTree (e : Edit BytesColumn α) : Edit PlainColumn α :=
  Edit.focus PlainColumn.tree (fun tree c => { c with tree }) e

def destroy (c : PlainColumn) : StoreM Unit := c.tree.destroy

def updateIndex (f : SearchIndex → SearchIndex) : Edit PlainColumn Unit :=
  Edit.update fun c => { c with index := c.index.map f }

/-- The value of a row, read only if there is an index to tell about it. -/
def indexedValue (row : Nat) : Edit PlainColumn String := do
  let c ← Edit.self
  if c.index.isSome then StoreM.read (c.get · row) else return ""

def set (row : Nat) (v : String) : Edit PlainColumn Unit := do
  let old ← indexedValue row
  updateIndex (·.set row old v)
  editTree (Tree.set row (Text.encode v))

/-- Inserts in front of a row, at the end if there is none. -/
def insert (row : Option Nat) (v : String) : Edit PlainColumn Unit := do
  let c ← Edit.self
  let size ← StoreM.read c.size
  let row := row.getD size
  editTree (Tree.insert (some row) (Text.encode v))
  updateIndex (·.insert row v (row == size))

def add (v : String) : Edit PlainColumn Unit := insert none v

/-- Erases a row, the last one if none is given. -/
def erase (row : Option Nat) : Edit PlainColumn Unit := do
  let c ← Edit.self
  let size ← StoreM.read c.size
  let i := row.getD (size - 1)
  let old ← indexedValue i
  updateIndex (·.erase i old (i + 1 == size))
  editTree (Tree.erase row)

def clear : Edit PlainColumn Unit := do
  updateIndex fun _ => {}
  editTree Tree.clear

def addIndex : Edit PlainColumn Unit := do
  let c ← Edit.self
  let values ← StoreM.read c.toList
  Edit.put { c with index := some (.build values) }

def removeIndex : Edit PlainColumn Unit := Edit.update fun c => { c with index := none }

def inRange (start stop row : Nat) : Bool := start ≤ row && row < stop

def findFirst (m : Memory) (c : PlainColumn) (v : String) (start : Nat) (stop : Option Nat) :
    Option Nat :=
  match c.index with
  | some x => (x.rows v).find? (inRange start (c.tree.stopOf m stop))
  | none => c.tree.findFirst m (Text.encode v) start stop

/-- Every row of a range that holds `v`. -/
def findAll (m : Memory) (c : PlainColumn) (v : String) (start : Nat) (stop : Option Nat) :
    List Nat :=
  match c.index with
  | some x => (x.rows v).filter (inRange start (c.tree.stopOf m stop))
  | none => c.tree.findAll m (Text.encode v) start stop

def count (m : Memory) (c : PlainColumn) (v : String) : Nat :=
  match c.index with
  | some x => x.count v
  | none => (c.findAll m v 0 none).length

end PlainColumn

end ColumnStore
