import ColumnStore.Column.Int
import ColumnStore.Column.Plain

set_option autoImplicit false

/-!
Columns of text with few values: every row holds the number of a key. Keys are distinct, and a key
that no row uses any more is kept.
-/
namespace ColumnStore

structure EnumColumn where
  keys : PlainColumn
  values : IntColumn
  index : Option SearchIndex := none
  deriving Inhabited

namespace EnumColumn

variable {α : Type}

def create (maxNodeSize : Nat) : StoreM EnumColumn := do
  let keys ← PlainColumn.create maxNodeSize
  let values ← Tree.create maxNodeSize
  return { keys, values }

/-- The distinct values in ascending order. -/
def distinct (values : List String) : List String := (values.mergeSort fun a b => !(b < a)).eraseReps

/-- Enumerates the values of a column; the keys are sorted. -/
def ofPlain (source : PlainColumn) (maxNodeSize : Nat) : StoreM EnumColumn := do
  let strings ← StoreM.read source.toList
  let distinct := distinct strings
  let (_, keys) ← Edit.on (← PlainColumn.create maxNodeSize) (distinct.forM PlainColumn.add)
  let (_, values) ← Edit.on (← Tree.create maxNodeSize : IntColumn)
    (strings.forM fun s => Tree.add (Int64.ofNat (distinct.idxOf s)))
  return { keys, values }

def size (m : Memory) (c : EnumColumn) : Nat := c.values.size m

def keyCount (m : Memory) (c : EnumColumn) : Nat := c.keys.size m

/-- The number of the key in a row. -/
def keyOf (m : Memory) (c : EnumColumn) (row : Nat) : Nat := (c.values.get m row).toUInt64.toNat

def get (m : Memory) (c : EnumColumn) (row : Nat) : String := c.keys.get m (c.keyOf m row)

def toList (m : Memory) (c : EnumColumn) : List String := (List.range (c.size m)).map (c.get m)

def findKey (m : Memory) (c : EnumColumn) (v : String) : Option Nat := c.keys.findFirst m v 0 none

def editKeys (e : Edit PlainColumn α) : Edit EnumColumn α :=
  Edit.focus EnumColumn.keys (fun keys c => { c with keys }) e

def editValues (e : Edit IntColumn α) : Edit EnumColumn α :=
  Edit.focus EnumColumn.values (fun values c => { c with values }) e

def updateIndex (f : SearchIndex → SearchIndex) : Edit EnumColumn Unit :=
  Edit.update fun c => { c with index := c.index.map f }

/-- The value of a row, read only if there is an index to tell about it. -/
def indexedValue (row : Nat) : Edit EnumColumn String := do
  let c ← Edit.self
  if c.index.isSome then StoreM.read (c.get · row) else return ""

def findOrAddKey (v : String) : Edit EnumColumn Nat := do
  let c ← Edit.self
  match ← StoreM.read (c.findKey · v) with
  | some key => return key
  | none =>
      let count ← StoreM.read c.keyCount
      editKeys (PlainColumn.add v)
      return count

def set (row : Nat) (v : String) : Edit EnumColumn Unit := do
  let old ← indexedValue row
  updateIndex (·.set row old v)
  let key ← findOrAddKey v
  editValues (Tree.set row (Int64.ofNat key))

/-- Inserts in front of a row, at the end if there is none. -/
def insert (row : Option Nat) (v : String) : Edit EnumColumn Unit := do
  let c ← Edit.self
  let size ← StoreM.read c.size
  let row := row.getD size
  let key ← findOrAddKey v
  editValues (Tree.insert (some row) (Int64.ofNat key))
  updateIndex (·.insert row v (row == size))

def add (v : String) : Edit EnumColumn Unit := insert none v

/-- Erases a row, the last one if none is given. -/
def erase (row : Option Nat) : Edit EnumColumn Unit := do
  let c ← Edit.self
  let size ← StoreM.read c.size
  let i := row.getD (size - 1)
  let old ← indexedValue i
  updateIndex (·.erase i old (i + 1 == size))
  editValues (Tree.erase row)

/-- Removes every row; the keys are kept. -/
def clear : Edit EnumColumn Unit := do
  updateIndex fun _ => {}
  editValues Tree.clear

def destroy (c : EnumColumn) : StoreM Unit := do
  c.keys.tree.destroy
  c.values.destroy

def addIndex : Edit EnumColumn Unit := do
  let c ← Edit.self
  let values ← StoreM.read c.toList
  Edit.put { c with index := some (.build values) }

def findFirst (m : Memory) (c : EnumColumn) (v : String) (start : Nat) (stop : Option Nat) :
    Option Nat := do
  let key ← c.findKey m v
  c.values.findFirst m (Int64.ofNat key) start stop

/-- Every row of a range that holds `v`. -/
def findAll (m : Memory) (c : EnumColumn) (v : String) (start : Nat) (stop : Option Nat) :
    List Nat :=
  match c.findKey m v with
  | some key => c.values.findAll m (Int64.ofNat key) start stop
  | none => []

def count (m : Memory) (c : EnumColumn) (v : String) : Nat :=
  match c.findKey m v with
  | some key => c.values.count m (Int64.ofNat key)
  | none => 0

/-- Writes keys and values, and a node with their positions. -/
def write (m : Memory) (c : EnumColumn) (w : Image.Writer) : Ref × Image.Writer :=
  let (keys, w) := c.keys.tree.write m w
  let (values, w) := c.values.write m w
  Node.writeParent [keys, values] w

end EnumColumn

end ColumnStore
