import ColumnStore.Column.Enum

set_option autoImplicit false

/-!
Columns of text in either form. Both forms answer alike; they differ in what they store.
-/
namespace ColumnStore

inductive TextColumn where
  | plain (values : PlainColumn)
  | enum (values : EnumColumn)
  deriving Inhabited

namespace TextColumn

def size (m : Memory) : TextColumn → Nat
  | plain c => c.size m
  | enum c => c.size m

def get (m : Memory) (c : TextColumn) (row : Nat) : String :=
  match c with
  | plain c => c.get m row
  | enum c => c.get m row

def findFirst (m : Memory) (c : TextColumn) (v : String) (start : Nat) (stop : Option Nat) :
    Option Nat :=
  match c with
  | plain c => c.findFirst m v start stop
  | enum c => c.findFirst m v start stop

def findAll (m : Memory) (c : TextColumn) (v : String) (start : Nat) (stop : Option Nat) :
    List Nat :=
  match c with
  | plain c => c.findAll m v start stop
  | enum c => c.findAll m v start stop

def count (m : Memory) (c : TextColumn) (v : String) : Nat :=
  match c with
  | plain c => c.count m v
  | enum c => c.count m v

/-- The node size of the tree with one value for each row. -/
def maxNodeSize : TextColumn → Nat
  | plain c => c.tree.maxNodeSize
  | enum c => c.values.maxNodeSize

def index? : TextColumn → Option SearchIndex
  | plain c => c.index
  | enum c => c.index

/-- Runs the edit of the form that the column has. -/
def edit {α : Type} (inPlain : Edit PlainColumn α) (inEnum : Edit EnumColumn α) :
    Edit TextColumn α := do
  match ← Edit.self with
  | plain c => Edit.inside plain c inPlain
  | enum c => Edit.inside enum c inEnum

def set (row : Nat) (v : String) : Edit TextColumn Unit :=
  edit (PlainColumn.set row v) (EnumColumn.set row v)

def insert (row : Option Nat) (v : String) : Edit TextColumn Unit :=
  edit (PlainColumn.insert row v) (EnumColumn.insert row v)

def erase (row : Option Nat) : Edit TextColumn Unit :=
  edit (PlainColumn.erase row) (EnumColumn.erase row)

def clear : Edit TextColumn Unit := edit PlainColumn.clear EnumColumn.clear

def addIndex : Edit TextColumn Unit := edit PlainColumn.addIndex EnumColumn.addIndex

def destroy : TextColumn → StoreM Unit
  | plain c => c.destroy
  | enum c => c.destroy

/-- Enumerates a plain column. -/
def enumerate (maxNodeSize : Nat) : Edit TextColumn Unit := do
  if let plain c ← Edit.self then
    let e ← EnumColumn.ofPlain c maxNodeSize
    c.destroy
    Edit.put (enum e)

/-- Enumerates a plain column if at most half of its values are distinct; the answer tells whether
it did. -/
def optimize (maxNodeSize : Nat) : Edit TextColumn Bool := do
  match ← Edit.self with
  | enum _ => return false
  | plain c =>
      let e ← EnumColumn.ofPlain c maxNodeSize
      if (← StoreM.read c.size) < 2 * (← StoreM.read e.keyCount) then
        e.destroy
        return false
      c.destroy
      Edit.put (enum { e with index := c.index })
      return true

end TextColumn

end ColumnStore
