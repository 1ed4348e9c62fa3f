import ColumnStore.Error
import ColumnStore.Table.Basic

set_option autoImplicit false

/-!
What all columns of a table can do, and the types of column among them.
-/
namespace ColumnStore

namespace SubtableColumn

def get (c : SubtableColumn Table) (row : Nat) : Option Table := (c.cells[row]?).join

def set (row : Nat) (t : Option Table) (c : SubtableColumn Table) : SubtableColumn Table :=
  { c with cells := c.cells.set row t }

/-- Inserts a cell without a table. -/
def insert (row : Nat) (c : SubtableColumn Table) : SubtableColumn Table :=
  { c with cells := c.cells.insertIdx row none }

def erase (row : Nat) : Edit (SubtableColumn Table) Unit := do
  let c ← Edit.self
  Edit.put { c with cells := c.cells.eraseIdx row }
  if let some t := c.get row then t.destroy

def clear : Edit (SubtableColumn Table) Unit := do
  let c ← Edit.self
  Edit.put { c with cells := [] }
  Table.destroyCells c.cells

end SubtableColumn

namespace Column

open Edit (inside)

/-- An empty column as the schema says. -/
def create (settings : StoreSettings) (spec : ColumnSpec) : StoreM (Column Table) :=
  let max := settings.maxNodeSize
  match spec.kind with
  | .int | .bool | .dateTime => int <$> Tree.create max
  | .float => single <$> Tree.create max
  | .double => double <$> Tree.create max
  | .string => (text ∘ .plain) <$> PlainColumn.create max
  | .stringEnum => (text ∘ .enum) <$> EnumColumn.create max
  | .binary => bytes <$> Tree.create max
  | .link => link <$> LinkColumn.create max
  | .linkList => linkList <$> LinkListColumn.create max
  | .table => return table { schema := spec.columns }

def size {T : Type} (m : Memory) : Column T → Nat
  | int c => Tree.size m c
  | single c => Tree.size m c
  | double c => Tree.size m c
  | text c => c.size m
  | bytes c => Tree.size m c
  | link c => c.size m
  | linkList c => c.size m
  | table c => c.cells.length

/-- The kind as which a column is stored; all integers are stored alike. -/
def storedKind {T : Type} : Column T → Kind
  | int _ => .int
  | single _ => .float
  | double _ => .double
  | text (.plain _) => .string
  | text (.enum _) => .stringEnum
  | bytes _ => .binary
  | link _ => .link
  | linkList _ => .linkList
  | table _ => .table

/-- The node size of the tree with one value for each row. -/
def maxNodeSize {T : Type} : Column T → Nat
  | int c => c.maxNodeSize
  | single c => c.maxNodeSize
  | double c => c.maxNodeSize
  | text c => c.maxNodeSize
  | bytes c => c.maxNodeSize
  | link c => c.values.maxNodeSize
  | linkList c => c.lists.maxNodeSize
  | table _ => 0

/-- A column of values at a ref, for the kinds that can be attached. -/
def load (kind : Kind) (maxNodeSize : Nat) (m : Memory) (r : Ref) : Option (Column Table) :=
  match kind with
  | .int | .bool | .dateTime => some (int (Tree.load m maxNodeSize r))
  | .float => some (single (Tree.load m maxNodeSize r))
  | .double => some (double (Tree.load m maxNodeSize r))
  | .string => some (text (.plain (PlainColumn.load m maxNodeSize r)))
  | .binary => some (bytes (Tree.load m maxNodeSize r))
  | _ => none

/-- Writes the nodes of a column; tables in cells are not written. -/
def write {T : Type} (m : Memory) (w : Image.Writer) : Column T → Ref × Image.Writer
  | int c => Tree.write m c w
  | single c => Tree.write m c w
  | double c => Tree.write m c w
  | text (.plain c) => c.tree.write m w
  | text (.enum c) => c.write m w
  | bytes c => Tree.write m c w
  | link c => c.values.write m w
  | linkList c => c.lists.write m w
  | table _ => (0, w)

/-- Inserts the default value of the column's type. -/
def insertDefault (row : Nat) : Edit (Column Table) Unit := do
  match ← Edit.self with
  | int c => inside int c (Tree.insert (some row) 0)
  | single c => inside single c (Tree.insert (some row) Scalar.zero)
  | double c => inside double c (Tree.insert (some row) Scalar.zero)
  | text c => inside text c (TextColumn.insert (some row) "")
  | bytes c => inside bytes c (Tree.insert (some row) .empty)
  | link c => inside link c (LinkColumn.insert (some row))
  | linkList c => inside linkList c (LinkListColumn.insert (some row))
  | table c => Edit.put (table (c.insert row))

def erase (row : Nat) : Edit (Column Table) Unit := do
  match ← Edit.self with
  | int c => inside int c (Tree.erase (some row))
  | single c => inside single c (Tree.erase (some row))
  | double c => inside double c (Tree.erase (some row))
  | text c => inside text c (TextColumn.erase (some row))
  | bytes c => inside bytes c (Tree.erase (some row))
  | link c => inside link c (LinkColumn.erase (some row))
  | linkList c => inside linkList c (LinkListColumn.erase row)
  | table c => inside table c (SubtableColumn.erase row)

def clear : Edit (Column Table) Unit := do
  match ← Edit.self with
  | int c => inside int c Tree.clear
  | single c => inside single c Tree.clear
  | double c => inside double c Tree.clear
  | text c => inside text c TextColumn.clear
  | bytes c => inside bytes c Tree.clear
  | link c => inside link c LinkColumn.clear
  | linkList c => inside linkList c LinkListColumn.clear
  | table c => inside table c SubtableColumn.clear

end Column

/-- A type of column among those of a table. -/
class ColumnType (C : Type) where
  /-- What an error names when a column is of another type. -/
  kind : Kind
  ofColumn? : Column Table → Option C
  toColumn : C → Column Table

instance : ColumnType IntColumn where
  kind := .int
  ofColumn?
    | .int c => some c
    | _ => none
  toColumn := .int

instance : ColumnType (ScalarColumn Single) where
  kind := .float
  ofColumn?
    | .single c => some c
    | _ => none
  toColumn := .single

instance : ColumnType (ScalarColumn Double) where
  kind := .double
  ofColumn?
    | .double c => some c
    | _ => none
  toColumn := .double

instance : ColumnType TextColumn where
  kind := .string
  ofColumn?
    | .text c => some c
    | _ => none
  toColumn := .text

instance : ColumnType BytesColumn where
  kind := .binary
  ofColumn?
    | .bytes c => some c
    | _ => none
  toColumn := .bytes

instance : ColumnType LinkColumn where
  kind := .link
  ofColumn?
    | .link c => some c
    | _ => none
  toColumn := .link

instance : ColumnType LinkListColumn where
  kind := .linkList
  ofColumn?
    | .linkList c => some c
    | _ => none
  toColumn := .linkList

instance : ColumnType (SubtableColumn Table) where
  kind := .table
  ofColumn?
    | .table c => some c
    | _ => none
  toColumn := .table

end ColumnStore
