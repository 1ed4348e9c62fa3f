import ColumnStore.Table.Column

set_option autoImplicit false

/-!
Schema and rows of a table. A row is edited column by column; when a column fails, the columns
before it keep their change.
-/
namespace ColumnStore.Table

variable {α : Type}

def create (settings : StoreSettings) : Except Error Table := do
  settings.check
  return { settings }

def column (t : Table) (col : Nat) : Except Error (Column Table) :=
  match t.columns[col]? with
  | some c => pure c
  | none => throw (.columnNotFound col)

def name (t : Table) (col : Nat) : Except Error String :=
  match t.schema[col]? with
  | some spec => pure spec.name
  | none => throw (.columnNotFound col)

def findColumn (t : Table) (name : String) : Option Nat := t.schema.findIdx? (·.name == name)

/-- The kind in which a column is stored. -/
def storedKind (t : Table) (col : Nat) : Except Error Kind :=
  match t.columns[col]?, t.schema[col]? with
  | some (.text (.enum _)), _ => pure .stringEnum
  | some _, some spec => pure spec.kind
  | _, _ => throw (.columnNotFound col)

/-- The kind that a column shows; enumerated text is text. -/
def kind (t : Table) (col : Nat) : Except Error Kind := do
  match ← t.storedKind col with
  | .stringEnum => return .string
  | k => return k

/-- The error for a column that should be of another kind. -/
def mismatch (t : Table) (col : Nat) (expected : String) : Error :=
  .columnTypeMismatch col expected <|
    match t.storedKind col with
    | .ok k => k.name
    | .error _ => "none"

/-- A column of a given type. -/
def columnOf (C : Type) [ColumnType C] (t : Table) (col : Nat) : Except Error C := do
  match ColumnType.ofColumn? (← t.column col) with
  | some c => return c
  | none => throw (t.mismatch col (ColumnType.kind C).name)

def editColumn (col : Nat) (c : Column Table) (e : Edit (Column Table) α) : Edit Table α := do
  let t ← Edit.self
  Edit.inside (fun c => { t with columns := t.columns.set col c }) c e

/-- Edits a column of a given type. -/
def editColumnOf {C : Type} [ColumnType C] (col : Nat) (e : Edit C α) : Edit Table α := do
  let t ← Edit.self
  let c ← t.columnOf C col
  Edit.inside (fun c => { t with columns := t.columns.set col (ColumnType.toColumn c) }) c e

def insertDefaults (row : Nat) : Nat → Edit (Column Table) Unit
  | 0 => pure ()
  | count + 1 => do
      Column.insertDefault row
      insertDefaults (row + 1) count

/-- Adds a column and returns its index; rows get the default value of its kind. -/
def addColumn (spec : ColumnSpec) : Edit Table Nat := do
  let t ← Edit.self
  let (_, c) ← Edit.on (← Column.create t.settings spec) (insertDefaults 0 t.size)
  Edit.put { t with schema := t.schema ++ [spec], columns := t.columns ++ [c] }
  return t.columns.length

/-- An empty table with these columns. -/
def ofSchema (settings : StoreSettings) (schema : List ColumnSpec) : StoreM Table := do
  let t ← create settings
  let (_, t) ← Edit.on t do
    for spec in schema do
      let _ ← addColumn spec
  return t

/-- Edits the columns in order. -/
def editColumns (e : Edit (Column Table) Unit) : Edit Table Unit := do
  let t ← Edit.self
  for (c, col) in t.columns.zipIdx do
    editColumn col c e

/-- A row of default values in front of row `row`. -/
def pushRow (row : Nat) : Edit Table Unit := do
  editColumns (Column.insertDefault row)
  Edit.update fun t => { t with size := t.size + 1 }

def pushRows : Nat → Edit Table Unit
  | 0 => pure ()
  | count + 1 => do
      let t ← Edit.self
      pushRow t.size
      pushRows count

/-- Appends rows of default values and returns the first. -/
def addRows (count : Nat) : Edit Table Nat := do
  let t ← Edit.self
  pushRows count
  return t.size

def outOfBounds (t : Table) (row : Nat) : Error := .indexOutOfBounds row t.size

def checkRow (t : Table) (row : Nat) : Except Error Unit :=
  if row < t.size then pure () else throw (t.outOfBounds row)

def insertRow (row : Nat) : Edit Table Unit := do
  let t ← Edit.self
  if t.size < row then throw (t.outOfBounds row)
  pushRow row

def remove (row : Nat) : Edit Table Unit := do
  let t ← Edit.self
  t.checkRow row
  editColumns (Column.erase row)
  Edit.update fun t => { t with size := t.size - 1 }

def clear : Edit Table Unit := do
  editColumns Column.clear
  Edit.update fun t => { t with size := 0 }

/-- Frees the columns; the table is left without columns and rows. -/
def drop : Edit Table Unit := do
  (← Edit.self).destroy
  Edit.update fun t => { settings := t.settings }

end ColumnStore.Table
