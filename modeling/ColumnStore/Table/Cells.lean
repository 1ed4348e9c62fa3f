import ColumnStore.Table.Rows

set_option autoImplicit false

/-!
Cells of a table, search indexes and enumerated text.
-/
namespace ColumnStore.Table

variable {α : Type}

/-- Reads a cell of a column of a given type. -/
def cell (C : Type) [ColumnType C] (get : C → Nat → α) (t : Table) (col row : Nat) :
    Except Error α := do
  t.checkRow row
  return get (← t.columnOf C col) row

/-- Edits a cell of a column of a given type. -/
def editCell {C : Type} [ColumnType C] (col row : Nat) (e : Edit C α) : Edit Table α := do
  (← Edit.self).checkRow row
  editColumnOf col e

def getInt (m : Memory) (t : Table) (col row : Nat) : Except Error Int64 :=
  t.cell IntColumn (Tree.get m) col row

def getSingle (m : Memory) (t : Table) (col row : Nat) : Except Error Single :=
  t.cell (ScalarColumn Single) (Tree.get m) col row

def getDouble (m : Memory) (t : Table) (col row : Nat) : Except Error Double :=
  t.cell (ScalarColumn Double) (Tree.get m) col row

def getString (m : Memory) (t : Table) (col row : Nat) : Except Error String :=
  t.cell TextColumn (TextColumn.get m) col row

def getBytes (m : Memory) (t : Table) (col row : Nat) : Except Error ByteArray :=
  t.cell BytesColumn (Tree.get m) col row

def getLink (m : Memory) (t : Table) (col row : Nat) : Except Error (Option Nat) :=
  t.cell LinkColumn (LinkColumn.get m) col row

def getLinks (m : Memory) (t : Table) (col row : Nat) : Except Error (List Nat) :=
  t.cell LinkListColumn (LinkListColumn.get m) col row

/-- The table in a cell, if there is one. -/
def getSubtable (t : Table) (col row : Nat) : Option Table :=
  match t.columns[col]? with
  | some (.table c) => c.get row
  | _ => none

def setInt (col row : Nat) (v : Int64) : Edit Table Unit :=
  editCell (C := IntColumn) col row (Tree.set row v)

def setBool (col row : Nat) (b : Bool) : Edit Table Unit := setInt col row (if b then 1 else 0)

def setSingle (col row : Nat) (v : Single) : Edit Table Unit :=
  editCell (C := ScalarColumn Single) col row (Tree.set row v)

def setDouble (col row : Nat) (v : Double) : Edit Table Unit :=
  editCell (C := ScalarColumn Double) col row (Tree.set row v)

def setString (col row : Nat) (v : String) : Edit Table Unit :=
  editCell col row (TextColumn.set row v)

def setBytes (col row : Nat) (v : ByteArray) : Edit Table Unit :=
  editCell (C := BytesColumn) col row (Tree.set row v)

def setLink (col row : Nat) (v : Option Nat) : Edit Table Unit :=
  editCell col row (LinkColumn.set row v)

def addLink (col row target : Nat) : Edit Table Unit :=
  editCell col row (LinkListColumn.addLink row target)

/-- Adds `d` to every value of a column of integers. -/
def adjustInt (col : Nat) (d : Int64) : Edit Table Unit := editColumnOf col (IntColumn.adjustAll d)

/-- Edits the table in a cell, which is created first if there is none. -/
def editSubtable (col row : Nat) (e : Edit Table α) : Edit Table α := do
  let t ← Edit.self
  editCell col row (C := SubtableColumn Table) do
    let c ← Edit.self
    let sub ← match c.get row with
      | some sub => pure sub
      | none => ofSchema t.settings c.schema
    Edit.inside (fun sub => c.set row (some sub)) sub e

/-- Builds a search index on a column of text. -/
def addIndex (col : Nat) : Edit Table Unit := do
  match ← (← Edit.self).column col with
  | .text _ => editColumnOf col TextColumn.addIndex
  | _ => throw (.notIndexable col)

def hasIndex (t : Table) (col : Nat) : Bool :=
  match t.columns[col]? with
  | some (.text c) => c.index?.isSome
  | _ => false

/-- Enumerates a column of plain text if that pays; the answer tells whether it did. -/
def optimize (col : Nat) : Edit Table Bool := do
  let t ← Edit.self
  match ← t.column col with
  | .text _ => editColumnOf col (TextColumn.optimize t.settings.maxNodeSize)
  | _ => return false

end ColumnStore.Table
