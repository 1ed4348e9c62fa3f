import ColumnStore.Table.Cells

set_option autoImplicit false

/-!
Cells as values of one type, whatever the kind of their column, and all that a table holds.
-/
namespace ColumnStore

inductive Cell where
  | int (v : Int64)
  | bool (b : Bool)
  | single (v : Single)
  | double (v : Double)
  | text (s : String)
  | bytes (b : ByteArray)
  | link (target : Option Nat)
  | links (targets : List Nat)
  /-- The columns of a table, if there is one. -/
  | table (columns : Option (List (List Cell)))

namespace Table

/-- Integers are truth values in a column of that kind. -/
def intCell (kind : Kind) (v : Int64) : Cell := if kind = .bool then .bool (v != 0) else .int v

mutual

/-- The cells of all columns in the rows of the table. -/
def content (m : Memory) (t : Table) : List (List Cell) :=
  match t with
  | ⟨_, schema, columns, size⟩ =>
      (contentOf m (schema.map ColumnSpec.kind) columns).map (List.take size)

def contentOf (m : Memory) (kinds : List Kind) : List (Column Table) → List (List Cell)
  | [] => []
  | c :: cs => cells m (kinds.headD .int) c :: contentOf m kinds.tail cs

/-- The cells of a column of some kind. -/
def cells (m : Memory) (kind : Kind) : Column Table → List Cell
  | .int c => (Tree.toList m c).map (intCell kind)
  | .single c => (Tree.toList m c).map .single
  | .double c => (Tree.toList m c).map .double
  | .text c => (List.range (c.size m)).map (.text ∘ c.get m)
  | .bytes c => (Tree.toList m c).map .bytes
  | .link c => (List.range (c.size m)).map (.link ∘ c.get m)
  | .linkList c => (List.range (c.size m)).map (.links ∘ c.get m)
  | .table ⟨_, tables⟩ => tableCells m tables

def tableCells (m : Memory) : List (Option Table) → List Cell
  | [] => []
  | none :: cells => .table none :: tableCells m cells
  | some t :: cells => .table (some (content m t)) :: tableCells m cells

end

/-- A cell read as one of a given kind. -/
def getCell (m : Memory) (t : Table) (kind : Kind) (col row : Nat) : Except Error Cell :=
  match kind with
  | .int | .dateTime | .bool => intCell kind <$> t.getInt m col row
  | .float => .single <$> t.getSingle m col row
  | .double => .double <$> t.getDouble m col row
  | .string | .stringEnum => .text <$> t.getString m col row
  | .binary => .bytes <$> t.getBytes m col row
  | .link => .link <$> t.getLink m col row
  | .linkList => .links <$> t.getLinks m col row
  | .table => pure (.table ((t.getSubtable col row).map (content m)))

end Table

end ColumnStore
