import ColumnStore.Column.Link
import ColumnStore.Column.Scalar
import ColumnStore.Column.Text
import ColumnStore.Kind
import ColumnStore.Settings

set_option autoImplicit false

/-!
Tables: named columns of one length. A cell of a subtable column is a table of its own, which does
not exist before it is asked for.
-/
namespace ColumnStore

/-- Name and kind of a column; the tables in a subtable column have the columns listed. -/
structure ColumnSpec where
  name : String
  kind : Kind
  columns : List ColumnSpec := []
  deriving Repr, Inhabited

/-- A column whose cells are values of type `T` with one schema. -/
structure SubtableColumn (T : Type) where
  schema : List ColumnSpec
  cells : List (Option T) := []

inductive Column (T : Type) where
  | int (values : IntColumn)
  | single (values : ScalarColumn Single)
  | double (values : ScalarColumn Double)
  | text (values : TextColumn)
  | bytes (values : BytesColumn)
  | link (values : LinkColumn)
  | linkList (values : LinkListColumn)
  | table (values : SubtableColumn T)

structure Table where
  settings : StoreSettings
  schema : List ColumnSpec := []
  columns : List (Column Table) := []
  size : Nat := 0

namespace Table

mutual

def destroy (t : Table) : StoreM Unit :=
  match t with
  | ⟨_, _, columns, _⟩ => destroyColumns columns

def destroyColumns : List (Column Table) → StoreM Unit
  | [] => pure ()
  | c :: cs => do
      destroyColumn c
      destroyColumns cs

def destroyColumn : Column Table → StoreM Unit
  | .int c => Tree.destroy c
  | .single c => Tree.destroy c
  | .double c => Tree.destroy c
  | .text c => c.destroy
  | .bytes c => Tree.destroy c
  | .link c => Tree.destroy c.values
  | .linkList c => Tree.destroy c.lists
  | .table ⟨_, cells⟩ => destroyCells cells

def destroyCells : List (Option Table) → StoreM Unit
  | [] => pure ()
  | none :: cells => destroyCells cells
  | some t :: cells => do
      destroy t
      destroyCells cells

end

end Table

end ColumnStore
