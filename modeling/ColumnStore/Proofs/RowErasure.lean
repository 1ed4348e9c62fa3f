import ColumnStore.Proofs.TableContent
import Mathlib.Data.List.Forall2

set_option autoImplicit false

/-!
Columns read row by row. When a row is removed from a table, every column reads as before without
that row, whatever kind of cell is asked for.
-/
namespace ColumnStore

open Assertion (each)

/-! ### Columns without a row -/

/-- What an erased row changes in how a column is read, apart from its values: nothing but that the
cell with a table is gone. -/
inductive Column.Erased (row : Nat) : Column Table → Column Table → Prop where
  | int {c c' : IntColumn} : Erased row (.int c) (.int c')
  | single {c c' : ScalarColumn Single} : Erased row (.single c) (.single c')
  | double {c c' : ScalarColumn Double} : Erased row (.double c) (.double c')
  | plain {c c' : PlainColumn} : Erased row (.text (.plain c)) (.text (.plain c'))
  | enum {c c' : EnumColumn} : Erased row (.text (.enum c)) (.text (.enum c'))
  | bytes {c c' : BytesColumn} : Erased row (.bytes c) (.bytes c')
  | link {c c' : LinkColumn} : Erased row (.link c) (.link c')
  | linkList {c c' : LinkListColumn} : Erased row (.linkList c) (.linkList c')
  | table {schema : List ColumnSpec} {cells : List (Option Table)} :
      Erased row (.table ⟨schema, cells⟩) (.table ⟨schema, cells.eraseIdx row⟩)

theorem Column.erase_erased {row : Nat} {c c' : Column Table} {s s' : Store}
    (run : erase row (c, s) = (.ok (), (c', s'))) : Column.Erased row c c' := by
  rw [erase, Edit.self_bind] at run
  cases c with
  | int c =>
      obtain ⟨_, -, rfl⟩ := Edit.inside_ok.mp run
      exact .int
  | single c =>
      obtain ⟨_, -, rfl⟩ := Edit.inside_ok.mp run
      exact .single
  | double c =>
      obtain ⟨_, -, rfl⟩ := Edit.inside_ok.mp run
      exact .double
  | bytes c =>
      obtain ⟨_, -, rfl⟩ := Edit.inside_ok.mp run
      exact .bytes
  | link c =>
      obtain ⟨_, -, rfl⟩ := Edit.inside_ok.mp run
      exact .link
  | linkList c =>
      obtain ⟨_, -, rfl⟩ := Edit.inside_ok.mp run
      exact .linkList
  | text c =>
      obtain ⟨c', ran, rfl⟩ := Edit.inside_ok.mp run
      cases c with
      | plain c =>
          obtain ⟨_, -, rfl⟩ := TextColumn.edit_plain_ok.mp ran
          exact .plain
      | enum c =>
          obtain ⟨_, -, rfl⟩ := TextColumn.edit_enum_ok.mp ran
          exact .enum
  | table c =>
      obtain ⟨c', ran, rfl⟩ := Edit.inside_ok.mp run
      rw [SubtableColumn.erase, Edit.self_bind, Edit.put_bind] at ran
      cases cell : c.get row with
      | none =>
          rw [cell] at ran
          cases ran
          exact .table
      | some t =>
          rw [cell] at ran
          obtain ⟨rfl, -⟩ := Edit.lift_ok.mp ran
          exact .table

theorem Values.cells_erase {T : Type} (kind : Kind) (row : Nat) (y : Values T) :
    (y.erase row).cells kind = (y.cells kind).eraseIdx row := by
  cases y <;> first | rfl | exact (List.eraseIdx_map ..).symm

/-! ### Cells read one by one -/

namespace Table

variable {s s' : Store} {R R' : Assertion} {t t' : Table} {x : Sheet} {b col row : Nat} {kind : Kind}

/-- A column read row by row as one of a kind. -/
def readColumn (m : Memory) (t : Table) (kind : Kind) (col : Nat) : List (Except Error Cell) :=
  (List.range t.size).map (t.getCell m kind col)

/-- Cells of a kind are values of columns of type `C`. -/
structure ReadsAs {C α : Type} [ColumnType C] (kind : Kind) (get : Memory → C → Nat → α)
    (f : α → Cell) : Prop where
  cell : ∀ m t col row, getCell m t kind col row = f <$> t.cell C (get m) col row
  values : ∀ {s : Store} {R : Assertion} {b : Nat} {c : C} {y : Values Sheet},
    s.Holds (columnHolds b (ColumnType.toColumn c) y * R) → b < Slot.countBound →
    y.length < Slot.countBound → (y.cells kind).length = y.length ∧
      ∀ (i : Nat) (inside : i < (y.cells kind).length), f (get s.memory c i) = (y.cells kind)[i]
  erased : ∀ {row : Nat} {c c' : Column Table}, Column.Erased row c c' →
    (ColumnType.ofColumn? c' : Option C).isSome = (ColumnType.ofColumn? c : Option C).isSome

section Read

variable {C α : Type} [ColumnType C] [LawfulColumnType C] {get : Memory → C → Nat → α} {f : α → Cell}

theorem readColumn_of_holds (reads : ReadsAs kind get f) (h : s.Holds (t.holds b x * R))
    (small : b < Slot.countBound) (col : Nat) : t.readColumn s.memory kind col =
      match t.columnOf C col with
      | .ok _ => (x.columns[col]?.elim [] (Values.cells kind)).map .ok
      | .error e => List.replicate t.size (.error e) := by
  obtain ⟨⟨-, size, most⟩, held⟩ := holds_mul.mp h
  have cell (row : Nat) (inside : row < t.size) :
      t.getCell s.memory kind col row = (fun c => f (get s.memory c row)) <$> t.columnOf C col := by
    rw [reads.cell, Table.cell, checkRow, if_pos inside]
    cases t.columnOf C col <;> rfl
  cases found : t.columnOf C col with
  | error e =>
      have failed : ∀ row ∈ List.range t.size, t.getCell s.memory kind col row = .error e := by
        intro row inside
        rw [cell row (List.mem_range.mp inside), found]
        rfl
      rw [readColumn, List.map_congr_left failed, List.map_const', List.length_range]
  | ok c =>
      have here := columnOf_ok found
      obtain ⟨y, there, held⟩ := (Assertion.each_apart here).mp held
      obtain ⟨length, held⟩ := columnIn_mul.mp held
      obtain ⟨same, each⟩ := reads.values held small (by omega)
      dsimp only
      rw [there, Option.elim_some, readColumn]
      refine range_map_eq (size.trans (length.symm.trans same.symm)) fun i inside => ?_
      rw [cell i (by omega), found, ← each i inside]
      rfl

end Read

/-! ### Removed rows -/

/-- A table without one of its rows. -/
structure Erased (row : Nat) (t t' : Table) : Prop where
  schema : t'.schema = t.schema
  inside : row < t.size
  size : t'.size = t.size - 1
  columns : List.Forall₂ (Column.Erased row) t.columns t'.columns

theorem Edited.erased {cs cs' : List (Column Table)}
    (edited : Edited (Column.erase row) (.ok ()) cs s cs' s') :
    List.Forall₂ (Column.Erased row) cs cs' := by
  generalize ok : Except.ok () = r at edited
  induction edited with
  | all => exact .nil
  | next first rest ih => exact .cons (Column.erase_erased first) (ih ok)
  | stop => cases ok

theorem remove_erased (run : remove row (t, s) = (.ok (), (t', s'))) : Erased row t t' := by
  rw [remove, Edit.self_bind] at run
  obtain ⟨_, checked, run⟩ := Edit.except_bind_ok.mp run
  obtain ⟨_, ⟨t₁, s₁⟩, ran, run⟩ := Edit.bind_ok.mp run
  obtain ⟨cs, rfl, edited⟩ := editColumns_edited ran
  cases run
  exact ⟨rfl, checkRow_ok checked, rfl, edited.erased⟩

namespace Erased

variable (erased : Erased row t t')
include erased

/-- There is a column before exactly if there is one after. -/
theorem column (col : Nat) : (t.columns[col]? = none ∧ t'.columns[col]? = none) ∨
    ∃ c c', t.columns[col]? = some c ∧ t'.columns[col]? = some c' ∧ Column.Erased row c c' := by
  have same := erased.columns.length_eq
  by_cases inside : col < t.columns.length
  · have within : col < t'.columns.length := same ▸ inside
    exact .inr ⟨_, _, List.getElem?_eq_getElem inside, List.getElem?_eq_getElem within,
      erased.columns.get inside within⟩
  · refine .inl ⟨List.getElem?_eq_none (by omega), List.getElem?_eq_none (by omega)⟩

theorem storedKind (col : Nat) : t'.storedKind col = t.storedKind col := by
  rw [Table.storedKind, Table.storedKind, erased.schema]
  rcases erased.column col with ⟨here, there⟩ | ⟨c, c', here, there, column⟩
  · rw [here, there]
  · rw [here, there]
    cases t.schema[col]? <;> cases column <;> rfl

theorem columnOf {C : Type} [ColumnType C] (typed : ∀ {c c' : Column Table}, Column.Erased row c c' →
      (ColumnType.ofColumn? c' : Option C).isSome = (ColumnType.ofColumn? c : Option C).isSome)
    (col : Nat) : (fun _ => ()) <$> t'.columnOf C col = (fun _ => ()) <$> t.columnOf C col := by
  have mismatch : t'.mismatch col (ColumnType.kind C).name =
      t.mismatch col (ColumnType.kind C).name := by
    rw [Table.mismatch, Table.mismatch, erased.storedKind]
  rw [Table.columnOf, Table.columnOf, Table.column, Table.column, mismatch]
  rcases erased.column col with ⟨here, there⟩ | ⟨c, c', here, there, column⟩
  · rw [here, there]
  · have typed := typed column
    rw [here, there]
    simp only [pure_bind]
    revert typed
    cases (ColumnType.ofColumn? c' : Option C) <;> cases (ColumnType.ofColumn? c : Option C) <;>
      intro typed <;> first | rfl | cases typed

/-- A column of a type that cells are read from. -/
theorem readColumn {C α : Type} [ColumnType C] [LawfulColumnType C] {get : Memory → C → Nat → α}
    {f : α → Cell} (reads : ReadsAs kind get f) (h : s.Holds (t.holds b x * R))
    (h' : s'.Holds (t'.holds b (x.remove row) * R')) (small : b < Slot.countBound) (col : Nat) :
    t'.readColumn s'.memory kind col = (t.readColumn s.memory kind col).eraseIdx row := by
  have types := erased.columnOf (C := C) reads.erased col
  rw [readColumn_of_holds reads h small, readColumn_of_holds reads h' small]
  revert types
  cases t'.columnOf C col with
  | error e' =>
      cases t.columnOf C col with
      | error e =>
          intro types
          cases types
          dsimp only
          rw [erased.size, List.eraseIdx_replicate, if_pos erased.inside]
      | ok c =>
          intro types
          cases types
  | ok c' =>
      cases t.columnOf C col with
      | error e =>
          intro types
          cases types
      | ok c =>
          intro _
          dsimp only
          rw [Sheet.remove, List.getElem?_map]
          cases x.columns[col]? with
          | none => rfl
          | some y =>
              rw [Option.map_some, Option.elim_some, Option.elim_some, Values.cells_erase,
                List.eraseIdx_map]

end Erased

/-! ### Kinds of cells -/

namespace ReadsAs

/-- Values in a tree, one a row. -/
theorem tree {C α L V : Type} [ColumnType C] [Leaf L V] [ListLeaf L] (tree : C → Tree L)
    {make : List V → Values Sheet} {get : Memory → C → Nat → α} {f : α → Cell} {g : V → Cell}
    (column : ∀ b c, columnHolds b (ColumnType.toColumn c) = Assertion.made make (tree c).growing)
    (length : ∀ vs, (make vs).length = vs.length)
    (values : ∀ vs, (make vs).cells kind = vs.map g)
    (value : ∀ m c row, f (get m c row) = g ((tree c).get m row))
    (cell : ∀ m t col row, getCell m t kind col row = f <$> t.cell C (get m) col row)
    (erased : ∀ {row : Nat} {c c' : Column Table}, Column.Erased row c c' →
      (ColumnType.ofColumn? c' : Option C).isSome = (ColumnType.ofColumn? c : Option C).isSome) :
    ReadsAs kind get f := by
  refine ⟨cell, fun h _ few => ?_, erased⟩
  rw [column] at h
  obtain ⟨vs, rfl, held⟩ := Assertion.made_mul.mp h
  obtain ⟨_, here⟩ := (Tree.growing_mul.mp held).2.reads
  rw [length] at few
  simp only [values, List.length_map, length, List.getElem_map]
  refine ⟨trivial, fun i inside => ?_⟩
  rw [value, Tree.get_of_holds here few inside]

theorem int (cell : ∀ m t col row,
      getCell m t kind col row = intCell kind <$> t.getInt m col row) :
    ReadsAs (C := IntColumn) kind Tree.get (intCell kind) :=
  tree id (fun _ _ => rfl) (fun _ => rfl) (fun _ => rfl) (fun _ _ _ => rfl) cell
    fun erased => by cases erased <;> rfl

theorem single : ReadsAs (C := ScalarColumn Single) .float Tree.get .single :=
  tree id (fun _ _ => rfl) (fun _ => rfl) (fun _ => rfl) (fun _ _ _ => rfl) (fun _ _ _ _ => rfl)
    fun erased => by cases erased <;> rfl

theorem double : ReadsAs (C := ScalarColumn Double) .double Tree.get .double :=
  tree id (fun _ _ => rfl) (fun _ => rfl) (fun _ => rfl) (fun _ _ _ => rfl) (fun _ _ _ _ => rfl)
    fun erased => by cases erased <;> rfl

theorem bytes : ReadsAs (C := BytesColumn) .binary Tree.get .bytes :=
  tree id (fun _ _ => rfl) (fun _ => rfl) (fun _ => rfl) (fun _ _ _ => rfl) (fun _ _ _ _ => rfl)
    fun erased => by cases erased <;> rfl

theorem link : ReadsAs .link LinkColumn.get .link :=
  tree LinkColumn.values (fun _ _ => rfl) (fun _ => rfl) (fun _ => rfl) (fun _ _ _ => rfl)
    (fun _ _ _ _ => rfl) fun erased => by cases erased <;> rfl

theorem text (cell : ∀ m t col row,
      getCell m t kind col row = Cell.text <$> t.getString m col row) :
    ReadsAs kind TextColumn.get .text := by
  refine ⟨cell, fun h small few => ?_, fun erased => by cases erased <;> rfl⟩
  obtain ⟨vs, keys, rfl, many, held⟩ := text_mul.mp h
  obtain ⟨_, here⟩ := held.reads
  simp only [Values.cells, List.length_map, List.getElem_map]
  refine ⟨rfl, fun i inside => ?_⟩
  rw [TextColumn.get_of_holds here (Nat.lt_of_le_of_lt many small) few inside]

theorem linkList : ReadsAs .linkList LinkListColumn.get .links := by
  refine ⟨fun _ _ _ _ => rfl, fun h _ few => ?_, fun erased => by cases erased <;> rfl⟩
  obtain ⟨lists, rfl, held⟩ := Assertion.made_mul.mp h
  simp only [Values.cells, List.length_map, List.getElem_map]
  refine ⟨rfl, fun i inside => ?_⟩
  rw [LinkListColumn.get_of_holds held inside few, Function.comp]

end ReadsAs

/-! ### Cells with tables -/

theorem cellsShow_eraseIdx (cells : List (Option Table)) (xs : List (Option Sheet)) (row : Nat) :
    cellsShow (cells.eraseIdx row) (xs.eraseIdx row) = (cellsShow cells xs).eraseIdx row := by
  induction cells generalizing xs row with
  | nil => rfl
  | cons cell cells ih =>
      cases xs with
      | nil => cases row <;> simp [cellsShow]
      | cons x xs =>
          cases row with
          | zero => cases cell <;> rfl
          | succ row =>
              have rest := ih xs row
              cases cell <;> simp only [List.eraseIdx_cons_succ, cellsShow, rest]

theorem tableCells_eq (m : Memory) (cells : List (Option Table)) :
    tableCells m cells = cells.map fun cell => .table (cell.map (content m)) := by
  induction cells with
  | nil => rfl
  | cons cell cells ih => cases cell <;> rw [tableCells, ih] <;> rfl

/-- A column that is read for tables, those in its cells. -/
theorem readColumn_tables (h : s.Holds (t.holds b x * R)) (small : b < Slot.countBound) (col : Nat) :
    t.readColumn s.memory .table col =
      match t.columns[col]? with
      | some (.table c) => (cellsShow c.cells (x.columns[col]?.elim [] Values.tables)).map .ok
      | _ => List.replicate t.size (.ok (.table none)) := by
  have cell (row : Nat) : t.getCell s.memory .table col row =
      .ok (.table ((t.getSubtable col row).map (content s.memory))) := rfl
  rw [readColumn, List.map_congr_left fun row _ => cell row]
  split
  next c here =>
    obtain ⟨⟨-, size, -⟩, held⟩ := holds_mul.mp h
    obtain ⟨y, there, held⟩ := (Assertion.each_apart here).mp held
    obtain ⟨length, held⟩ := columnIn_mul.mp held
    obtain ⟨xs, rfl, tables⟩ := table_mul.mp held
    have same : xs.length = c.cells.length := Assertion.length_each tables
    rw [there, Option.elim_some, Values.tables, ← (tableCells_of_holds c.cells tables small).1,
      tableCells_eq, List.map_map]
    refine range_map_eq (size.trans (length.symm.trans same)) fun i inside => ?_
    have cell : t.getSubtable col i = c.cells[i]?.join := by
      rw [getSubtable, here]
      rfl
    rw [cell, List.getElem?_eq_getElem inside]
    rfl
  next other =>
    have none (row : Nat) : t.getSubtable col row = none := by
      rw [getSubtable]
      split
      next c here => exact absurd here (other c)
      next => rfl
    simp only [none, Option.map_none, List.map_const', List.length_range]

theorem Erased.readColumn_tables (erased : Erased row t t') (h : s.Holds (t.holds b x * R))
    (h' : s'.Holds (t'.holds b (x.remove row) * R')) (small : b < Slot.countBound) (col : Nat) :
    t'.readColumn s'.memory .table col = (t.readColumn s.memory .table col).eraseIdx row := by
  rw [Table.readColumn_tables h small, Table.readColumn_tables h' small]
  have none : List.replicate t'.size (.ok (.table none) : Except Error Cell) =
      (List.replicate t.size (.ok (.table none))).eraseIdx row := by
    rw [erased.size, List.eraseIdx_replicate, if_pos erased.inside]
  rcases erased.column col with ⟨here, there⟩ | ⟨c, c', here, there, column⟩
  · rw [here, there]
    exact none
  · rw [here, there]
    cases column with
    | table =>
        dsimp only
        rw [Sheet.remove, List.getElem?_map, List.eraseIdx_map, ← cellsShow_eraseIdx]
        cases x.columns[col]? with
        | none => rfl
        | some y => cases y <;> rfl
    | _ => exact none

/-! ### All kinds -/

/-- How cells of a kind are read. -/
inductive ReadsBy (kind : Kind) : Prop where
  | values {C α : Type} [ColumnType C] [LawfulColumnType C] {get : Memory → C → Nat → α}
      {f : α → Cell} (reads : ReadsAs kind get f) : ReadsBy kind
  | tables (same : kind = .table) : ReadsBy kind

theorem readsBy (kind : Kind) : ReadsBy kind := by
  cases kind with
  | int | bool | dateTime => exact .values (.int fun _ _ _ _ => rfl)
  | float => exact .values .single
  | double => exact .values .double
  | string | stringEnum => exact .values (.text fun _ _ _ _ => rfl)
  | binary => exact .values .bytes
  | link => exact .values .link
  | linkList => exact .values .linkList
  | table => exact .tables rfl

/-- A table reads the same wherever its sheet is held. -/
theorem readColumn_congr (h : s.Holds (t.holds b x * R)) (h' : s'.Holds (t.holds b x * R'))
    (small : b < Slot.countBound) (kind : Kind) (col : Nat) :
    t.readColumn s'.memory kind col = t.readColumn s.memory kind col := by
  cases readsBy kind with
  | values reads => rw [readColumn_of_holds reads h small, readColumn_of_holds reads h' small]
  | tables same =>
      subst same
      rw [readColumn_tables h small, readColumn_tables h' small]

/-- Without one row every column reads as before, and that row is left out. -/
theorem remove_readColumn (h : s.Holds (t.holds b x * R)) (small : b < Slot.countBound)
    (run : remove row (t, s) = (.ok (), (t', s'))) (kind : Kind) (col : Nat) :
    t'.readColumn s'.memory kind col = (t.readColumn s.memory kind col).eraseIdx row := by
  have erased := remove_erased run
  have h' := remove_holds h small run
  cases readsBy kind with
  | values reads => exact erased.readColumn reads h h' small col
  | tables same =>
      subst same
      exact erased.readColumn_tables h h' small col

end Table

end ColumnStore
