import ColumnStore.Proofs.TableRun
import ColumnStore.Table.Cell

set_option autoImplicit false

/-!
What is read from a table depends on its sheet alone, and not on where its nodes are.
-/
namespace ColumnStore

open Assertion (each)

/-! ### Columns of links -/

/-- The row that a word of a column of links stands for, if any. -/
def LinkColumn.decode (v : Int64) : Option Nat := if v = 0 then none else some (v.toUInt64.toNat - 1)

theorem LinkListColumn.get_of_holds {c : LinkListColumn} {lists : List (List Int64)} {s : Store}
    {R : Assertion} {row : Nat} (h : s.Holds (c.holds lists * R)) (inside : row < lists.length)
    (small : lists.length < Slot.countBound) :
    c.get s.memory row = lists[row].map Link.ofWord := by
  obtain ⟨vs, h⟩ := holds_mul.mp h
  obtain ⟨v, -, slot, h⟩ := opened h inside small
  rcases list?_cases h slot with ⟨absent, -, empty, -⟩ | ⟨n, found, -, -, h⟩
  · rw [LinkListColumn.get, absent, empty]
    rfl
  · rw [LinkListColumn.get, found, ← (Node.packed_of_holds h).list]

theorem LinkListColumn.size_of_holds {c : LinkListColumn} {lists : List (List Int64)} {s : Store}
    {R : Assertion} (h : s.Holds (c.holds lists * R)) (small : lists.length < Slot.countBound) :
    c.size s.memory = lists.length := by
  obtain ⟨vs, h⟩ := holds_mul.mp h
  obtain ⟨⟨-, same⟩, h⟩ := slots_mul.mp h
  obtain ⟨_, here⟩ := h.reads
  rw [LinkListColumn.size, Tree.size_of_holds here (same ▸ small), same]

theorem range_map_eq {α β : Type} {n : Nat} {f : Nat → β} {g : α → β} {vs : List α}
    (length : n = vs.length) (each : ∀ (i : Nat) (inside : i < vs.length), f i = g vs[i]) :
    (List.range n).map f = vs.map g := by
  apply List.ext_getElem
  · simp [length]
  · intro i _ inside
    simp [each i (by simpa using inside)]

/-! ### Tables -/

/-- Cells of a column, except tables. -/
def Values.cells {T : Type} (kind : Kind) : Values T → List Cell
  | int vs => vs.map (Table.intCell kind)
  | single vs => vs.map .single
  | double vs => vs.map .double
  | text vs => vs.map .text
  | bytes vs => vs.map .bytes
  | link words => words.map (.link ∘ LinkColumn.decode)
  | linkList lists => lists.map (.links ∘ List.map Link.ofWord)
  | table .. => []

def Values.tables {T : Type} : Values T → List (Option T)
  | table _ cells => cells
  | _ => []

namespace Table

mutual

/-- The cells of a table that holds a sheet. Kinds and columns of the tables inside are their own. -/
def shows (t : Table) (x : Sheet) : List (List Cell) :=
  match t with
  | ⟨_, schema, columns, _⟩ => columnsShow (schema.map ColumnSpec.kind) columns x.columns

def columnsShow (kinds : List Kind) : List (Column Table) → List (Values Sheet) → List (List Cell)
  | c :: cs, y :: ys => columnShows (kinds.headD .int) c y :: columnsShow kinds.tail cs ys
  | _, _ => []

def columnShows (kind : Kind) : Column Table → Values Sheet → List Cell
  | .table ⟨_, tables⟩, y => cellsShow tables y.tables
  | .int _, y | .single _, y | .double _, y | .text _, y | .bytes _, y | .link _, y
  | .linkList _, y => y.cells kind

def cellsShow : List (Option Table) → List (Option Sheet) → List Cell
  | none :: cells, _ :: xs => .table none :: cellsShow cells xs
  | some t :: cells, x :: xs => .table (x.map (shows t)) :: cellsShow cells xs
  | _, _ => []

end

variable {b : Nat}

mutual

theorem content_of_holds (t : Table) {x : Sheet} {s : Store} {R : Assertion}
    (h : s.Holds (t.holds b x * R)) (small : b < Slot.countBound) :
    t.content s.memory = t.shows x := by
  match t with
  | ⟨settings, schema, columns, rows⟩ =>
      obtain ⟨⟨-, same, most⟩, held⟩ := holds_mul.mp h
      rw [content, shows, show rows = x.size from same]
      exact contentOf_of_holds columns _ held (Nat.lt_of_le_of_lt most small) small

theorem contentOf_of_holds (cs : List (Column Table)) (kinds : List Kind) {ys : List (Values Sheet)}
    {rows : Nat} {s : Store} {R : Assertion} (h : s.Holds (each (columnIn b rows) cs ys * R))
    (few : rows < Slot.countBound) (small : b < Slot.countBound) :
    (contentOf s.memory kinds cs).map (List.take rows) = columnsShow kinds cs ys := by
  match cs with
  | [] =>
      obtain ⟨rfl, -⟩ := Assertion.each_nil.mp h
      rfl
  | c :: cs =>
      obtain ⟨y, ys, rfl, held⟩ := Assertion.each_cons.mp h
      obtain ⟨length, first⟩ := columnIn_mul.mp held
      obtain ⟨here, shown⟩ := cells_of_holds c (kinds.headD .int) first (length ▸ few) small
      rw [mul_left_comm] at held
      rw [contentOf, List.map_cons, columnsShow, here, contentOf_of_holds cs _ held few small,
        List.take_of_length_le (Nat.le_of_eq (shown.trans length))]

theorem cells_of_holds (c : Column Table) (kind : Kind) {y : Values Sheet} {s : Store}
    {R : Assertion} (h : s.Holds (columnHolds b c y * R)) (few : y.length < Slot.countBound)
    (small : b < Slot.countBound) :
    cells s.memory kind c = columnShows kind c y ∧ (columnShows kind c y).length = y.length := by
  match c with
  | .int c | .single c | .double c | .bytes c =>
      obtain ⟨vs, rfl, held⟩ := Assertion.made_mul.mp h
      obtain ⟨_, here⟩ := (Tree.growing_mul.mp held).2.reads
      rw [cells, Tree.toList_of_holds here few, columnShows]
      exact ⟨rfl, List.length_map _⟩
  | .text c =>
      obtain ⟨vs, keys, rfl, many, held⟩ := text_mul.mp h
      obtain ⟨_, here⟩ := held.reads
      have many := Nat.lt_of_le_of_lt many small
      rw [cells, columnShows]
      refine ⟨range_map_eq (TextColumn.size_of_holds here few) fun i inside => ?_,
        List.length_map _⟩
      exact congrArg Cell.text (TextColumn.get_of_holds here many few inside)
  | .link c =>
      obtain ⟨words, rfl, held⟩ := Assertion.made_mul.mp h
      obtain ⟨_, here⟩ := (Tree.growing_mul.mp held).2.reads
      rw [cells, columnShows]
      refine ⟨range_map_eq (Tree.size_of_holds here few) fun i inside => ?_, List.length_map _⟩
      have word := Tree.get_of_holds here few inside
      rw [Function.comp, LinkColumn.get, word]
      rfl
  | .linkList c =>
      obtain ⟨lists, rfl, held⟩ := Assertion.made_mul.mp h
      rw [cells, columnShows]
      refine ⟨range_map_eq (LinkListColumn.size_of_holds held few) fun i inside => ?_,
        List.length_map _⟩
      exact congrArg Cell.links (LinkListColumn.get_of_holds held inside few)
  | .table ⟨_, tables⟩ =>
      obtain ⟨xs, rfl, held⟩ := table_mul.mp h
      rw [cells, columnShows]
      exact tableCells_of_holds tables held small

theorem tableCells_of_holds (tables : List (Option Table)) {xs : List (Option Sheet)} {s : Store}
    {R : Assertion} (h : s.Holds (each (cellHolds b) tables xs * R)) (small : b < Slot.countBound) :
    tableCells s.memory tables = cellsShow tables xs ∧ (cellsShow tables xs).length = xs.length := by
  match tables with
  | [] =>
      obtain ⟨rfl, -⟩ := Assertion.each_nil.mp h
      exact ⟨rfl, rfl⟩
  | none :: tables =>
      obtain ⟨x, xs, rfl, held⟩ := Assertion.each_cons.mp h
      obtain ⟨rest, length⟩ := tableCells_of_holds tables held.right small
      rw [tableCells, cellsShow, rest]
      exact ⟨rfl, congrArg Nat.succ length⟩
  | some t :: tables =>
      obtain ⟨x, xs, rfl, held⟩ := Assertion.each_cons.mp h
      obtain ⟨rest, length⟩ := tableCells_of_holds tables held.right small
      rw [cellHolds, Assertion.made_mul] at held
      obtain ⟨x, rfl, first⟩ := held
      rw [tableCells, cellsShow, rest, content_of_holds t first small]
      exact ⟨rfl, congrArg Nat.succ length⟩

end

/-- Every column has a value for each row of the table. -/
theorem column_size_of_holds {t : Table} {x : Sheet} {s : Store} {R : Assertion} {c : Column Table}
    (h : s.Holds (t.holds b x * R)) (small : b < Slot.countBound) (here : c ∈ t.columns) :
    c.size s.memory = t.size := by
  obtain ⟨col, here⟩ := List.getElem?_of_mem here
  obtain ⟨⟨-, size, most⟩, held⟩ := holds_mul.mp h
  obtain ⟨y, -, held⟩ := (Assertion.each_apart here).mp held
  obtain ⟨length, held⟩ := columnIn_mul.mp held
  have few : y.length < Slot.countBound := Nat.lt_of_le_of_lt (length.trans_le most) small
  rw [size, ← length]
  cases c with
  | int c | single c | double c | bytes c | link c =>
      obtain ⟨vs, rfl, mine⟩ := Assertion.made_mul.mp held
      obtain ⟨_, here⟩ := (Tree.growing_mul.mp mine).2.reads
      exact Tree.size_of_holds here few
  | text c =>
      obtain ⟨vs, keys, rfl, -, mine⟩ := text_mul.mp held
      obtain ⟨_, here⟩ := mine.reads
      exact TextColumn.size_of_holds here few
  | linkList c =>
      obtain ⟨lists, rfl, mine⟩ := Assertion.made_mul.mp held
      exact LinkListColumn.size_of_holds mine few
  | table c =>
      obtain ⟨xs, rfl, mine⟩ := table_mul.mp held
      exact (Assertion.length_each mine).symm

end Table

end ColumnStore
