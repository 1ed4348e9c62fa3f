import ColumnStore.Proofs.TableRows
import ColumnStore.Table.Cells

set_option autoImplicit false

/-!
Edits of cells. One column is edited, and all others are left as they are.
-/
namespace ColumnStore

open Assertion (each)
open Table (columnHolds columnIn cellHolds columnIn_mul)

/-! ### Sheets -/

namespace Values

variable {T : Type}

def setInt (row : Nat) (v : Int64) : Values T → Values T
  | int vs => int (vs.set row v)
  | y => y

def setSingle (row : Nat) (v : Single) : Values T → Values T
  | single vs => single (vs.set row v)
  | y => y

def setDouble (row : Nat) (v : Double) : Values T → Values T
  | double vs => double (vs.set row v)
  | y => y

def setText (row : Nat) (v : String) : Values T → Values T
  | text vs => text (vs.set row v)
  | y => y

def setBytes (row : Nat) (v : ByteArray) : Values T → Values T
  | bytes vs => bytes (vs.set row v)
  | y => y

def setLink (row : Nat) (word : Int64) : Values T → Values T
  | link words => link (words.set row word)
  | y => y

def addLink (row : Nat) (word : Int64) : Values T → Values T
  | linkList lists => linkList (lists.modify row (· ++ [word]))
  | y => y

def adjust (d : Int64) : Values T → Values T
  | int vs => int (vs.map (· + d))
  | y => y

/-- A cell without a table gets an empty one first. -/
def editTable (row : Nat) (f : Sheet → Sheet) : Values Sheet → Values Sheet
  | table schema cells =>
      table schema (cells.modify row fun x => some (f (x.getD (.ofSchema schema))))
  | y => y

end Values

def Sheet.edit (col : Nat) (f : Values Sheet → Values Sheet) (x : Sheet) : Sheet :=
  { x with columns := x.columns.modify col f }

/-! ### Columns of a type -/

/-- A column that is of a type is nothing but that. -/
class LawfulColumnType (C : Type) [ColumnType C] : Prop where
  toColumn_eq {c : Column Table} {c' : C} : ColumnType.ofColumn? c = some c' →
    ColumnType.toColumn c' = c

instance : LawfulColumnType IntColumn := ⟨fun {c _} here => by cases c <;> cases here; rfl⟩

instance : LawfulColumnType (ScalarColumn Single) :=
  ⟨fun {c _} here => by cases c <;> cases here; rfl⟩

instance : LawfulColumnType (ScalarColumn Double) :=
  ⟨fun {c _} here => by cases c <;> cases here; rfl⟩

instance : LawfulColumnType TextColumn := ⟨fun {c _} here => by cases c <;> cases here; rfl⟩

instance : LawfulColumnType BytesColumn := ⟨fun {c _} here => by cases c <;> cases here; rfl⟩

instance : LawfulColumnType LinkColumn := ⟨fun {c _} here => by cases c <;> cases here; rfl⟩

instance : LawfulColumnType LinkListColumn := ⟨fun {c _} here => by cases c <;> cases here; rfl⟩

instance : LawfulColumnType (SubtableColumn Table) :=
  ⟨fun {c _} here => by cases c <;> cases here; rfl⟩

theorem modify_eq {α : Type} {l : List α} {i : Nat} {a : α} {f : α → α} (here : l[i]? = some a) :
    l.modify i f = l.set i (f a) := by
  obtain ⟨inside, rfl⟩ := List.getElem?_eq_some_iff.mp here
  rw [List.modify_eq_take_cons_drop inside, List.set_eq_take_append_cons_drop, if_pos inside]

namespace Table

variable {α C : Type} [ColumnType C] [LawfulColumnType C] {s s' : Store} {R : Assertion}
  {t t' : Table} {x : Sheet} {b b' col row : Nat} {e : Edit C α} {a : α}
  {f : Values Sheet → Values Sheet}

theorem columnOf_ok {c : C} (found : t.columnOf C col = .ok c) :
    t.columns[col]? = some (ColumnType.toColumn c) := by
  cases here : t.columns[col]? with
  | none =>
      rw [columnOf, column, here] at found
      cases found
  | some c₀ =>
      have there : t.column col = .ok c₀ := by
        rw [column, here]
        rfl
      cases kind : (ColumnType.ofColumn? c₀ : Option C) with
      | none =>
          simp only [columnOf, there, bind, Except.bind, kind] at found
          cases found
      | some c₁ =>
          simp only [columnOf, there, bind, Except.bind, kind] at found
          cases found
          rw [LawfulColumnType.toColumn_eq kind]

omit [LawfulColumnType C] in
theorem columnOf_of_column {c : Column Table} {c' : C} (found : t.column col = .ok c)
    (type : ColumnType.ofColumn? c = some c') : t.columnOf C col = .ok c' := by
  simp only [columnOf, found, bind, Except.bind, type]
  rfl

omit [LawfulColumnType C] in
theorem cell_eq {c : C} {get : C → Nat → α} (found : t.columnOf C col = .ok c)
    (inside : row < t.size) : t.cell C get col row = .ok (get c row) := by
  rw [cell, checkRow, if_pos inside, found]
  rfl

/-- An edit of a column that holds `y`, after which there are as many values. -/
def EditsValues (b b' : Nat) (y : Values Sheet) (e : Edit C α) (a : α)
    (f : Values Sheet → Values Sheet) : Prop :=
  ∀ {c c' s s' R}, s.Holds (columnHolds b (ColumnType.toColumn c) y * R) →
    e (c, s) = (.ok a, (c', s')) →
      (f y).length = y.length ∧ s'.Holds (columnHolds b' (ColumnType.toColumn c') (f y) * R)

theorem editColumnOf_holds (h : s.Holds (t.holds b x * R)) (le : b ≤ b')
    (edits : ∀ y, x.columns[col]? = some y → y.length = x.size → EditsValues b b' y e a f)
    (run : editColumnOf col e (t, s) = (.ok a, (t', s'))) :
    s'.Holds (t'.holds b' (x.edit col f) * R) := by
  obtain ⟨⟨fits, size, most⟩, held⟩ := holds_mul.mp h
  rw [editColumnOf, Edit.self_bind] at run
  obtain ⟨c, found, run⟩ := Edit.except_bind_ok.mp run
  obtain ⟨c', ran, same⟩ := Edit.inside_ok.mp run
  simp only at ran same
  subst same
  have here := columnOf_ok found
  obtain ⟨inside, -⟩ := List.getElem?_eq_some_iff.mp here
  obtain ⟨y, there, held⟩ := (Assertion.each_apart here).mp held
  obtain ⟨within, -⟩ := List.getElem?_eq_some_iff.mp there
  obtain ⟨length, held⟩ := columnIn_mul.mp held
  obtain ⟨kept, held⟩ := edits y there length held ran
  have others := Assertion.each_mono (A := columnIn b x.size) (columnIn_mono le)
    (t.columns.eraseIdx col) (x.columns.eraseIdx col)
  refine holds_mul.mpr ⟨⟨fits, size, most.trans le⟩, ?_⟩
  rw [Sheet.edit, modify_eq there]
  refine Assertion.each_set ?_ inside within
  exact columnIn_mul.mpr ⟨kept.trans length, held.mono (.mul (.refl _) (.mul others (.refl _)))⟩

theorem editCell_holds (h : s.Holds (t.holds b x * R)) (le : b ≤ b')
    (edits : row < x.size → ∀ y, x.columns[col]? = some y → y.length = x.size →
      EditsValues b b' y e a f)
    (run : editCell col row e (t, s) = (.ok a, (t', s'))) :
    s'.Holds (t'.holds b' (x.edit col f) * R) := by
  obtain ⟨⟨-, size, -⟩, -⟩ := holds_mul.mp h
  rw [editCell, Edit.self_bind] at run
  obtain ⟨_, checked, run⟩ := Edit.except_bind_ok.mp run
  exact editColumnOf_holds h le (edits (size ▸ checkRow_ok checked)) run

end Table

/-! ### Edits of one column -/

namespace Table

variable {C : Type} [ColumnType C] {s s' : Store} {R : Assertion} {b row : Nat} {y : Values Sheet}
  {f : Values Sheet → Values Sheet}

/-- An edit of the tree that has a value for each row. -/
theorem edits_tree {L V : Type} [Leaf L V] [ListLeaf L] {make : List V → Values Sheet}
    {g : List V → List V} {e : Edit C Unit} (tree : C → Tree L)
    (column : ∀ c, columnHolds b (ColumnType.toColumn c) = Assertion.made make (tree c).growing)
    (length : ∀ vs, (make vs).length = vs.length) (same : ∀ vs, (g vs).length = vs.length)
    (values : ∀ vs, f (make vs) = make (g vs))
    (edits : ∀ {c c' vs s s' R}, vs.length = y.length → s.Holds ((tree c).growing vs * R) →
      e (c, s) = (.ok (), (c', s')) → s'.Holds ((tree c').growing (g vs) * R)) :
    EditsValues b b y e () f := by
  intro c c' s s' R h run
  rw [column] at h ⊢
  obtain ⟨vs, rfl, held⟩ := Assertion.made_mul.mp h
  refine ⟨?_, Assertion.made_mul.mpr ⟨g vs, values vs, edits (length vs).symm held run⟩⟩
  rw [values, length, length, same]

theorem edits_set {L V : Type} [Leaf L V] [EditableLeaf L] {make : List V → Values Sheet} {v : V}
    {e : Edit C Unit} (tree : C → Tree L)
    (column : ∀ c, columnHolds b (ColumnType.toColumn c) = Assertion.made make (tree c).growing)
    (length : ∀ vs, (make vs).length = vs.length)
    (values : ∀ vs, f (make vs) = make (vs.set row v))
    (sets : ∀ {c c' s s'}, e (c, s) = (.ok (), (c', s')) →
      Tree.set row v (tree c, s) = (.ok (), (tree c', s')))
    (inside : row < y.length) (small : y.length < Slot.countBound) : EditsValues b b y e () f :=
  edits_tree tree column length (fun _ => List.length_set) values fun rowed h run =>
    Tree.set_growing h (rowed ▸ inside) (rowed ▸ small) (sets run)

theorem edits_adjust {d : Int64} :
    EditsValues (C := IntColumn) b b y (IntColumn.adjustAll d) () (.adjust d) := by
  refine edits_tree id (fun _ => rfl) (fun _ => rfl) (fun _ => List.length_map _) (fun _ => rfl)
    fun _ h run => ?_
  obtain ⟨fits, h⟩ := Tree.growing_mul.mp h
  obtain ⟨kept, h⟩ := IntColumn.adjustAll_holds h run
  exact Tree.growing_mul.mpr ⟨by rwa [Tree.Fits, id, kept], h⟩

/-- One operation may add one key. -/
theorem edits_text (op : TextColumn.Op) (values : ∀ vs, f (.text vs) = .text (op.onList vs))
    (same : ∀ vs, (op.onList vs).length = vs.length)
    (inRange : ∀ vs, vs.length = y.length → op.InRange vs) (most : y.length ≤ b)
    (small : b + 1 < Slot.countBound) : EditsValues b (b + 1) y op.run () f := by
  intro c c' s s' R h run
  obtain ⟨vs, keys, rfl, few, held⟩ := text_mul.mp h
  have short : vs.length + 1 < Slot.countBound := Nat.lt_of_le_of_lt (Nat.succ_le_succ most) small
  obtain ⟨keys', more, held⟩ := TextColumn.Op.run_ok held (by omega) short (inRange vs rfl) run
  rw [values]
  exact ⟨same vs, text_mul.mpr ⟨_, keys', rfl, more.trans (Nat.succ_le_succ few), held⟩⟩

theorem edits_optimize {maxNodeSize : Nat} {r : Bool} (most : y.length ≤ b)
    (small : b < Slot.countBound) (room : 0 < maxNodeSize) (max : maxNodeSize < 2 ^ 24 - 2) :
    EditsValues b b y (TextColumn.optimize maxNodeSize) r id := by
  intro c c' s s' R h run
  obtain ⟨vs, keys, rfl, few, held⟩ := text_mul.mp h
  obtain ⟨keys', few', held⟩ := TextColumn.optimize_holds held (Nat.lt_of_le_of_lt most small) few
    most room max run
  exact ⟨rfl, text_mul.mpr ⟨vs, keys', rfl, few', held⟩⟩

theorem edits_addLink {target : Nat} (inside : row < y.length) (small : y.length < Slot.countBound)
    (short : ∀ lists, y = .linkList lists → ∀ words ∈ lists[row]?, words.length + 1 < 2 ^ 24) :
    EditsValues b b y (LinkListColumn.addLink row target) ()
      (.addLink row (Link.toWord target)) := by
  intro c c' s s' R h run
  obtain ⟨lists, rfl, held⟩ := Assertion.made_mul.mp h
  have here := List.getElem?_eq_getElem (l := lists) inside
  have h := LinkListColumn.addLink_holds held inside small (short lists rfl lists[row] here) run
  rw [Values.addLink, modify_eq here]
  exact ⟨List.length_set, Assertion.made_mul.mpr ⟨_, rfl, h⟩⟩

/-! ### Indexes and enumeration -/

section

variable {t t' : Table} {x : Sheet} {col : Nat}

theorem edit_id (x : Sheet) (col : Nat) : x.edit col id = x := by
  cases x
  rw [Sheet.edit, List.modify_id]

theorem addIndex_holds (h : s.Holds (t.holds b x * R)) (small : b + 1 < Slot.countBound)
    (run : addIndex col (t, s) = (.ok (), (t', s'))) : s'.Holds (t'.holds (b + 1) x * R) := by
  obtain ⟨⟨-, -, most⟩, -⟩ := holds_mul.mp h
  rw [addIndex, Edit.self_bind] at run
  obtain ⟨c, -, run⟩ := Edit.except_bind_ok.mp run
  cases c with
  | text c =>
      rw [← edit_id x col]
      refine editColumnOf_holds h (Nat.le_succ b) (fun y _ length => ?_) run
      exact edits_text .addIndex (fun _ => rfl) (fun _ => rfl) (fun _ _ => trivial)
        (length ▸ most) small
  | _ => exact absurd run Edit.not_throw_ok

/-- The sheet is the same whether a column was enumerated or not. -/
theorem optimize_holds {r : Bool} (h : s.Holds (t.holds b x * R)) (small : b < Slot.countBound)
    (run : optimize col (t, s) = (.ok r, (t', s'))) : s'.Holds (t'.holds b x * R) := by
  obtain ⟨⟨fits, -, most⟩, -⟩ := holds_mul.mp h
  rw [optimize, Edit.self_bind] at run
  obtain ⟨c, -, run⟩ := Edit.except_bind_ok.mp run
  cases c with
  | text c =>
      rw [← edit_id x col]
      refine editColumnOf_holds h (Nat.le_refl b) (fun y _ length => ?_) run
      exact edits_optimize (length ▸ most) small fits.1 fits.2
  | _ =>
      cases run
      exact h

end

/-! ### Tables in cells -/

/-- Any table with one sheet is edited to one with another. -/
def Edits {α : Type} (b b' : Nat) (x : Sheet) (e : Edit Table α) (a : α) (x' : Sheet) : Prop :=
  ∀ {t t' s s' R}, s.Holds (t.holds b x * R) → e (t, s) = (.ok a, (t', s')) →
    s'.Holds (t'.holds b' x' * R)

/-- The table of a cell is put back after it was edited. -/
theorem putTable_holds {α : Type} {a : α} {e : Edit Table α} {c c' : SubtableColumn Table}
    {sub : Table} {z z' : Sheet} {zs : List (Option Sheet)} {b' : Nat} (le : b ≤ b')
    (inside : row < c.cells.length) (within : row < zs.length)
    (h : s.Holds (sub.holds b z *
      (each (cellHolds b) (c.cells.eraseIdx row) (zs.eraseIdx row) * R)))
    (edits : Edits b b' z e a z')
    (run : Edit.inside (fun sub => c.set row (some sub)) sub e (c, s) = (.ok a, (c', s'))) :
    s'.Holds (columnHolds b' (.table c') (.table c.schema (zs.set row (some z'))) * R) := by
  obtain ⟨sub', ran, same⟩ := Edit.inside_ok.mp run
  simp only at ran same
  subst same
  have held := edits h ran
  have others := Assertion.each_mono (cellHolds_mono le) (c.cells.eraseIdx row) (zs.eraseIdx row)
  refine table_mul.mpr ⟨_, rfl, Assertion.each_set ?_ inside within⟩
  rw [cellHolds, Assertion.made_mul]
  exact ⟨_, rfl, held.mono (.mul (.refl _) (.mul others (.refl _)))⟩

/-- A cell without a table gets one as the schema of its column says. -/
theorem editSubtable_holds {α : Type} {a : α} {e : Edit Table α} {g : Sheet → Sheet} {t t' : Table}
    {x : Sheet} {b' col : Nat} (h : s.Holds (t.holds b x * R)) (le : b ≤ b')
    (edits : ∀ schema zs z, x.columns[col]? = some (.table schema zs) → zs[row]? = some z →
      Edits b b' (z.getD (.ofSchema schema)) e a (g (z.getD (.ofSchema schema))))
    (run : editSubtable col row e (t, s) = (.ok a, (t', s'))) :
    s'.Holds (t'.holds b' (x.edit col (.editTable row g)) * R) := by
  obtain ⟨⟨fits, -⟩, -⟩ := holds_mul.mp h
  rw [editSubtable, Edit.self_bind] at run
  refine editCell_holds h le (fun inside y there length => ?_) run
  intro c c' s s' R h run
  obtain ⟨zs, rfl, held⟩ := table_mul.mp h
  have same : zs.length = c.cells.length := Assertion.length_each held
  have within : row < zs.length := Nat.lt_of_lt_of_eq inside length.symm
  have within' : row < c.cells.length := same ▸ within
  have here := List.getElem?_eq_getElem within'
  obtain ⟨z, found, held⟩ := (Assertion.each_apart here).mp held
  rw [Values.editTable, modify_eq found]
  refine ⟨List.length_set, ?_⟩
  simp only [Edit.self_bind, SubtableColumn.get, here, Option.join_some] at run
  have edits : Edits b b' (z.getD (.ofSchema c.schema)) e a (g (z.getD (.ofSchema c.schema))) :=
    edits _ zs z there found
  cases cell : c.cells[row] with
  | none =>
      rw [cell, cellHolds, Store.holds_fact_mul] at held
      rw [cell] at run
      obtain ⟨rfl, held⟩ := held
      obtain ⟨sub, s₁, made, run⟩ := Edit.lift_bind_ok.mp run
      have held := (ofSchema_holds held fits.2 made).imp_left (holds_mono (Nat.zero_le b) _ _)
      exact putTable_holds le within' within held edits run
  | some sub =>
      rw [cell, cellHolds, Assertion.made_mul] at held
      rw [cell] at run
      obtain ⟨x, rfl, held⟩ := held
      exact putTable_holds le within' within held edits run

end Table

end ColumnStore
