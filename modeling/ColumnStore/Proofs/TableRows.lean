import ColumnStore.Proofs.Sheet
import ColumnStore.Table.Rows

set_option autoImplicit false

/-!
Edits of rows. Each is made in one column after the other, and then the table has the rows that
every column has.
-/
namespace ColumnStore

open Assertion (each)
open Table (columnHolds columnIn cellHolds columnIn_mul)

variable {s s' : Store} {R : Assertion} {b rows row : Nat} {y : Values Sheet}



/-! ### Steps that may fail -/

theorem Edit.except_bind_ok {σ α β : Type} {x : Except Error α} {f : α → Edit σ β}
    {p p' : σ × Store} {y : β} :
    ((liftM x : Edit σ α) >>= f) p = (.ok y, p') ↔ ∃ a, x = .ok a ∧ f a p = (.ok y, p') := by
  cases x with
  | error err =>
      constructor
      · intro run
        cases run
      · rintro ⟨a, failed, -⟩
        cases failed
  | ok a =>
      have here : ((liftM (.ok a : Except Error α) : Edit σ α) >>= f) p = f a p :=
        Edit.bind_apply ..
      rw [here]
      exact ⟨fun run => ⟨a, rfl, run⟩, fun ⟨_, same, run⟩ => by cases same; exact run⟩

/-! ### Columns -/

namespace Column

variable {c c' : Column Table}

theorem create_holds {settings : StoreSettings} {spec : ColumnSpec} (h : s.Holds R)
    (room : 0 < settings.maxNodeSize) (max : settings.maxNodeSize < 2 ^ 24 - 2)
    (run : create settings spec s = (.ok c, s')) :
    s'.Holds (columnIn b 0 c (.ofSpec spec) * R) := by
  refine columnIn_mul.mpr ⟨Values.length_ofSpec spec, ?_⟩
  obtain ⟨name, kind, columns⟩ := spec
  cases kind with
  | int | bool | dateTime | float | double | binary =>
      obtain ⟨t, made, rfl⟩ := StoreM.map_ok.mp run
      exact Assertion.made_mul.mpr ⟨[], rfl, Tree.create_growing h room max made⟩
  | string =>
      obtain ⟨p, made, rfl⟩ := StoreM.map_ok.mp run
      have h := PlainColumn.create_holds h room max made
      exact Table.text_mul.mpr ⟨[], [], rfl, Nat.zero_le b, h⟩
  | stringEnum =>
      obtain ⟨e, made, rfl⟩ := StoreM.map_ok.mp run
      exact Table.text_mul.mpr ⟨[], [], rfl, Nat.zero_le b, EnumColumn.create_holds h room max made⟩
  | link =>
      obtain ⟨l, created, rfl⟩ := StoreM.map_ok.mp run
      obtain ⟨t, made, rfl⟩ := StoreM.map_ok.mp created
      exact Assertion.made_mul.mpr ⟨[], rfl, Tree.create_growing h room max made⟩
  | linkList =>
      obtain ⟨l, made, rfl⟩ := StoreM.map_ok.mp run
      exact Assertion.made_mul.mpr ⟨[], rfl, LinkListColumn.create_holds h room max made⟩
  | table =>
      obtain ⟨rfl, rfl⟩ := StoreM.pure_ok.mp run
      exact Table.table_mul.mpr ⟨[], rfl, Assertion.each_nil.mpr ⟨rfl, h⟩⟩

theorem insertDefault_holds (h : s.Holds (columnIn b rows c y * R)) (inside : row ≤ rows)
    (most : rows ≤ b) (small : b + 1 < Slot.countBound)
    (run : insertDefault row (c, s) = (.ok (), (c', s'))) :
    s'.Holds (columnIn (b + 1) (rows + 1) c' (y.insertDefault row) * R) := by
  obtain ⟨rfl, held⟩ := columnIn_mul.mp h
  refine columnIn_mul.mpr ⟨Values.length_insertDefault inside, ?_⟩
  have short : y.length + 1 < Slot.countBound := Nat.lt_of_le_of_lt (Nat.succ_le_succ most) small
  rw [insertDefault, Edit.self_bind] at run
  cases c with
  | int c | single c | double c | bytes c =>
      obtain ⟨vs, rfl, mine⟩ := Assertion.made_mul.mp held
      obtain ⟨t, ran, rfl⟩ := Edit.inside_ok.mp run
      exact Assertion.made_mul.mpr ⟨_, rfl, Tree.insert_growing mine inside short ran⟩
  | text c =>
      obtain ⟨vs, keys, rfl, few, mine⟩ := Table.text_mul.mp held
      obtain ⟨t, ran, rfl⟩ := Edit.inside_ok.mp run
      obtain ⟨keys', more, mine⟩ := TextColumn.Op.run_ok mine (by omega) short
        (show (TextColumn.Op.insert (some row) "").InRange vs from inside) ran
      exact Table.text_mul.mpr ⟨_, keys', rfl, more.trans (Nat.succ_le_succ few), mine⟩
  | link c =>
      obtain ⟨vs, rfl, mine⟩ := Assertion.made_mul.mp held
      obtain ⟨l, ran, rfl⟩ := Edit.inside_ok.mp run
      exact Assertion.made_mul.mpr
        ⟨_, rfl, Tree.insert_growing mine inside short (LinkColumn.editValues_ok ran)⟩
  | linkList c =>
      obtain ⟨lists, rfl, mine⟩ := Assertion.made_mul.mp held
      obtain ⟨l, ran, rfl⟩ := Edit.inside_ok.mp run
      exact Assertion.made_mul.mpr ⟨_, rfl, LinkListColumn.insert_holds mine inside short ran⟩
  | table c =>
      obtain ⟨xs, rfl, mine⟩ := Table.table_mul.mp held
      cases run
      have same : xs.length = c.cells.length := Assertion.length_each mine
      have more := Assertion.each_mono (Table.cellHolds_mono (Nat.le_succ b)) c.cells xs
      refine Table.table_mul.mpr ⟨_, rfl, Assertion.each_insertIdx ?_ (same ▸ inside)⟩
      rw [cellHolds, Store.holds_fact_mul]
      exact ⟨rfl, mine.imp_left more⟩

theorem erase_holds (h : s.Holds (columnIn b rows c y * R)) (inside : row < rows) (most : rows ≤ b)
    (small : b < Slot.countBound) (run : erase row (c, s) = (.ok (), (c', s'))) :
    s'.Holds (columnIn b (rows - 1) c' (y.erase row) * R) := by
  obtain ⟨rfl, held⟩ := columnIn_mul.mp h
  refine columnIn_mul.mpr ⟨Values.length_erase inside, ?_⟩
  have short : y.length < Slot.countBound := Nat.lt_of_le_of_lt most small
  rw [erase, Edit.self_bind] at run
  cases c with
  | int c | single c | double c | bytes c =>
      obtain ⟨vs, rfl, mine⟩ := Assertion.made_mul.mp held
      obtain ⟨t, ran, rfl⟩ := Edit.inside_ok.mp run
      exact Assertion.made_mul.mpr ⟨_, rfl, Tree.erase_growing mine inside short ran⟩
  | text c =>
      obtain ⟨vs, keys, rfl, few, mine⟩ := Table.text_mul.mp held
      obtain ⟨t, ran, rfl⟩ := Edit.inside_ok.mp run
      have many := Nat.lt_of_le_of_lt few small
      have mine := TextColumn.erase_holds mine many short (by exact inside) ran
      exact Table.text_mul.mpr ⟨_, keys, rfl, few, mine⟩
  | link c =>
      obtain ⟨vs, rfl, mine⟩ := Assertion.made_mul.mp held
      obtain ⟨l, ran, rfl⟩ := Edit.inside_ok.mp run
      exact Assertion.made_mul.mpr
        ⟨_, rfl, Tree.erase_growing mine inside short (LinkColumn.editValues_ok ran)⟩
  | linkList c =>
      obtain ⟨lists, rfl, mine⟩ := Assertion.made_mul.mp held
      obtain ⟨l, ran, rfl⟩ := Edit.inside_ok.mp run
      exact Assertion.made_mul.mpr ⟨_, rfl, LinkListColumn.erase_holds mine inside short ran⟩
  | table c =>
      obtain ⟨xs, rfl, mine⟩ := Table.table_mul.mp held
      obtain ⟨c', ran, rfl⟩ := Edit.inside_ok.mp run
      rw [SubtableColumn.erase, Edit.self_bind, Edit.put_bind] at ran
      have same : xs.length = c.cells.length := Assertion.length_each mine
      have here := List.getElem?_eq_getElem (l := c.cells) (i := row) (same ▸ inside)
      obtain ⟨x, -, mine⟩ := (Assertion.each_apart here).mp mine
      rw [SubtableColumn.get, here, Option.join_some] at ran
      cases cell : c.cells[row] with
      | none =>
          rw [cell] at ran mine
          cases ran
          rw [cellHolds, Store.holds_fact_mul] at mine
          exact Table.table_mul.mpr ⟨_, rfl, mine.2⟩
      | some t =>
          rw [cell] at ran mine
          rw [cellHolds, Assertion.made_mul] at mine
          obtain ⟨_, -, mine⟩ := mine
          obtain ⟨same, freed⟩ := Edit.lift_ok.mp ran
          cases same
          have rest := Table.destroy_holds t mine freed
          exact Table.table_mul.mpr ⟨_, rfl, rest⟩

theorem clear_holds (h : s.Holds (columnIn b rows c y * R)) (small : b + 1 < Slot.countBound)
    (most : rows ≤ b) (run : clear (c, s) = (.ok (), (c', s'))) :
    s'.Holds (columnIn (b + 1) 0 c' y.clear * R) := by
  obtain ⟨rfl, held⟩ := columnIn_mul.mp h
  refine columnIn_mul.mpr ⟨Values.length_clear y, ?_⟩
  rw [clear, Edit.self_bind] at run
  cases c with
  | int c | single c | double c | bytes c =>
      obtain ⟨vs, rfl, mine⟩ := Assertion.made_mul.mp held
      obtain ⟨t, ran, rfl⟩ := Edit.inside_ok.mp run
      exact Assertion.made_mul.mpr ⟨_, rfl, Tree.clear_growing mine ran⟩
  | text c =>
      obtain ⟨vs, keys, rfl, few, mine⟩ := Table.text_mul.mp held
      obtain ⟨t, ran, rfl⟩ := Edit.inside_ok.mp run
      obtain ⟨keys', more, mine⟩ := TextColumn.Op.run_ok mine (by omega)
        (Nat.lt_of_le_of_lt (Nat.succ_le_succ most) small)
        (show TextColumn.Op.clear.InRange vs from trivial) ran
      exact Table.text_mul.mpr ⟨_, keys', rfl, more.trans (Nat.succ_le_succ few), mine⟩
  | link c =>
      obtain ⟨vs, rfl, mine⟩ := Assertion.made_mul.mp held
      obtain ⟨l, ran, rfl⟩ := Edit.inside_ok.mp run
      exact Assertion.made_mul.mpr
        ⟨_, rfl, Tree.clear_growing mine (LinkColumn.editValues_ok ran)⟩
  | linkList c =>
      obtain ⟨lists, rfl, mine⟩ := Assertion.made_mul.mp held
      obtain ⟨l, ran, rfl⟩ := Edit.inside_ok.mp run
      exact Assertion.made_mul.mpr ⟨_, rfl, LinkListColumn.clear_holds mine ran⟩
  | table c =>
      obtain ⟨xs, rfl, mine⟩ := Table.table_mul.mp held
      obtain ⟨c', ran, rfl⟩ := Edit.inside_ok.mp run
      rw [SubtableColumn.clear, Edit.self_bind, Edit.put_bind] at ran
      obtain ⟨same, freed⟩ := Edit.lift_ok.mp ran
      cases same
      have rest := Table.destroyCells_holds c.cells mine freed
      exact Table.table_mul.mpr ⟨[], rfl, Assertion.each_nil.mpr ⟨rfl, rest⟩⟩

end Column

/-! ### Sheets -/

namespace Sheet

def insertRow (row : Nat) (x : Sheet) : Sheet :=
  { size := x.size + 1, columns := x.columns.map (Values.insertDefault row) }

def addRows : Nat → Sheet → Sheet
  | 0, x => x
  | count + 1, x => addRows count (x.insertRow x.size)

def remove (row : Nat) (x : Sheet) : Sheet :=
  { size := x.size - 1, columns := x.columns.map (Values.erase row) }

def clear (x : Sheet) : Sheet := { size := 0, columns := x.columns.map Values.clear }

end Sheet

def Values.insertDefaults {T : Type} (row : Nat) : Nat → Values T → Values T
  | 0, y => y
  | count + 1, y => insertDefaults (row + 1) count (y.insertDefault row)

/-- A column in front of no other. -/
def Sheet.addColumn (spec : ColumnSpec) (x : Sheet) : Sheet :=
  { x with columns := x.columns ++ [.insertDefaults 0 x.size (.ofSpec spec)] }

/-- No rows in columns as a schema says. -/
def Sheet.ofSchema (schema : List ColumnSpec) : Sheet :=
  schema.foldl (fun x spec => x.addColumn spec) {}

/-! ### All columns -/

namespace Table

variable {t t' : Table} {x : Sheet} {b' rows' : Nat} {e : Edit (Column Table) Unit}
  {f : Values Sheet → Values Sheet} {ys : List (Values Sheet)}

/-- Columns edited in order, each in the store that the one before left, up to one that fails. -/
inductive Edited (e : Edit (Column Table) Unit) : Except Error Unit →
    List (Column Table) → Store → List (Column Table) → Store → Prop where
  | all {s : Store} : Edited e (.ok ()) [] s [] s
  | next {r : Except Error Unit} {c c' : Column Table} {cs cs' : List (Column Table)}
      {s s₁ s' : Store} (first : e (c, s) = (.ok (), (c', s₁))) (rest : Edited e r cs s₁ cs' s') :
      Edited e r (c :: cs) s (c' :: cs') s'
  | stop {err : Error} {c c' : Column Table} {cs : List (Column Table)} {s s' : Store}
      (failed : e (c, s) = (.error err, (c', s'))) : Edited e (.error err) (c :: cs) s (c' :: cs) s'

/-- The columns from one on, with those before it edited already. -/
theorem edited_from {r : Except Error PUnit} {done rest : List (Column Table)}
    (columns : t.columns = done ++ rest)
    (run : (forIn (rest.zipIdx done.length) PUnit.unit fun c _ => do
      editColumn c.2 c.1 e
      pure (.yield PUnit.unit) : Edit Table PUnit) (t, s) = (r, (t', s'))) :
    ∃ rest', t' = { t with columns := done ++ rest' } ∧ Edited e r rest s rest' s' := by
  induction rest generalizing t done s with
  | nil =>
      cases run
      refine ⟨[], ?_, .all⟩
      cases t'
      rw [← columns]
  | cons c rest ih =>
      rw [List.zipIdx_cons, List.forIn_cons, bind_assoc, Edit.bind_apply, editColumn,
        Edit.self_bind, Edit.inside] at run
      rcases edited : e (c, s) with ⟨err | _, c', s₁⟩
      · rw [edited] at run
        cases run
        exact ⟨c' :: rest, by simp [columns], .stop edited⟩
      · have next : t.columns.set done.length c' = (done ++ [c']) ++ rest := by simp [columns]
        have place : done.length + 1 = (done ++ [c']).length := by simp
        rw [edited] at run
        simp only [pure_bind, place] at run
        obtain ⟨rest', rfl, edits⟩ := ih next run
        exact ⟨c' :: rest', by simp, .next edited edits⟩

theorem editColumns_edited {r : Except Error Unit}
    (run : editColumns e (t, s) = (r, (t', s'))) :
    ∃ cs, t' = { t with columns := cs } ∧ Edited e r t.columns s cs s' := by
  rw [editColumns, Edit.self_bind, Edit.bind_apply] at run
  have start : t.columns = [] ++ t.columns := rfl
  split at run
  next looped =>
    cases run
    exact edited_from start looped
  next looped =>
    cases run
    exact edited_from start looped

theorem Edited.holds {cs cs' : List (Column Table)}
    (step : ∀ {c c' y s s' R}, s.Holds (columnIn b rows c y * R) → e (c, s) = (.ok (), (c', s')) →
      s'.Holds (columnIn b' rows' c' (f y) * R))
    (edited : Edited e (.ok ()) cs s cs' s') (h : s.Holds (each (columnIn b rows) cs ys * R)) :
    s'.Holds (each (columnIn b' rows') cs' (ys.map f) * R) := by
  generalize ok : Except.ok () = r at edited
  induction edited generalizing ys R with
  | all =>
      obtain ⟨rfl, held⟩ := Assertion.each_nil.mp h
      exact Assertion.each_nil.mpr ⟨rfl, held⟩
  | next first rest ih =>
      obtain ⟨y, ys, rfl, held⟩ := Assertion.each_cons.mp h
      have held := step held first
      rw [mul_left_comm] at held
      have held := ih held ok
      rw [mul_left_comm] at held
      exact Assertion.each_cons.mpr ⟨f y, ys.map f, rfl, held⟩
  | stop => cases ok

theorem editColumns_holds
    (step : ∀ {c c' y s s' R}, s.Holds (columnIn b rows c y * R) → e (c, s) = (.ok (), (c', s')) →
      s'.Holds (columnIn b' rows' c' (f y) * R))
    (h : s.Holds (each (columnIn b rows) t.columns ys * R))
    (run : editColumns e (t, s) = (.ok (), (t', s'))) :
    ∃ cs, t' = { t with columns := cs } ∧
      s'.Holds (each (columnIn b' rows') cs (ys.map f) * R) := by
  obtain ⟨cs, same, edited⟩ := editColumns_edited run
  exact ⟨cs, same, edited.holds step h⟩

/-- A row of default values is in every column. -/
theorem pushRow_holds (h : s.Holds (t.holds b x * R)) (inside : row ≤ x.size)
    (small : b + 1 < Slot.countBound) (run : pushRow row (t, s) = (.ok (), (t', s'))) :
    s'.Holds (t'.holds (b + 1) (x.insertRow row) * R) := by
  obtain ⟨⟨fits, size, most⟩, held⟩ := holds_mul.mp h
  obtain ⟨_, ⟨t₁, s₁⟩, edited, run⟩ := Edit.bind_ok.mp run
  obtain ⟨cs, rfl, held⟩ := editColumns_holds
    (fun h ran => Column.insertDefault_holds h inside most small ran) held edited
  cases run
  exact holds_mul.mpr ⟨⟨fits, congrArg Nat.succ size, Nat.succ_le_succ most⟩, held⟩

theorem pushRows_holds {count : Nat} (h : s.Holds (t.holds b x * R))
    (small : b + count < Slot.countBound) (run : pushRows count (t, s) = (.ok (), (t', s'))) :
    s'.Holds (t'.holds (b + count) (x.addRows count) * R) := by
  induction count generalizing t x b s with
  | zero =>
      cases run
      exact h
  | succ count ih =>
      rw [pushRows, Edit.self_bind] at run
      obtain ⟨_, ⟨t₁, s₁⟩, first, run⟩ := Edit.bind_ok.mp run
      obtain ⟨⟨-, size, -⟩, -⟩ := holds_mul.mp h
      have h := pushRow_holds h (Nat.le_of_eq size) (by omega) first
      have h := ih h (by omega) run
      rw [Nat.add_right_comm] at h
      rwa [Sheet.addRows, ← size]

theorem addRows_holds {count first : Nat} (h : s.Holds (t.holds b x * R))
    (small : b + count < Slot.countBound) (run : addRows count (t, s) = (.ok first, (t', s'))) :
    s'.Holds (t'.holds (b + count) (x.addRows count) * R) := by
  rw [addRows, Edit.self_bind] at run
  obtain ⟨_, ⟨t₁, s₁⟩, pushed, run⟩ := Edit.bind_ok.mp run
  cases run
  exact pushRows_holds h small pushed

theorem insertRow_holds (h : s.Holds (t.holds b x * R)) (small : b + 1 < Slot.countBound)
    (run : insertRow row (t, s) = (.ok (), (t', s'))) :
    s'.Holds (t'.holds (b + 1) (x.insertRow row) * R) := by
  rw [insertRow, Edit.self_bind] at run
  obtain ⟨⟨-, size, -⟩, -⟩ := holds_mul.mp h
  by_cases outside : t.size < row
  · simp only [outside, if_true, Edit.throw_bind] at run
    cases run
  · simp only [outside, if_false] at run
    exact pushRow_holds h (by omega) small run

theorem checkRow_ok (run : t.checkRow row = .ok ()) : row < t.size := by
  rw [checkRow] at run
  split at run
  next inside => exact inside
  next => cases run

theorem remove_holds (h : s.Holds (t.holds b x * R)) (small : b < Slot.countBound)
    (run : remove row (t, s) = (.ok (), (t', s'))) :
    s'.Holds (t'.holds b (x.remove row) * R) := by
  rw [remove, Edit.self_bind] at run
  obtain ⟨_, checked, run⟩ := Edit.except_bind_ok.mp run
  obtain ⟨⟨fits, size, most⟩, held⟩ := holds_mul.mp h
  have inside : row < x.size := size ▸ checkRow_ok checked
  obtain ⟨_, ⟨t₁, s₁⟩, edited, run⟩ := Edit.bind_ok.mp run
  obtain ⟨cs, rfl, held⟩ := editColumns_holds
    (fun h ran => Column.erase_holds h inside most small ran) held edited
  cases run
  refine holds_mul.mpr ⟨⟨fits, congrArg (· - 1) size, ?_⟩, held⟩
  exact (Nat.sub_le ..).trans most

theorem clear_holds (h : s.Holds (t.holds b x * R)) (small : b + 1 < Slot.countBound)
    (run : clear (t, s) = (.ok (), (t', s'))) : s'.Holds (t'.holds (b + 1) x.clear * R) := by
  obtain ⟨⟨fits, size, most⟩, held⟩ := holds_mul.mp h
  obtain ⟨_, ⟨t₁, s₁⟩, edited, run⟩ := Edit.bind_ok.mp run
  obtain ⟨cs, rfl, held⟩ := editColumns_holds
    (fun h ran => Column.clear_holds h small most ran) held edited
  cases run
  exact holds_mul.mpr ⟨⟨fits, rfl, Nat.zero_le _⟩, held⟩

/-! ### New columns -/

/-- A column that had no rows has no more keys than rows. -/
theorem insertDefaults_holds {count : Nat} {c c' : Column Table} {y : Values Sheet}
    (h : s.Holds (columnIn row row c y * R)) (small : row + count < Slot.countBound)
    (run : insertDefaults row count (c, s) = (.ok (), (c', s'))) :
    s'.Holds (columnIn (row + count) (row + count) c' (y.insertDefaults row count) * R) := by
  induction count generalizing c y row s with
  | zero =>
      cases run
      exact h
  | succ count ih =>
      obtain ⟨_, ⟨c₁, s₁⟩, first, run⟩ := Edit.bind_ok.mp run
      have h := Column.insertDefault_holds h (Nat.le_refl row) (Nat.le_refl row) (by omega) first
      have h := ih h (by omega) run
      rwa [Nat.add_right_comm] at h

theorem addColumn_holds {spec : ColumnSpec} {col : Nat} (h : s.Holds (t.holds b x * R))
    (small : b < Slot.countBound) (run : addColumn spec (t, s) = (.ok col, (t', s'))) :
    s'.Holds (t'.holds b (x.addColumn spec) * R) := by
  obtain ⟨⟨fits, size, most⟩, held⟩ := holds_mul.mp h
  rw [addColumn, Edit.self_bind] at run
  obtain ⟨c₀, s₁, made, run⟩ := Edit.lift_bind_ok.mp run
  obtain ⟨⟨_, c⟩, s₂, filled, run⟩ := Edit.lift_bind_ok.mp run
  cases run
  have new := Column.create_holds (b := 0) held fits.1 fits.2 made
  have small : 0 + t.size < Slot.countBound := by omega
  have new := insertDefaults_holds new small (Edit.on_ok.mp filled)
  rw [Nat.zero_add, size] at new
  have new := new.imp_left (columnIn_mono most c _)
  refine holds_mul.mpr ⟨⟨fits, size, most⟩, ?_⟩
  exact Assertion.each_append new

theorem create_ok {settings : StoreSettings}
    (run : (liftM (create settings) : StoreM Table) s = (.ok t, s')) :
    2 ≤ settings.maxNodeSize ∧ t = { settings } ∧ s' = s := by
  rw [create] at run
  by_cases small : settings.maxNodeSize < 2
  · simp only [StoreSettings.check, small, if_true] at run
    cases run
  · cases legal : settings.check with
    | error err =>
        rw [legal] at run
        cases run
    | ok =>
        rw [legal] at run
        cases run
        exact ⟨Nat.le_of_not_lt small, rfl, rfl⟩

theorem addColumns_holds {schema : List ColumnSpec} (h : s.Holds (t.holds b x * R))
    (small : b < Slot.countBound)
    (run : (forIn schema PUnit.unit fun spec _ => do
        let _ ← addColumn spec
        pure (.yield PUnit.unit) : Edit Table PUnit) (t, s) = (.ok .unit, (t', s'))) :
    s'.Holds (t'.holds b (schema.foldl (fun x spec => x.addColumn spec) x) * R) := by
  induction schema generalizing t x s with
  | nil =>
      cases run
      exact h
  | cons spec schema ih =>
      rw [List.forIn_cons, bind_assoc] at run
      obtain ⟨_, ⟨t₁, s₁⟩, added, run⟩ := Edit.bind_ok.mp run
      exact ih (addColumn_holds h small added) run

theorem ofSchema_holds {settings : StoreSettings} {schema : List ColumnSpec} (h : s.Holds R)
    (max : settings.maxNodeSize < 2 ^ 24 - 2) (run : ofSchema settings schema s = (.ok t, s')) :
    s'.Holds (t.holds 0 (.ofSchema schema) * R) := by
  obtain ⟨t₀, s₁, made, run⟩ := StoreM.bind_ok.mp run
  obtain ⟨⟨_, t₁⟩, s₂, added, run⟩ := StoreM.bind_ok.mp run
  cases run
  obtain ⟨_, ⟨t₂, s₃⟩, added, last⟩ := Edit.bind_ok.mp (Edit.on_ok.mp added)
  cases last
  obtain ⟨legal, rfl, rfl⟩ := create_ok made
  refine addColumns_holds ?_ (by decide) added
  have room := Nat.zero_lt_two.trans_le legal
  exact holds_mul.mpr ⟨⟨⟨room, max⟩, rfl, Nat.le_refl 0⟩, Assertion.each_nil.mpr ⟨rfl, h⟩⟩

end Table

end ColumnStore
