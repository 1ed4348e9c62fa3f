import ColumnStore.Proofs.Interchange
import ColumnStore.Proofs.TableContent

set_option autoImplicit false

/-!
Rows and the columns they are in. Operations that succeed leave every column with the rows of the
table. An edit of rows that fails stops in one column: the columns before it have their change, it
and those after it have not, and the table counts the rows that it had.
-/
namespace ColumnStore

theorem Edit.except_bind_cases {σ α β : Type} {x : Except Error α} {f : α → Edit σ β}
    {p p' : σ × Store} {r : Except Error β}
    (run : ((liftM x : Edit σ α) >>= f) p = (r, p')) :
    (∃ a, x = .ok a ∧ f a p = (r, p')) ∨ (∃ err, x = .error err ∧ r = .error err) ∧ p' = p := by
  cases x with
  | error err =>
      cases run
      exact .inr ⟨⟨err, rfl, rfl⟩, rfl⟩
  | ok a =>
      rw [Edit.bind_apply] at run
      exact .inl ⟨a, rfl, run⟩

namespace Table

open Assertion (each)

variable {s s' : Store} {R : Assertion} {t t' : Table} {x : Sheet} {b row : Nat} {err : Error}
  {e : Edit (Column Table) Unit}

/-! ### Operations that succeed -/

/-- Every column has a value for each row. -/
def Even (m : Memory) (t : Table) : Prop := ∀ c ∈ t.columns, c.size m = t.size

theorem run_even {settings : StoreSettings} {schema : List ColumnSpec} {ops : List Op}
    (max : settings.maxNodeSize < 2 ^ 24 - 2) (built : Built settings schema ops s t)
    (short : Short ops (.ofSchema schema)) (few : weight ops < Slot.countBound) :
    t.Even s.memory :=
  fun _ here => column_size_of_holds (built.holds max short few) few here

/-! ### Edits of rows that fail -/

/-- The edit of one column failed, after those of the columns before it. -/
inductive Stopped (e : Edit (Column Table) Unit) (err : Error) (t : Table) (s : Store) :
    Table → Store → Prop where
  | mk {before before' after : List (Column Table)} {c c' : Column Table} {s₁ s' : Store}
      (columns : t.columns = before ++ c :: after)
      (edited : Edited e (.ok ()) before s before' s₁)
      (failed : e (c, s₁) = (.error err, (c', s'))) :
      Stopped e err t s { t with columns := before' ++ c' :: after } s'

theorem Edited.stops {cs cs' : List (Column Table)} (edited : Edited e (.error err) cs s cs' s') :
    ∃ before before' c c' after s₁, cs = before ++ c :: after ∧ cs' = before' ++ c' :: after ∧
      Edited e (.ok ()) before s before' s₁ ∧ e (c, s₁) = (.error err, (c', s')) := by
  generalize failed : Except.error err = r at edited
  induction edited with
  | all => cases failed
  | @next r c c' cs cs' s s₁ s' first rest ih =>
      obtain ⟨before, before', d, d', after, s₂, rfl, rfl, edited, stopped⟩ := ih failed
      exact ⟨c :: before, c' :: before', d, d', after, s₂, rfl, rfl, .next first edited, stopped⟩
  | @stop err' c c' cs s s' stopped =>
      cases failed
      exact ⟨[], [], c, c', cs, s, rfl, rfl, .all, stopped⟩

theorem editColumns_stopped (failed : editColumns e (t, s) = (.error err, (t', s'))) :
    Stopped e err t s t' s' := by
  obtain ⟨cs, rfl, edited⟩ := editColumns_edited failed
  obtain ⟨before, before', c, c', after, s₁, columns, rfl, edited, stopped⟩ := edited.stops
  exact .mk columns edited stopped

/-- The row count is changed last, which cannot fail. -/
theorem rows_stopped {g : Table → Table}
    (failed : (do editColumns e; Edit.update g : Edit Table Unit) (t, s) =
      (.error err, (t', s'))) : Stopped e err t s t' s' := by
  rcases Edit.bind_error.mp failed with failed | ⟨_, q, -, failed⟩
  · exact editColumns_stopped failed
  · cases failed

theorem pushRow_stopped (failed : pushRow row (t, s) = (.error err, (t', s'))) :
    Stopped (Column.insertDefault row) err t s t' s' := rows_stopped failed

theorem clear_stopped (failed : clear (t, s) = (.error err, (t', s'))) :
    Stopped Column.clear err t s t' s' := rows_stopped failed

/-- A row that is out of bounds is refused, and otherwise the insertion stopped in a column. -/
theorem insertRow_failed (failed : insertRow row (t, s) = (.error err, (t', s'))) :
    (err = t.outOfBounds row ∧ t' = t ∧ s' = s) ∨
      Stopped (Column.insertDefault row) err t s t' s' := by
  rw [insertRow, Edit.self_bind] at failed
  by_cases outside : t.size < row
  · simp only [outside, if_true, Edit.throw_bind] at failed
    cases failed
    exact .inl ⟨rfl, rfl, rfl⟩
  · simp only [outside, if_false] at failed
    exact .inr (pushRow_stopped failed)

theorem remove_failed (failed : remove row (t, s) = (.error err, (t', s'))) :
    (err = t.outOfBounds row ∧ t' = t ∧ s' = s) ∨ Stopped (Column.erase row) err t s t' s' := by
  rw [remove, Edit.self_bind] at failed
  rcases Edit.except_bind_cases failed with ⟨_, -, failed⟩ | ⟨⟨err', refused, same⟩, kept⟩
  · exact .inr (rows_stopped failed)
  · cases same
    cases kept
    rw [checkRow] at refused
    split at refused
    · cases refused
    · cases refused
      exact .inl ⟨rfl, rfl, rfl⟩

/-- Some rows were appended to every column, and then one stopped. -/
theorem pushRows_stopped {count : Nat} (failed : pushRows count (t, s) = (.error err, (t', s'))) :
    ∃ k < count, ∃ t₁ s₁, pushRows k (t, s) = (.ok (), (t₁, s₁)) ∧
      Stopped (Column.insertDefault t₁.size) err t₁ s₁ t' s' := by
  induction count generalizing t s with
  | zero => cases failed
  | succ count ih =>
      rw [pushRows, Edit.self_bind] at failed
      rcases Edit.bind_error.mp failed with failed | ⟨_, ⟨t₁, s₁⟩, first, failed⟩
      · exact ⟨0, Nat.succ_pos count, t, s, rfl, pushRow_stopped failed⟩
      · obtain ⟨k, few, t₂, s₂, pushed, stopped⟩ := ih failed
        refine ⟨k + 1, Nat.succ_lt_succ few, t₂, s₂, ?_, stopped⟩
        rw [pushRows, Edit.self_bind]
        exact Edit.bind_ok.mpr ⟨(), (t₁, s₁), first, pushed⟩

/-! ### Edits of columns that fail -/

theorem addColumn_failed {spec : ColumnSpec}
    (failed : addColumn spec (t, s) = (.error err, (t', s'))) : t' = t := by
  rw [addColumn, Edit.self_bind] at failed
  rcases Edit.bind_error.mp failed with failed | ⟨c, q, made, failed⟩
  · exact (Edit.lift_error.mp failed).1
  · have same := (Edit.lift_ok.mp made).1
    rcases Edit.bind_error.mp failed with failed | ⟨_, q', -, failed⟩
    · exact (Edit.lift_error.mp failed).1.trans same
    · cases failed

/-- An edit of one column leaves the others and the row count as they were, whatever comes of it. -/
theorem editColumnOf_others {α C : Type} [ColumnType C] {col : Nat} {e : Edit C α}
    {r : Except Error α} (run : editColumnOf col e (t, s) = (r, (t', s'))) :
    t'.size = t.size ∧ ∀ i ≠ col, t'.columns[i]? = t.columns[i]? := by
  rw [editColumnOf, Edit.self_bind] at run
  rcases Edit.except_bind_cases run with ⟨c, -, run⟩ | ⟨-, same⟩
  · rw [Edit.inside] at run
    cases run
    exact ⟨rfl, fun i other => List.getElem?_set_ne (Ne.symm other)⟩
  · cases same
    exact ⟨rfl, fun _ _ => rfl⟩

theorem editCell_others {α C : Type} [ColumnType C] {col : Nat} {e : Edit C α}
    {r : Except Error α} (run : editCell col row e (t, s) = (r, (t', s'))) :
    t'.size = t.size ∧ ∀ i ≠ col, t'.columns[i]? = t.columns[i]? := by
  rw [editCell, Edit.self_bind] at run
  rcases Edit.except_bind_cases run with ⟨_, -, run⟩ | ⟨-, same⟩
  · exact editColumnOf_others run
  · cases same
    exact ⟨rfl, fun _ _ => rfl⟩

/-! ### Uneven columns -/

theorem columns_size {cs : List (Column Table)} {ys : List (Values Sheet)} {rows : Nat}
    {settings : StoreSettings} (h : s.Holds (each (columnIn b rows) cs ys * R)) (most : rows ≤ b)
    (small : b < Slot.countBound)
    (fits : 0 < settings.maxNodeSize ∧ settings.maxNodeSize < 2 ^ 24 - 2) :
    ∀ c ∈ cs, c.size s.memory = rows := by
  have whole : s.Holds (({ settings, columns := cs, size := rows } : Table).holds b
      { size := rows, columns := ys } * R) := holds_mul.mpr ⟨⟨fits, rfl, most⟩, h⟩
  exact fun c here => column_size_of_holds whole small here

/-- When a default row could not be inserted into a column, those before it have one row more than
it and those after it. -/
theorem pushRow_uneven (h : s.Holds (t.holds b x * R)) (inside : row ≤ t.size)
    (small : b + 1 < Slot.countBound)
    (failed : pushRow row (t, s) = (.error err, (t', s'))) :
    ∃ before before' c c' after s₁, t.columns = before ++ c :: after ∧
      t' = { t with columns := before' ++ c' :: after } ∧
      Column.insertDefault row (c, s₁) = (.error err, (c', s')) ∧
      (∀ d ∈ before', d.size s₁.memory = t.size + 1) ∧
      ∀ d ∈ c :: after, d.size s₁.memory = t.size := by
  obtain @⟨before, before', after, c, c', s₁, _, columns, edited, stopped⟩ := pushRow_stopped failed
  obtain ⟨⟨fits, size, most⟩, held⟩ := holds_mul.mp h
  rw [columns] at held
  obtain ⟨ys, zs, -, held⟩ := Assertion.each_parts.mp held
  have longer := edited.holds
    (fun h ran => Column.insertDefault_holds h (size ▸ inside) most small ran) held
  refine ⟨before, before', c, c', after, s₁, columns, rfl, stopped, ?_, ?_⟩
  · exact size ▸ columns_size longer (Nat.succ_le_succ most) small fits
  · exact size ▸ columns_size longer.right most (Nat.lt_of_succ_lt small) fits

end Table

end ColumnStore
