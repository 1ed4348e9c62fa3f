import ColumnStore.Proofs.FoundRows
import ColumnStore.Proofs.Interchange
import ColumnStore.Proofs.RowErasure

set_option autoImplicit false

/-!
Removing the rows that a query finds. The rows are found before the first is removed; the last one
goes first, so the others are still in the places where they were found.
-/
namespace ColumnStore

/-! ### Places -/

/-- Erasing a place that is before those erased already. -/
theorem eraseIdx_filter {row n : Nat} {rows : List Nat} (inside : row < n)
    (first : ∀ later ∈ rows, row < later) : ((List.range n).filter (· ∉ rows)).eraseIdx row =
      (List.range n).filter (· ∉ row :: rows) := by
  obtain ⟨later, rfl⟩ : ∃ later, n = row + (later + 1) := ⟨n - row - 1, by omega⟩
  have split : List.range (row + (later + 1)) =
      List.range row ++ row :: List.range' (row + 1) later := by
    rw [List.range_eq_range', List.range_eq_range', ← List.range'_append_1, Nat.zero_add,
      List.range'_succ]
  have kept (gone : List Nat) (upper : ∀ i ∈ gone, row ≤ i) :
      (List.range row).filter (· ∉ gone) = List.range row := by
    refine List.filter_eq_self.mpr fun i lower => decide_eq_true fun member => ?_
    exact Nat.not_lt_of_le (upper i member) (List.mem_range.mp lower)
  have above : ∀ i ∈ List.range' (row + 1) later, (i ∉ rows ↔ i ∉ row :: rows) := by
    intro i upper
    have other : i ≠ row := Nat.ne_of_gt (List.mem_range'_1.mp upper).1
    rw [List.mem_cons, not_or, and_iff_right other]
  have here : row ∉ rows := fun member => Nat.lt_irrefl _ (first row member)
  have after : ∀ i ∈ rows, row ≤ i := fun i member => Nat.le_of_lt (first i member)
  rw [split, List.filter_append, List.filter_append, kept rows after,
    kept (row :: rows) (List.forall_mem_cons.mpr ⟨Nat.le_refl row, after⟩), List.filter_cons,
    List.filter_cons, if_pos (decide_eq_true here), if_neg (by simp),
    List.eraseIdx_append_of_length_le (List.length_range ▸ Nat.le_refl row), List.length_range,
    Nat.sub_self, List.eraseIdx_cons_zero]
  exact congrArg _ (List.filter_congr fun i upper => decide_eq_decide.mpr (above i upper))

/-- Places erased one after the other, the last one first. -/
theorem foldr_eraseIdx_range {n : Nat} {rows : List Nat} (ascending : rows.Pairwise (· < ·))
    (inside : ∀ row ∈ rows, row < n) :
    rows.foldr (fun row l => l.eraseIdx row) (List.range n) = (List.range n).filter (· ∉ rows) := by
  induction rows with
  | nil => simp
  | cons row rows ih =>
      obtain ⟨first, ascending⟩ := List.pairwise_cons.mp ascending
      obtain ⟨here, inside⟩ := List.forall_mem_cons.mp inside
      rw [List.foldr_cons, ih ascending inside, eraseIdx_filter here first]

theorem foldr_eraseIdx_map {α : Type} (f : Nat → α) (l : List Nat) (rows : List Nat) :
    rows.foldr (fun row l => l.eraseIdx row) (l.map f) =
      (rows.foldr (fun row l => l.eraseIdx row) l).map f := by
  induction rows with
  | nil => rfl
  | cons row rows ih => rw [List.foldr_cons, ih, List.eraseIdx_map, List.foldr_cons]

/-! ### Tables -/

namespace Table

variable {s s' : Store} {R : Assertion} {t t' : Table} {b : Nat} {x : Sheet} {rows : List Nat}

/-- Rows of `t` are gone in `t'`. The others are there, in the order that they had. -/
structure Without (rows : List Nat) (m m' : Memory) (t t' : Table) : Prop where
  schema : t'.schema = t.schema
  size : t'.size + rows.length = t.size
  columns : ∀ kind col, t'.readColumn m' kind col =
    ((List.range t.size).filter (· ∉ rows)).map (t.getCell m kind col)

/-- Each removal is of a row of what the one before left. -/
theorem forM_remove_erases (h : s.Holds (t.holds b x * R)) (small : b < Slot.countBound)
    (run : rows.forM remove (t, s) = (.ok (), (t', s'))) :
    t'.schema = t.schema ∧ t'.size + rows.length = t.size ∧
      (∀ kind col, t'.readColumn s'.memory kind col =
        rows.foldl (fun l row => l.eraseIdx row) (t.readColumn s.memory kind col)) ∧
      ∃ x', s'.Holds (t'.holds b x' * R) := by
  induction rows generalizing t x s with
  | nil =>
      cases run
      exact ⟨rfl, rfl, fun _ _ => rfl, x, h⟩
  | cons row rows ih =>
      rw [List.forM] at run
      obtain ⟨_, ⟨t₁, s₁⟩, first, run⟩ := Edit.bind_ok.mp run
      have erased := remove_erased first
      obtain ⟨schema, size, columns, held⟩ := ih (remove_holds h small first) run
      refine ⟨schema.trans erased.schema, ?_, fun kind col => ?_, held⟩
      · have := erased.size
        have := erased.inside
        rw [List.length_cons]
        omega
      · rw [columns, remove_readColumn h small first, List.foldl_cons]

/-- Where the table was read makes no difference, as long as its sheet was held there. -/
theorem Without.from_congr {s₁ : Store} {R₁ : Assertion} {m' : Memory}
    (without : Without rows s₁.memory m' t t') (h₁ : s₁.Holds (t.holds b x * R₁))
    (h : s.Holds (t.holds b x * R)) (small : b < Slot.countBound) :
    Without rows s.memory m' t t' := by
  refine { without with columns := fun kind col => ?_ }
  have same := List.map_inj_left.mp (readColumn_congr h h₁ small kind col)
  rw [without.columns]
  exact List.map_congr_left fun row here => same row (List.mem_of_mem_filter here)

theorem forM_remove_without (h : s.Holds (t.holds b x * R)) (small : b < Slot.countBound)
    (ascending : rows.Pairwise (· < ·)) (inside : ∀ row ∈ rows, row < t.size)
    (run : rows.reverse.forM remove (t, s) = (.ok (), (t', s'))) :
    Without rows s.memory s'.memory t t' ∧ ∃ x', s'.Holds (t'.holds b x' * R) := by
  obtain ⟨schema, size, columns, held⟩ := forM_remove_erases h small run
  refine ⟨⟨schema, by rwa [List.length_reverse] at size, fun kind col => ?_⟩, held⟩
  rw [columns, List.foldl_reverse, readColumn, foldr_eraseIdx_map,
    foldr_eraseIdx_range ascending inside]

end Table

/-! ### Queries -/

namespace Query

variable {s s' : Store} {R : Assertion} {t t' : Table} {b : Nat} {x : Sheet} {q : Query}
  {start : Nat} {stop limit : Option Nat} {r : Except Error Nat}

/-- An invalid query looks at nothing. -/
theorem findAll_invalid {e : Error} (invalid : q.check = .error e) :
    q.findAll t start stop limit s = (.error e, s) := by
  simp only [findAll, runRows, runInto, bind, Tally.new, invalid]
  rfl

/-- Either no rows could be found, or those that were are removed. -/
theorem remove_cases (run : q.remove start stop limit (t, s) = (r, (t', s'))) :
    (∃ e, q.findAll t start stop limit s = (.error e, s') ∧ r = .error e ∧ t' = t) ∨
    ∃ rows s₁, q.findAll t start stop limit s = (.ok rows, s₁) ∧
      ∀ n, r = .ok n → n = rows.length ∧
        rows.reverse.forM Table.remove (t, s₁) = (.ok (), (t', s')) := by
  rw [remove, Edit.self_bind] at run
  cases found : q.findAll t start stop limit s with
  | mk answer s₁ =>
      cases answer with
      | error e =>
          refine .inl ⟨e, ?_⟩
          have failed : (liftM (q.findAll t start stop limit) : Edit Table (List Nat)) (t, s) =
              (.error e, (t, s₁)) := Edit.lift_error.mpr ⟨rfl, found⟩
          rw [Edit.bind_apply, failed] at run
          cases run
          exact ⟨rfl, rfl, rfl⟩
      | ok rows =>
          refine .inr ⟨rows, s₁, rfl, ?_⟩
          rintro n rfl
          obtain ⟨rows', s₂, found', run⟩ := Edit.lift_bind_ok.mp run
          rw [found] at found'
          cases found'
          obtain ⟨_, p, looped, done⟩ := Edit.bind_ok.mp run
          obtain ⟨rfl, rfl⟩ := Edit.pure_ok.mp done
          exact ⟨rfl, looped⟩

/-- Finding rows leaves the table as it is, whether or not it succeeds. -/
theorem findAll_holds (h : s.Holds (t.holds b x * R)) (small : b < Slot.countBound) (q : Query)
    (start : Nat) (stop limit : Option Nat) :
    (q.findAll t start stop limit s).2.Holds (t.holds b x * R) ∧
      ∀ rows, (q.findAll t start stop limit s).1 = .ok rows →
        rows.Pairwise (· < ·) ∧ ∀ row ∈ rows, row < t.size := by
  have sees : s.view.Sees (t.holds b x * R) := Store.Holds.sees (by rwa [mul_one])
  obtain ⟨kept, rows⟩ :=
    findAll_keeps sees.left small start stop limit s (Store.view_frame h.sound)
  exact ⟨sees.held kept, rows⟩

/-- A query that fails to find rows removes none. -/
theorem remove_failed {e : Error} {s₁ : Store}
    (run : q.remove start stop limit (t, s) = (r, (t', s')))
    (found : q.findAll t start stop limit s = (.error e, s₁)) :
    r = .error e ∧ t' = t ∧ s' = s₁ := by
  rcases remove_cases run with ⟨e', found', rfl, rfl⟩ | ⟨rows, s₂, found', -⟩
  · cases found.symm.trans found'
    exact ⟨rfl, rfl, rfl⟩
  · cases found.symm.trans found'

/-- What is left is a table again, from which more can be removed. -/
theorem remove_without {n : Nat} (h : s.Holds (t.holds b x * R)) (small : b < Slot.countBound)
    (run : q.remove start stop limit (t, s) = (.ok n, (t', s'))) :
    ∃ rows s₁, q.findAll t start stop limit s = (.ok rows, s₁) ∧ n = rows.length ∧
      rows.Pairwise (· < ·) ∧ (∀ row ∈ rows, row < t.size) ∧
      Table.Without rows s.memory s'.memory t t' ∧ ∃ x', s'.Holds (t'.holds b x' * R) := by
  obtain ⟨h₁, sorted⟩ := findAll_holds h small q start stop limit
  rcases remove_cases run with ⟨e, -, failed, -⟩ | ⟨rows, s₁, found, removed⟩
  · cases failed
  · obtain ⟨count, looped⟩ := removed n rfl
    rw [found] at h₁ sorted
    obtain ⟨ascending, inside⟩ := sorted rows rfl
    obtain ⟨without, held⟩ := Table.forM_remove_without h₁ small ascending inside looped
    exact ⟨rows, s₁, found, count, ascending, inside, without.from_congr h₁ h small, held⟩

/-- The rows that a query finds are removed, and no others. A query that fails to find them leaves
the table, and an invalid one does not even look at it. -/
theorem remove_deletes {settings : StoreSettings} {schema : List ColumnSpec} {ops : List Table.Op}
    (max : settings.maxNodeSize < 2 ^ 24 - 2) (built : Table.Built settings schema ops s t)
    (short : Table.Short ops (.ofSchema schema)) (few : Table.weight ops < Slot.countBound)
    (run : q.remove start stop limit (t, s) = (r, (t', s'))) :
    (∀ n, r = .ok n → ∃ rows s₁, q.findAll t start stop limit s = (.ok rows, s₁) ∧
      n = rows.length ∧ rows.Pairwise (· < ·) ∧ (∀ row ∈ rows, row < t.size) ∧
      Table.Without rows s.memory s'.memory t t') ∧
    (∀ e s₁, q.findAll t start stop limit s = (.error e, s₁) → r = .error e ∧ t' = t ∧
      ∀ kind col, t'.readColumn s'.memory kind col = t.readColumn s.memory kind col) ∧
    ∀ e, q.check = .error e → r = .error e ∧ t' = t ∧ s' = s := by
  have h := built.holds max short few
  refine ⟨?_, fun e s₁ found => ?_, fun e invalid => remove_failed run (findAll_invalid invalid)⟩
  · rintro n rfl
    obtain ⟨rows, s₁, found, count, ascending, inside, without, -⟩ := remove_without h few run
    exact ⟨rows, s₁, found, count, ascending, inside, without⟩
  · have kept := (findAll_holds h few q start stop limit).1
    obtain ⟨failed, rfl, rfl⟩ := remove_failed run found
    rw [found] at kept
    exact ⟨failed, rfl, Table.readColumn_congr h kept few⟩

def numberOnly : List ColumnSpec := [{ name := "number", kind := .int }]

def fourNumbers : List Table.Op := [.addRows 4, .setInt 0 1 7, .setInt 0 3 7]

def fourRows : StoreM Table := do
  let t ← Table.ofSchema { maxNodeSize := 4 } numberOnly
  let (_, t) ← Edit.on t (Table.run fourNumbers)
  return t

def sevens : Query := .ofCalls {} [.test (.int 0 .equal 7)]

/-- Two of four rows are removed. -/
theorem remove_deletes_twoOfFour : ∃ t s t' s',
    Table.Built { maxNodeSize := 4 } numberOnly fourNumbers s t ∧
      sevens.remove 0 none none (t, s) = (.ok 2, (t', s')) ∧
      Table.Without [1, 3] s.memory s'.memory t t' := by
  have finds : ((fourRows >>= fun t => sevens.findAll t 0 none none) (.empty {})).1.toOption =
      some [1, 3] := by decide +kernel
  have removes : ((fourRows >>= fun t => Edit.on t (sevens.remove 0 none none))
      (.empty {})).1.toOption.map (·.1) = some 2 := by decide +kernel
  rw [StoreM.bind_apply] at finds removes
  cases made : fourRows (.empty {}) with
  | mk r s =>
      rw [made] at finds removes
      cases r with
      | error e => cases finds
      | ok t =>
          obtain ⟨t₀, s₁, created, rest⟩ := StoreM.bind_ok.mp made
          obtain ⟨⟨_, t₁⟩, s₂, ran, rest⟩ := StoreM.bind_ok.mp rest
          obtain ⟨rfl, rfl⟩ := StoreM.pure_ok.mp rest
          have built : Table.Built { maxNodeSize := 4 } numberOnly fourNumbers s₂ t₁ :=
            .mk (Store.sound_empty {}) created (Edit.on_ok.mp ran)
          cases run : Edit.on t₁ (sevens.remove 0 none none) s₂ with
          | mk r s' =>
              simp only [run] at removes
              cases r with
              | error e => cases removes
              | ok y =>
                  obtain ⟨n, t'⟩ := y
                  obtain rfl : n = 2 := Option.some.inj removes
                  have run := Edit.on_ok.mp run
                  have short : Table.Short fourNumbers (.ofSchema numberOnly) :=
                    ⟨trivial, trivial, trivial, trivial⟩
                  obtain ⟨removed, -⟩ := remove_deletes (by decide) built short (by decide) run
                  obtain ⟨rows, s₁, found, -, -, -, without⟩ := removed 2 rfl
                  simp only [found] at finds
                  obtain rfl : rows = [1, 3] := Option.some.inj finds
                  exact ⟨t₁, s₂, t', s', built, run, without⟩

end Query

end ColumnStore
