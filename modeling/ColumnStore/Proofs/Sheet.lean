import ColumnStore.Proofs.Enumerate
import ColumnStore.Proofs.LinkColumn
import ColumnStore.Proofs.ScalarLeaf
import ColumnStore.Table.Column

set_option autoImplicit false

/-!
What a table holds, as lists, and tables as assertions about it. The tables in the cells of a column
are part of what it holds.
-/
namespace ColumnStore

open Assertion (fact any)

/-! ### Sheets -/

/-- The values of a column; links are the words that stand for them. -/
inductive Values (T : Type) where
  | int (vs : List Int64)
  | single (vs : List Single)
  | double (vs : List Double)
  | text (vs : List String)
  | bytes (vs : List ByteArray)
  | link (words : List Int64)
  | linkList (lists : List (List Int64))
  | table (schema : List ColumnSpec) (cells : List (Option T))

structure Sheet where
  size : Nat := 0
  columns : List (Values Sheet) := []

namespace Values

variable {T : Type}

def length : Values T → Nat
  | int vs => vs.length
  | single vs => vs.length
  | double vs => vs.length
  | text vs => vs.length
  | bytes vs => vs.length
  | link words => words.length
  | linkList lists => lists.length
  | table _ cells => cells.length

def insertDefault (row : Nat) : Values T → Values T
  | int vs => int (vs.insertIdx row 0)
  | single vs => single (vs.insertIdx row Scalar.zero)
  | double vs => double (vs.insertIdx row Scalar.zero)
  | text vs => text (vs.insertIdx row "")
  | bytes vs => bytes (vs.insertIdx row .empty)
  | link words => link (words.insertIdx row 0)
  | linkList lists => linkList (lists.insertIdx row [])
  | table schema cells => table schema (cells.insertIdx row none)

def erase (row : Nat) : Values T → Values T
  | int vs => int (vs.eraseIdx row)
  | single vs => single (vs.eraseIdx row)
  | double vs => double (vs.eraseIdx row)
  | text vs => text (vs.eraseIdx row)
  | bytes vs => bytes (vs.eraseIdx row)
  | link words => link (words.eraseIdx row)
  | linkList lists => linkList (lists.eraseIdx row)
  | table schema cells => table schema (cells.eraseIdx row)

def clear : Values T → Values T
  | int _ => int []
  | single _ => single []
  | double _ => double []
  | text _ => text []
  | bytes _ => bytes []
  | link _ => link []
  | linkList _ => linkList []
  | table schema _ => table schema []

/-- No values, of the type that a column of this kind has. -/
def ofSpec (spec : ColumnSpec) : Values T :=
  match spec.kind with
  | .int | .bool | .dateTime => int []
  | .float => single []
  | .double => double []
  | .string | .stringEnum => text []
  | .binary => bytes []
  | .link => link []
  | .linkList => linkList []
  | .table => table spec.columns []

theorem length_insertDefault {row : Nat} {x : Values T} (inside : row ≤ x.length) :
    (x.insertDefault row).length = x.length + 1 := by
  cases x <;> exact List.length_insertIdx_of_le_length inside _

theorem length_erase {row : Nat} {x : Values T} (inside : row < x.length) :
    (x.erase row).length = x.length - 1 := by
  cases x <;> exact List.length_eraseIdx_of_lt inside

theorem length_clear (x : Values T) : x.clear.length = 0 := by cases x <;> rfl

theorem length_ofSpec (spec : ColumnSpec) : (ofSpec spec : Values T).length = 0 := by
  rw [ofSpec]
  split <;> rfl

end Values

/-! ### Lists of assertions -/

namespace Assertion

variable {α β : Type} {s : Store} {R : Assertion}

/-- What `y` is made of is as `A` says. -/
def made (make : α → β) (A : α → Assertion) (y : β) : Assertion :=
  any fun a => fact (y = make a) * A a

theorem made_mul {make : α → β} {A : α → Assertion} {y : β} :
    s.Holds (made make A y * R) ↔ ∃ a, y = make a ∧ s.Holds (A a * R) := by
  simp only [made, Store.holds_any_mul, mul_assoc, Store.holds_fact_mul]

theorem made_mono {make : α → β} {A A' : α → Assertion} {y : β}
    (each : ∀ a, (A a).Entails (A' a)) : (made make A y).Entails (made make A' y) := by
  rintro m base own ⟨a, h⟩
  obtain ⟨same, h⟩ := fact_mul.mp h
  exact ⟨a, fact_mul.mpr ⟨same, each a m base own h⟩⟩

theorem fact_mono {p p' : Prop} (weaker : p → p') : (fact p).Entails (fact p') :=
  fun _ _ _ h => ⟨h.1, weaker h.2⟩

/-- Two lists of one length, with an assertion about every pair. -/
def each (A : α → β → Assertion) : List α → List β → Assertion
  | [], ys => fact (ys = [])
  | x :: xs, ys => ys |> made (fun p : β × List β => p.1 :: p.2) fun p => A x p.1 * each A xs p.2

variable {A : α → β → Assertion} {x : α} {xs : List α} {y : β} {ys : List β} {i : Nat}

theorem each_nil : s.Holds (each A [] ys * R) ↔ ys = [] ∧ s.Holds R := by
  rw [each, Store.holds_fact_mul]

theorem each_cons : s.Holds (each A (x :: xs) ys * R) ↔
    ∃ y zs, ys = y :: zs ∧ s.Holds (A x y * (each A xs zs * R)) := by
  simp only [each, made_mul, Prod.exists, mul_assoc]

theorem each_mono {A' : α → β → Assertion} (weaker : ∀ x y, (A x y).Entails (A' x y))
    (xs : List α) (ys : List β) : (each A xs ys).Entails (each A' xs ys) := by
  induction xs generalizing ys with
  | nil => exact .refl _
  | cons x xs ih => exact made_mono fun p => .mul (weaker x p.1) (ih p.2)

theorem length_each (h : s.Holds (each A xs ys * R)) : ys.length = xs.length := by
  induction xs generalizing ys R with
  | nil => exact congrArg List.length (each_nil.mp h).1
  | cons x xs ih =>
      obtain ⟨y, ys, rfl, rest⟩ := each_cons.mp h
      rw [mul_left_comm] at rest
      rw [List.length_cons, List.length_cons, ih rest]

theorem each_parts {zs : List α} : s.Holds (each A (xs ++ zs) ys * R) ↔
    ∃ front back, ys = front ++ back ∧ s.Holds (each A xs front * (each A zs back * R)) := by
  induction xs generalizing ys R with
  | nil =>
      constructor
      · exact fun h => ⟨[], ys, rfl, each_nil.mpr ⟨rfl, h⟩⟩
      · rintro ⟨front, back, rfl, h⟩
        obtain ⟨rfl, rest⟩ := each_nil.mp h
        exact rest
  | cons x xs ih =>
      rw [List.cons_append, each_cons]
      constructor
      · rintro ⟨y, ys, rfl, h⟩
        rw [mul_left_comm] at h
        obtain ⟨front, back, rfl, parts⟩ := ih.mp h
        exact ⟨y :: front, back, rfl, each_cons.mpr ⟨y, front, rfl, parts.of_eq (by ac_rfl)⟩⟩
      · rintro ⟨front, back, rfl, h⟩
        obtain ⟨y, front, rfl, parts⟩ := each_cons.mp h
        refine ⟨y, front ++ back, rfl, ?_⟩
        rw [mul_left_comm]
        exact ih.mpr ⟨front, back, rfl, parts.of_eq (by ac_rfl)⟩

/-- One pair stands apart from the others. -/
theorem each_apart (here : xs[i]? = Option.some x) : s.Holds (each A xs ys * R) ↔
    ∃ y, ys[i]? = Option.some y ∧
      s.Holds (A x y * (each A (xs.eraseIdx i) (ys.eraseIdx i) * R)) := by
  induction xs generalizing ys i R with
  | nil => cases here
  | cons x₀ xs ih =>
      rw [each_cons]
      cases i with
      | zero =>
          cases here
          constructor
          · rintro ⟨y, zs, rfl, h⟩
            exact ⟨y, rfl, h⟩
          · rintro ⟨y, found, h⟩
            cases ys with
            | nil => cases found
            | cons y' zs =>
                cases found
                exact ⟨y, zs, rfl, h⟩
      | succ i =>
          constructor
          · rintro ⟨y₀, zs, rfl, h⟩
            rw [mul_left_comm] at h
            obtain ⟨y, found, h⟩ := (ih here).mp h
            refine ⟨y, found, ?_⟩
            rw [mul_left_comm, List.eraseIdx_cons_succ, List.eraseIdx_cons_succ, each_cons]
            refine ⟨y₀, zs.eraseIdx i, rfl, h.of_eq (by ac_rfl)⟩
          · rintro ⟨y, found, h⟩
            cases ys with
            | nil => cases found
            | cons y₀ zs =>
                rw [mul_left_comm, List.eraseIdx_cons_succ, List.eraseIdx_cons_succ, each_cons] at h
                obtain ⟨_, _, ⟨⟩, h⟩ := h
                refine ⟨y₀, zs, rfl, ?_⟩
                rw [mul_left_comm]
                exact (ih here).mpr ⟨y, found, h.of_eq (by ac_rfl)⟩

theorem each_set (h : s.Holds (A x y * (each A (xs.eraseIdx i) (ys.eraseIdx i) * R)))
    (inside : i < xs.length) (within : i < ys.length) :
    s.Holds (each A (xs.set i x) (ys.set i y) * R) := by
  refine (each_apart (List.getElem?_set_self inside)).mpr ⟨y, List.getElem?_set_self within, ?_⟩
  rwa [List.eraseIdx_set_eq, List.eraseIdx_set_eq]

theorem each_insertIdx (h : s.Holds (A x y * (each A xs ys * R))) (inside : i ≤ xs.length) :
    s.Holds (each A (xs.insertIdx i x) (ys.insertIdx i y) * R) := by
  have same : ys.length = xs.length := by
    rw [mul_left_comm] at h
    exact length_each h
  refine (each_apart (x := x) (i := i) ?_).mpr ⟨y, ?_, ?_⟩
  · rw [List.getElem?_insertIdx_self, if_pos inside]
  · rw [List.getElem?_insertIdx_self, if_pos (same ▸ inside)]
  · rwa [List.eraseIdx_insertIdx_self, List.eraseIdx_insertIdx_self]

theorem each_append (h : s.Holds (A x y * (each A xs ys * R))) :
    s.Holds (each A (xs ++ [x]) (ys ++ [y]) * R) := by
  have same : ys.length = xs.length := by
    rw [mul_left_comm] at h
    exact length_each h
  have last := each_insertIdx h (Nat.le_refl xs.length)
  rw [List.insertIdx_length_self] at last
  rwa [← same, List.insertIdx_length_self] at last

end Assertion

/-! ### Tables -/

namespace Table

open Assertion (made each)

mutual

/-- The table holds what the sheet says. No column has more than `b` keys, no table more rows. -/
def holds (b : Nat) (t : Table) (x : Sheet) : Assertion :=
  match t with
  | ⟨settings, _, columns, size⟩ =>
      fact ((0 < settings.maxNodeSize ∧ settings.maxNodeSize < 2 ^ 24 - 2) ∧ size = x.size ∧
          x.size ≤ b) *
        columnsHold b x.size columns x.columns

def columnsHold (b rows : Nat) : List (Column Table) → List (Values Sheet) → Assertion
  | [], xs => fact (xs = [])
  | c :: cs, xs => xs |> made (fun p : Values Sheet × List (Values Sheet) => p.1 :: p.2)
      fun p => fact (p.1.length = rows) * columnHolds b c p.1 * columnsHold b rows cs p.2

def columnHolds (b : Nat) : Column Table → Values Sheet → Assertion
  | .int c => made .int c.growing
  | .single c => made .single c.growing
  | .double c => made .double c.growing
  | .text c => made .text fun vs => any fun keys : List String =>
      fact (keys.length ≤ b) * c.holds keys vs
  | .bytes c => made .bytes c.growing
  | .link c => made .link c.values.growing
  | .linkList c => made .linkList c.holds
  | .table ⟨schema, cells⟩ => made (.table schema) (cellsHold b cells)

def cellsHold (b : Nat) : List (Option Table) → List (Option Sheet) → Assertion
  | [], xs => fact (xs = [])
  | cell :: cells, xs => xs |> made (fun p : Option Sheet × List (Option Sheet) => p.1 :: p.2)
      fun p => cellHolds b cell p.1 * cellsHold b cells p.2

def cellHolds (b : Nat) : Option Table → Option Sheet → Assertion
  | none => fun x => fact (x = none)
  | some t => made some (holds b t)

end

variable {b b' rows : Nat} {s s' : Store} {R : Assertion} {t : Table} {x : Sheet}

/-- A column of a table with this many rows. -/
def columnIn (b rows : Nat) (c : Column Table) (y : Values Sheet) : Assertion :=
  fact (y.length = rows) * columnHolds b c y

theorem columnsHold_eq (b rows : Nat) (cs : List (Column Table)) :
    columnsHold b rows cs = each (columnIn b rows) cs := by
  induction cs with
  | nil => rfl
  | cons c cs ih =>
      funext xs
      rw [columnsHold, each, ih]
      rfl

theorem cellsHold_eq (b : Nat) (cells : List (Option Table)) :
    cellsHold b cells = each (cellHolds b) cells := by
  induction cells with
  | nil => rfl
  | cons cell cells ih =>
      funext xs
      rw [cellsHold, each, ih]

theorem holds_mul : s.Holds (t.holds b x * R) ↔
    ((0 < t.settings.maxNodeSize ∧ t.settings.maxNodeSize < 2 ^ 24 - 2) ∧ t.size = x.size ∧
      x.size ≤ b) ∧ s.Holds (each (columnIn b x.size) t.columns x.columns * R) := by
  obtain ⟨settings, schema, columns, size⟩ := t
  rw [holds, mul_assoc, Store.holds_fact_mul, columnsHold_eq]

theorem columnIn_mul {c : Column Table} {y : Values Sheet} :
    s.Holds (columnIn b rows c y * R) ↔ y.length = rows ∧ s.Holds (columnHolds b c y * R) := by
  rw [columnIn, mul_assoc, Store.holds_fact_mul]

theorem text_mul {c : TextColumn} {y : Values Sheet} : s.Holds (columnHolds b (.text c) y * R) ↔
    ∃ vs keys, y = .text vs ∧ keys.length ≤ b ∧ s.Holds (c.holds keys vs * R) := by
  simp only [columnHolds, Assertion.made_mul, Store.holds_any_mul, mul_assoc,
    Store.holds_fact_mul, exists_and_left]

theorem table_mul {c : SubtableColumn Table} {y : Values Sheet} :
    s.Holds (columnHolds b (.table c) y * R) ↔
      ∃ ys, y = .table c.schema ys ∧ s.Holds (each (cellHolds b) c.cells ys * R) := by
  obtain ⟨schema, cells⟩ := c
  rw [columnHolds, Assertion.made_mul, cellsHold_eq]

/-! ### Bounds -/

mutual

/-- What keeps a bound keeps any larger one. -/
theorem holds_mono (le : b ≤ b') (t : Table) (x : Sheet) :
    (t.holds b x).Entails (t.holds b' x) := by
  match t with
  | ⟨settings, schema, columns, size⟩ =>
      rw [holds, holds]
      refine .mul (Assertion.fact_mono ?_) (columnsHold_mono le x.size columns x.columns)
      exact fun known => ⟨known.1, known.2.1, known.2.2.trans le⟩

theorem columnsHold_mono (le : b ≤ b') (rows : Nat) (cs : List (Column Table))
    (xs : List (Values Sheet)) :
    (columnsHold b rows cs xs).Entails (columnsHold b' rows cs xs) := by
  match cs with
  | [] =>
      rw [columnsHold, columnsHold]
      exact .refl _
  | c :: cs =>
      rw [columnsHold, columnsHold]
      exact Assertion.made_mono fun p =>
        .mul (.mul (.refl _) (columnHolds_mono le c p.1)) (columnsHold_mono le rows cs p.2)

theorem columnHolds_mono (le : b ≤ b') (c : Column Table) (x : Values Sheet) :
    (columnHolds b c x).Entails (columnHolds b' c x) := by
  match c with
  | .int c | .single c | .double c | .bytes c | .link c | .linkList c =>
      rw [columnHolds, columnHolds]
      exact .refl _
  | .text c =>
      rw [columnHolds, columnHolds]
      refine Assertion.made_mono fun vs => ?_
      rintro m base own ⟨keys, h⟩
      have few := Assertion.fact_mono fun few : keys.length ≤ b => few.trans le
      exact ⟨keys, few.mul (.refl _) m base own h⟩
  | .table ⟨schema, cells⟩ =>
      rw [columnHolds, columnHolds]
      exact Assertion.made_mono fun xs => cellsHold_mono le cells xs

theorem cellsHold_mono (le : b ≤ b') (cells : List (Option Table)) (xs : List (Option Sheet)) :
    (cellsHold b cells xs).Entails (cellsHold b' cells xs) := by
  match cells with
  | [] =>
      rw [cellsHold, cellsHold]
      exact .refl _
  | cell :: cells =>
      rw [cellsHold, cellsHold]
      exact Assertion.made_mono fun p =>
        .mul (cellHolds_mono le cell p.1) (cellsHold_mono le cells p.2)

theorem cellHolds_mono (le : b ≤ b') (cell : Option Table) (x : Option Sheet) :
    (cellHolds b cell x).Entails (cellHolds b' cell x) := by
  match cell with
  | none => exact .refl _
  | some t =>
      rw [cellHolds, cellHolds]
      exact Assertion.made_mono fun y => holds_mono le t y

end

theorem columnIn_mono (le : b ≤ b') (c : Column Table) (y : Values Sheet) :
    (columnIn b rows c y).Entails (columnIn b' rows c y) := .mul (.refl _) (columnHolds_mono le c y)

/-! ### Frees -/

mutual

theorem destroy_holds (t : Table) {x : Sheet} {s s' : Store} {R : Assertion}
    (h : s.Holds (t.holds b x * R)) (run : t.destroy s = (.ok (), s')) : s'.Holds R := by
  match t with
  | ⟨settings, schema, columns, size⟩ => exact destroyColumns_holds columns (holds_mul.mp h).2 run

theorem destroyColumns_holds (cs : List (Column Table)) {xs : List (Values Sheet)} {rows : Nat}
    {s s' : Store} {R : Assertion} (h : s.Holds (each (columnIn b rows) cs xs * R))
    (run : destroyColumns cs s = (.ok (), s')) : s'.Holds R := by
  match cs with
  | [] =>
      obtain ⟨-, rfl⟩ := StoreM.pure_ok.mp run
      exact (Assertion.each_nil.mp h).2
  | c :: cs =>
      obtain ⟨y, ys, -, h⟩ := Assertion.each_cons.mp h
      obtain ⟨_, s₁, first, run⟩ := StoreM.bind_ok.mp run
      exact destroyColumns_holds cs (destroyColumn_holds c (columnIn_mul.mp h).2 first) run

theorem destroyColumn_holds (c : Column Table) {x : Values Sheet}
    {s s' : Store} {R : Assertion} (h : s.Holds (columnHolds b c x * R))
    (run : destroyColumn c s = (.ok (), s')) : s'.Holds R := by
  match c with
  | .int c | .single c | .double c | .bytes c | .link c =>
      obtain ⟨vs, -, h⟩ := Assertion.made_mul.mp h
      exact Tree.destroy_growing h run
  | .text c =>
      obtain ⟨vs, keys, -, -, h⟩ := text_mul.mp h
      exact TextColumn.destroy_holds h run
  | .linkList c =>
      obtain ⟨lists, -, h⟩ := Assertion.made_mul.mp h
      exact LinkListColumn.destroy_holds h run
  | .table ⟨schema, cells⟩ =>
      obtain ⟨xs, -, h⟩ := table_mul.mp h
      exact destroyCells_holds cells h run

theorem destroyCells_holds (cells : List (Option Table)) {xs : List (Option Sheet)}
    {s s' : Store} {R : Assertion} (h : s.Holds (each (cellHolds b) cells xs * R))
    (run : destroyCells cells s = (.ok (), s')) : s'.Holds R := by
  match cells with
  | [] =>
      obtain ⟨-, rfl⟩ := StoreM.pure_ok.mp run
      exact (Assertion.each_nil.mp h).2
  | none :: cells =>
      obtain ⟨y, ys, -, h⟩ := Assertion.each_cons.mp h
      rw [cellHolds, Store.holds_fact_mul] at h
      exact destroyCells_holds cells h.2 run
  | some t :: cells =>
      obtain ⟨y, ys, -, h⟩ := Assertion.each_cons.mp h
      rw [cellHolds, Assertion.made_mul] at h
      obtain ⟨x, -, h⟩ := h
      obtain ⟨_, s₁, first, run⟩ := StoreM.bind_ok.mp run
      exact destroyCells_holds cells (destroy_holds t h first) run

end

end Table

end ColumnStore
