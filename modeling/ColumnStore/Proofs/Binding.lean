import ColumnStore.Proofs.Outcome
import ColumnStore.Proofs.Prototype
import ColumnStore.Proofs.TableCells
import ColumnStore.Proofs.View

set_option autoImplicit false

/-!
Conditions bound to a table. Whatever they remember is about columns with a value for each of its
rows, and binding them leaves no trace in the store.
-/
namespace ColumnStore

open Assertion (fact any made)

/-! ### Parts of a view -/

namespace View.Sees

variable {w : View} {A B : Assertion} {α β : Type} {xs : List α} {ys : List β} {x : α} {i : Nat}

theorem left (sees : w.Sees (A * B)) : w.Sees A := by
  obtain ⟨_, part, own, _, rfl, -, here, -⟩ := sees
  exact ⟨own, Set.subset_union_left.trans part, here⟩

theorem right (sees : w.Sees (A * B)) : w.Sees B := left (mul_comm A B ▸ sees)

theorem of_fact {p : Prop} (sees : w.Sees (fact p * A)) : p ∧ w.Sees A := by
  obtain ⟨own, part, here⟩ := sees
  obtain ⟨known, here⟩ := Assertion.fact_mul.mp here
  exact ⟨known, own, part, here⟩

theorem of_any {P : α → Assertion} (sees : w.Sees (any P)) : ∃ a, w.Sees (P a) := by
  obtain ⟨own, part, a, here⟩ := sees
  exact ⟨a, own, part, here⟩

theorem of_made {make : α → β} {P : α → Assertion} {y : β} (sees : w.Sees (made make P y)) :
    ∃ a, y = make a ∧ w.Sees (P a) := by
  obtain ⟨a, sees⟩ := sees.of_any
  exact ⟨a, sees.of_fact⟩

theorem each {P : α → β → Assertion} (sees : w.Sees (Assertion.each P xs ys))
    (here : xs[i]? = some x) : ∃ y, ys[i]? = some y ∧ w.Sees (P x y) := by
  induction xs generalizing ys i with
  | nil => cases here
  | cons x₀ xs ih =>
      obtain ⟨⟨y, zs⟩, rfl, (seen : w.Sees (P x₀ y * Assertion.each P xs zs))⟩ := of_made sees
      cases i with
      | zero =>
          cases here
          exact ⟨y, rfl, seen.left⟩
      | succ i =>
          obtain ⟨z, there, rest⟩ := ih seen.right here
          exact ⟨z, there, rest⟩

theorem growing {L V : Type} [Leaf L V] [ListLeaf L] {t : Tree L} {vs : List V}
    (sees : w.Sees (t.growing vs)) : w.Sees (t.holds vs) := sees.of_fact.2

end View.Sees

/-- Every column of a table has as many values as the table has rows. -/
theorem Table.column_sees {w : View} {t : Table} {b col : Nat} {x : Sheet} {c : Column Table}
    (sees : w.Sees (t.holds b x)) (here : t.columns[col]? = some c) :
    ∃ y : Values Sheet, y.length = t.size ∧ w.Sees (columnHolds b c y) := by
  obtain ⟨settings, schema, columns, size⟩ := t
  rw [holds, columnsHold_eq] at sees
  obtain ⟨⟨-, same, -⟩, sees⟩ := sees.of_fact
  obtain ⟨y, -, sees⟩ := sees.each here
  obtain ⟨length, sees⟩ := sees.of_fact
  exact ⟨y, length.trans same.symm, sees⟩

theorem Table.size_le_of_sees {w : View} {t : Table} {b : Nat} {x : Sheet}
    (sees : w.Sees (t.holds b x)) : t.size ≤ b := by
  obtain ⟨settings, schema, columns, size⟩ := t
  rw [holds] at sees
  obtain ⟨-, same, most⟩ := sees.of_fact.1
  exact Nat.le_trans (Nat.le_of_eq same) most

/-- A cursor into a column that has a value for each of `size` rows. -/
def Cursor.Reads {L V : Type} [Leaf L V] [ListLeaf L] (w : View) (size : Nat) (t : Tree L)
    (c : Cursor L) : Prop :=
  ∃ vs, w.Sees (t.holds vs) ∧ vs.length = size ∧ c.Valid w vs

theorem StoreM.except_bind_ok {α β : Type} {x : Except Error α} {f : α → StoreM β} {s s' : Store}
    {b : β} : (liftM x >>= f) s = (.ok b, s') ↔ ∃ a, x = .ok a ∧ f a s = (.ok b, s') := by
  rw [StoreM.bind_apply]
  cases x with
  | error e =>
      constructor
      · rintro ⟨⟩
      · rintro ⟨_, ⟨⟩, -⟩
  | ok a =>
      constructor
      · exact fun run => ⟨a, rfl, run⟩
      · rintro ⟨_, ⟨⟩, run⟩
        exact run

theorem StoreM.Keeps.post {α : Type} {I : Store → Prop} {x : StoreM α} {Q Q' : α → Prop}
    (kept : x.Keeps I Q) (weaker : ∀ a, Q a → Q' a) : x.Keeps I Q' :=
  fun s inv => ⟨(kept s inv).1, fun a ok => weaker a ((kept s inv).2 a ok)⟩

theorem StoreM.Keeps.throw {α : Type} {I : Store → Prop} {Q : α → Prop} (e : Error) :
    (throw e : StoreM α).Keeps I Q := by
  refine fun s inv => ⟨inv, ?_⟩
  rintro _ ⟨⟩

theorem StoreM.Keeps.lift {α : Type} {I : Store → Prop} {x : Except Error α} :
    (liftM x : StoreM α).Keeps I fun a => x = .ok a := by
  intro s inv
  cases x with
  | error e => exact throw e s inv
  | ok a => exact ⟨inv, fun _ same => Except.ok.inj same ▸ rfl⟩

namespace Probe

/-! ### Probes -/

/-- A scan over columns with `size` rows, and over tables with at most `b` rows and keys. -/
inductive Ranges (w : View) (b size : Nat) : Scan → Prop where
  | int {col : Nat} {values : IntColumn} {test : Comparison} {needle : Int64} {leafTime : LeafTime}
      {cursor : Cursor Node} (reads : cursor.Reads w size values) :
      Ranges w b size (.int col values test needle leafTime cursor)
  | single {values : ScalarColumn Single} {test : Comparison} {needle : Single}
      {cursor : Cursor (ScalarLeaf Single)} (reads : cursor.Reads w size values) :
      Ranges w b size (.single values test needle cursor)
  | double {values : ScalarColumn Double} {test : Comparison} {needle : Double}
      {cursor : Cursor (ScalarLeaf Double)} (reads : cursor.Reads w size values) :
      Ranges w b size (.double values test needle cursor)
  | bytes {values : BytesColumn} {test : ByteArray → Bool} {cursor : Cursor BytesLeaf}
      (reads : cursor.Reads w size values) : Ranges w b size (.bytes values test cursor)
  | keys {values : IntColumn} {accepted : Array Bool} {cursor : Cursor Node}
      (reads : cursor.Reads w size values) : Ranges w b size (.keys values accepted cursor)
  | word {values : IntColumn} {needle : Int64} {cursor : Cursor Node}
      (reads : cursor.Reads w size values) : Ranges w b size (.word values needle cursor)
  | rows {rows : List Nat} : Ranges w b size (.rows rows)
  | lists {values : LinkListColumn} {target : Nat} : Ranges w b size (.lists values target)
  | intPair {test : Comparison} {left right : IntColumn} {cursors : Cursor Node × Cursor Node}
      (reads : cursors.1.Reads w size left) (reads' : cursors.2.Reads w size right) :
      Ranges w b size (.intPair test left right cursors)
  | singlePair {test : Comparison} {left right : ScalarColumn Single}
      {cursors : Cursor (ScalarLeaf Single) × Cursor (ScalarLeaf Single)} :
      Ranges w b size (.singlePair test left right cursors)
  | doublePair {test : Comparison} {left right : ScalarColumn Double}
      {cursors : Cursor (ScalarLeaf Double) × Cursor (ScalarLeaf Double)} :
      Ranges w b size (.doublePair test left right cursors)
  | compare {test : Comparison} {operands : BoundOperand × BoundOperand} :
      Ranges w b size (.compare test operands)
  | negation {chain : List Probe} {memo : Memo} (each : ∀ p ∈ chain, Ranges w b size p.scan) :
      Ranges w b size (.negation chain memo)
  | disjunction {branches : List (List Probe × Memo)}
      (each : ∀ branch ∈ branches, ∀ p ∈ branch.1, Ranges w b size p.scan) :
      Ranges w b size (.disjunction branches)
  | subtable {cells : List (Option Table)} {settings : QuerySettings} {chain : List Condition}
      (each : ∀ t, some t ∈ cells → ∃ x, w.Sees (t.holds b x)) :
      Ranges w b size (.subtable cells settings chain)

/-- The probe is over the columns of the table, wherever they are seen. -/
def OverColumns (t : Table) (p : Probe) : Prop :=
  ∀ w b x, w.Sees (t.holds b x) → Ranges w b t.size p.scan

section Columns

variable {w : View} {t : Table} {b col : Nat} {x : Sheet} (sees : w.Sees (t.holds b x))
include sees

/-- A new cursor into a column whose values are one of its trees. -/
theorem reads_column {L V C : Type} [Leaf L V] [ListLeaf L] [ColumnType C] [LawfulColumnType C]
    {c : C} {tree : Tree L} {f : List V → Values Sheet} (found : t.columnOf C col = .ok c)
    (same : Table.columnHolds b (ColumnType.toColumn c) = made f tree.growing)
    (length : ∀ vs, (f vs).length = vs.length) : ({} : Cursor L).Reads w t.size tree := by
  obtain ⟨y, size, column⟩ := Table.column_sees sees (Table.columnOf_ok found)
  rw [same] at column
  obtain ⟨vs, rfl, tree⟩ := column.of_made
  exact ⟨vs, tree.growing, (length vs).symm.trans size, Cursor.valid_new w vs⟩

theorem text_seen {c : TextColumn} (found : t.columnOf TextColumn col = .ok c) : ∃ vs keys,
    vs.length = t.size ∧ keys.length ≤ b ∧ w.Sees (c.holds keys vs) := by
  obtain ⟨y, size, column⟩ := Table.column_sees sees (Table.columnOf_ok found)
  obtain ⟨vs, rfl, text⟩ := View.Sees.of_made column
  obtain ⟨keys, stored⟩ := text.of_any
  obtain ⟨few, held⟩ := View.Sees.of_fact stored
  exact ⟨vs, keys, size, few, held⟩

theorem reads_plain {c : PlainColumn} (found : t.columnOf TextColumn col = .ok (.plain c)) :
    ({} : Cursor BytesLeaf).Reads w t.size c.tree := by
  obtain ⟨vs, keys, size, -, text⟩ := text_seen sees found
  obtain ⟨-, tree⟩ := View.Sees.of_fact text
  exact ⟨_, tree, (List.length_map _).trans size, Cursor.valid_new w _⟩

theorem reads_keys {c : EnumColumn} (found : t.columnOf TextColumn col = .ok (.enum c)) :
    ({} : Cursor Node).Reads w t.size c.values := by
  obtain ⟨vs, keys, size, -, text⟩ := text_seen sees found
  obtain ⟨-, stored⟩ := View.Sees.of_fact text
  obtain ⟨-, kept⟩ := View.Sees.of_fact stored
  exact ⟨_, kept.right, (List.length_map _).trans size, Cursor.valid_new w _⟩

theorem cells_seen {c : SubtableColumn Table}
    (found : t.columnOf (SubtableColumn Table) col = .ok c) :
    ∀ sub, some sub ∈ c.cells → ∃ x, w.Sees (sub.holds b x) := by
  intro sub inside
  obtain ⟨y, -, column⟩ := Table.column_sees sees (Table.columnOf_ok found)
  obtain ⟨schema, cells⟩ := c
  obtain ⟨xs, -, tables⟩ := View.Sees.of_made column
  rw [Table.cellsHold_eq] at tables
  obtain ⟨row, here⟩ := List.getElem?_of_mem inside
  obtain ⟨_, -, cell⟩ := tables.each here
  obtain ⟨x, -, table⟩ := View.Sees.of_made cell
  exact ⟨x, table⟩

end Columns

/-! ### Binding -/

section

variable {R : Assertion} (t : Table)

theorem bindText_keeps (col : Nat) (test : ByteArray → Bool) :
    (bindText t col test).Keeps (·.Holds R) (OverColumns t) := by
  refine StoreM.Keeps.lift.bind fun c found => ?_
  cases c with
  | plain c => exact .pure fun w b x sees => .bytes (reads_plain sees found)
  | enum c =>
      refine StoreM.Spares.seq (.read _) fun keys => .pure fun w b x sees => ?_
      exact .keys (reads_keys sees found)

theorem bindExactText_keeps (col : Nat) (needle : ByteArray) :
    (bindExactText t col needle).Keeps (·.Holds R) (OverColumns t) := by
  refine StoreM.Keeps.lift.bind fun c found => ?_
  dsimp only
  split
  · exact .pure fun w b x sees => .rows
  · exact .pure fun w b x sees => .bytes (reads_plain sees found)
  · refine StoreM.Spares.seq (.read _) fun key => ?_
    cases key with
    | none => exact .pure fun w b x sees => .rows
    | some key => exact .pure fun w b x sees => .word (reads_keys sees found)

theorem bindLinks_keeps (col : Nat) (target : Option Nat) :
    (bindLinks t col target).Keeps (·.Holds R) (OverColumns t) := by
  refine StoreM.Keeps.lift.bind fun c found => ?_
  cases c with
  | link c =>
      have found : t.columnOf LinkColumn col = .ok c := by
        rw [Table.columnOf, found]
        rfl
      exact .pure fun w b x sees => .word (reads_column sees (f := .link) found rfl fun _ => rfl)
  | linkList c => exact .pure fun w b x sees => .lists
  | _ => exact .throw _

theorem bindColumns_ok {type : NumberType} {test : Comparison} {left right : Nat} {p : Probe}
    (bound : bindColumns t type test left right = .ok p) : OverColumns t p := by
  intro w b x sees
  cases type with
  | int =>
      rcases first : t.columnOf IntColumn left with e | c <;>
        rcases second : t.columnOf IntColumn right with e | d <;>
        simp only [bindColumns, first, second] at bound <;> cases bound
      exact .intPair (reads_column sees (f := .int) first rfl fun _ => rfl)
        (reads_column sees (f := .int) second rfl fun _ => rfl)
  | single =>
      rcases first : t.columnOf (ScalarColumn Single) left with e | c <;>
        rcases second : t.columnOf (ScalarColumn Single) right with e | d <;>
        simp only [bindColumns, first, second] at bound <;> cases bound
      exact .singlePair
  | double =>
      rcases first : t.columnOf (ScalarColumn Double) left with e | c <;>
        rcases second : t.columnOf (ScalarColumn Double) right with e | d <;>
        simp only [bindColumns, first, second] at bound <;> cases bound
      exact .doublePair

end

mutual

/-- Prototypes of subtables, which are of no view, are bound to as well. -/
theorem bind_keeps (settings : QuerySettings) (t : Table) (c : Condition) {R : Assertion} :
    (bind settings t c).Keeps (·.Holds R) (OverColumns t) := by
  match c with
  | .int col test needle =>
      refine StoreM.Keeps.lift.bind fun c found => .pure fun w b x sees => ?_
      exact .int (reads_column sees (f := .int) found rfl fun _ => rfl)
  | .single col test needle =>
      refine StoreM.Keeps.lift.bind fun c found => .pure fun w b x sees => ?_
      exact .single (reads_column sees (f := .single) found rfl fun _ => rfl)
  | .double col test needle =>
      refine StoreM.Keeps.lift.bind fun c found => .pure fun w b x sees => ?_
      exact .double (reads_column sees (f := .double) found rfl fun _ => rfl)
  | .exactText col needle => exact bindExactText_keeps t col needle
  | .text col test caseSensitive needle => exact bindText_keeps t col _
  | .bytes col test needle =>
      refine StoreM.Keeps.lift.bind fun c found => .pure fun w b x sees => ?_
      exact .bytes (reads_column sees (f := .bytes) found rfl fun _ => rfl)
  | .columns type test left right =>
      exact (StoreM.Keeps.lift (x := bindColumns t type test left right)).post
        fun p bound => bindColumns_ok t bound
  | .linksTo col target => exact bindLinks_keeps t col target
  | .compare test left right =>
      refine StoreM.Keeps.lift.bind fun left _ => StoreM.Keeps.lift.bind fun right _ => ?_
      exact .pure fun w b x sees => .compare
  | .negation chain =>
      refine (bindChain_keeps settings t chain).bind fun probes bound => .pure fun w b x sees => ?_
      exact .negation fun p inside => bound p inside w b x sees
  | .disjunction branches =>
      refine (bindBranches_keeps settings t branches).bind fun bound columns =>
        .pure fun w b x sees => ?_
      exact .disjunction fun branch inside p there => columns branch inside p there w b x sees
  | .subtable col chain =>
      refine StoreM.Keeps.lift.bind fun c found => ?_
      have spared : (withPrototype t.settings c.schema fun t => bindChain settings t chain).Spares
          (·.Holds R) := withPrototype_spares fun sub _ =>
          (bindChain_keeps settings sub chain).spares
      exact spared.seq fun _ => .pure fun w b x sees => .subtable (cells_seen sees found)

theorem bindChain_keeps (settings : QuerySettings) (t : Table) (chain : List Condition)
    {R : Assertion} :
    (bindChain settings t chain).Keeps (·.Holds R) fun ps => ∀ p ∈ ps, OverColumns t p := by
  match chain with
  | [] => exact .pure (List.forall_mem_nil _)
  | c :: cs =>
      refine (bind_keeps settings t c).bind fun p here =>
        (bindChain_keeps settings t cs).bind fun ps rest => ?_
      exact .pure (List.forall_mem_cons.mpr ⟨here, rest⟩)

theorem bindBranches_keeps (settings : QuerySettings) (t : Table)
    (branches : List (List Condition)) {R : Assertion} :
    (bindBranches settings t branches).Keeps (·.Holds R) fun bs =>
      ∀ branch ∈ bs, ∀ p ∈ branch.1, OverColumns t p := by
  match branches with
  | [] => exact .pure (List.forall_mem_nil _)
  | chain :: rest =>
      refine (bindChain_keeps settings t chain).bind fun ps here =>
        (bindBranches_keeps settings t rest).bind fun bs later => ?_
      exact .pure (List.forall_mem_cons.mpr ⟨here, later⟩)

end

end Probe

end ColumnStore
