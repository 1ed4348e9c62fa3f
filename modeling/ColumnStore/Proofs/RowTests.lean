import ColumnStore.Proofs.Cursors
import ColumnStore.Proofs.Interchange
import ColumnStore.Proofs.Memos

set_option autoImplicit false

/-!
Conditions on cells. What they find leaf by leaf is what testing the cells row by row finds,
whatever their cursors remember of earlier searches.
-/
namespace ColumnStore

open Assertion (fact any made)

namespace Condition

/-- The condition is on numbers, text or bytes in the cells of a row. -/
def OnCells : Condition → Prop
  | int .. | single .. | double .. | exactText .. | text .. | bytes .. | columns .. => True
  | linksTo .. | compare .. | negation _ | disjunction _ | subtable .. => False

/-- Whether a condition on cells holds at a row, read from the table. -/
def holdsAt (m : Memory) (t : Table) (row : Nat) : Condition → Bool
  | int col test needle => (t.getInt m col row).toOption.any (test.int · needle)
  | single col test needle => (t.getSingle m col row).toOption.any (Scalar.holds test · needle)
  | double col test needle => (t.getDouble m col row).toOption.any (Scalar.holds test · needle)
  | exactText col needle => (t.getString m col row).toOption.any (Text.encode · == needle)
  | text col test caseSensitive needle =>
      (t.getString m col row).toOption.any fun v =>
        (Needle.new needle).test test caseSensitive (Text.encode v)
  | bytes col test needle =>
      (t.getBytes m col row).toOption.any ((Needle.new needle).test test true)
  | columns .int test left right =>
      (t.getInt m left row).toOption.any fun v => (t.getInt m right row).toOption.any (test.int v)
  | columns .single test left right =>
      (t.getSingle m left row).toOption.any fun v =>
        (t.getSingle m right row).toOption.any (Scalar.holds test v)
  | columns .double test left right =>
      (t.getDouble m left row).toOption.any fun v =>
        (t.getDouble m right row).toOption.any (Scalar.holds test v)
  | _ => false

end Condition

/-! ### Scans -/

namespace Probe

/-- What a scan over columns with `size` rows tests each row for. -/
inductive Tests (s : Store) (size : Nat) : (Nat → Bool) → Scan → Prop where
  | int {col : Nat} {values : IntColumn} {test : Comparison} {needle : Int64} {leafTime : LeafTime}
      {cursor : Cursor Node} (reads : cursor.Reads s.view size values) :
      Tests s size (fun row => test.int (values.get s.memory row) needle)
        (.int col values test needle leafTime cursor)
  | single {values : ScalarColumn Single} {test : Comparison} {needle : Single}
      {cursor : Cursor (ScalarLeaf Single)} (reads : cursor.Reads s.view size values) :
      Tests s size (fun row => Scalar.holds test (values.get s.memory row) needle)
        (.single values test needle cursor)
  | double {values : ScalarColumn Double} {test : Comparison} {needle : Double}
      {cursor : Cursor (ScalarLeaf Double)} (reads : cursor.Reads s.view size values) :
      Tests s size (fun row => Scalar.holds test (values.get s.memory row) needle)
        (.double values test needle cursor)
  | bytes {values : BytesColumn} {test : ByteArray → Bool} {cursor : Cursor BytesLeaf}
      (reads : cursor.Reads s.view size values) :
      Tests s size (fun row => test (values.get s.memory row)) (.bytes values test cursor)
  | keys {values : IntColumn} {accepted : Array Bool} {cursor : Cursor Node}
      (reads : cursor.Reads s.view size values) :
      Tests s size (fun row => accepted.getD (values.get s.memory row).toUInt64.toNat false)
        (.keys values accepted cursor)
  | word {values : IntColumn} {needle : Int64} {cursor : Cursor Node}
      (reads : cursor.Reads s.view size values) :
      Tests s size (fun row => Comparison.int .equal (values.get s.memory row) needle)
        (.word values needle cursor)
  | rows {rows : List Nat} (ascends : rows.Pairwise (· < ·)) :
      Tests s size (fun row => decide (row ∈ rows)) (.rows rows)
  | lists {values : LinkListColumn} {target : Nat} :
      Tests s size (fun row => values.contains s.memory row target) (.lists values target)
  | intPair {test : Comparison} {left right : IntColumn} {cursors : Cursor Node × Cursor Node}
      (reads : cursors.1.Reads s.view size left) (reads' : cursors.2.Reads s.view size right) :
      Tests s size (fun row => test.int (left.get s.memory row) (right.get s.memory row))
        (.intPair test left right cursors)
  | singlePair {test : Comparison} {left right : ScalarColumn Single}
      {cursors : Cursor (ScalarLeaf Single) × Cursor (ScalarLeaf Single)}
      (reads : cursors.1.Reads s.view size left) (reads' : cursors.2.Reads s.view size right) :
      Tests s size (fun row => Scalar.holds test (left.get s.memory row) (right.get s.memory row))
        (.singlePair test left right cursors)
  | doublePair {test : Comparison} {left right : ScalarColumn Double}
      {cursors : Cursor (ScalarLeaf Double) × Cursor (ScalarLeaf Double)}
      (reads : cursors.1.Reads s.view size left) (reads' : cursors.2.Reads s.view size right) :
      Tests s size (fun row => Scalar.holds test (left.get s.memory row) (right.get s.memory row))
        (.doublePair test left right cursors)

variable {s s' : Store} {t : Table} {b size start stop : Nat} {x : Sheet} {q : Nat → Bool}
  {scan : Scan} {p : Probe}

/-- A search leaves the store alone and a scan that tests for the same. -/
theorem findScan_tests (search : ChainSearch) (small : size < Slot.countBound)
    (inside : stop ≤ size) (tests : Tests s size q scan) :
    Ensures (· = s) (findScan search start stop scan) fun out s' =>
      s' = s ∧ Tests s size q out.2 ∧ First q start stop out.1 := by
  rintro s rfl
  have same := s.view.same_self
  cases tests with
  | int reads =>
      obtain ⟨reads, first⟩ := reads.findInt same small inside _ _
      exact ⟨rfl, .int reads, first⟩
  | @single _ test needle _ reads =>
      obtain ⟨reads, first⟩ := reads.findWhere same small inside (Scalar.holds test · needle)
      exact ⟨rfl, .single reads, first⟩
  | @double _ test needle _ reads =>
      obtain ⟨reads, first⟩ := reads.findWhere same small inside (Scalar.holds test · needle)
      exact ⟨rfl, .double reads, first⟩
  | bytes reads =>
      obtain ⟨reads, first⟩ := reads.findWhere same small inside _
      exact ⟨rfl, .bytes reads, first⟩
  | @keys _ accepted _ reads =>
      obtain ⟨reads, first⟩ := reads.findWhere same small inside fun v : Int64 =>
        accepted.getD v.toUInt64.toNat false
      exact ⟨rfl, .keys reads, first⟩
  | word reads =>
      obtain ⟨reads, first⟩ := reads.findInt same small inside _ _
      exact ⟨rfl, .word reads, first⟩
  | rows ascends => exact ⟨rfl, .rows ascends, rows_first ascends start stop⟩
  | lists => exact ⟨rfl, .lists, firstWhere_between _ start stop⟩
  | intPair reads reads' =>
      obtain ⟨reads, reads', first⟩ := reads.findIntPair same small reads' inside _
      exact ⟨rfl, .intPair reads reads', first⟩
  | singlePair reads reads' =>
      obtain ⟨reads, reads', first⟩ := reads.findPair same small reads' inside _
      exact ⟨rfl, .singlePair reads reads', first⟩
  | doublePair reads reads' =>
      obtain ⟨reads, reads', first⟩ := reads.findPair same small reads' inside _
      exact ⟨rfl, .doublePair reads reads', first⟩

/-- The probe tests every row as `q` does. -/
def Means (s : Store) (size : Nat) (q : Nat → Bool) (p : Probe) : Prop :=
  ∃ q', Tests s size q' p.scan ∧ ∀ row < size, q row = q' row

theorem means_lawful (search : ChainSearch) (small : size < Slot.countBound) :
    (prober search).Lawful (· = s) (Means s size) size where
  find q p start stop inside means := by
    obtain ⟨q', tests, same⟩ := means
    rw [show (prober search).find = find search from rfl, find]
    refine (findScan_tests search small inside tests).bind fun out => .pure ?_
    rintro s' ⟨kept, tests, first⟩
    exact ⟨kept, ⟨q', tests, same⟩, first.congr inside same⟩
  setStats _ _ _ means := means

end Probe

/-! ### Binding -/

theorem Needle.encode_beq (v : String) (needle : ByteArray) :
    (Text.encode v == needle) = (Needle.new needle).text?.any (v == ·) := by
  rw [Bool.eq_iff_iff, Text.bytes_beq, eq_comm, ← Text.text_eq_some, Option.any_eq_true]
  exact ⟨fun text => ⟨v, text, beq_self_eq_true v⟩, fun ⟨w, text, same⟩ => eq_of_beq same ▸ text⟩

/-- No text is in no row. -/
theorem SearchIndex.Mirrors.text_rows {x : SearchIndex} {vs : List String} (mirrors : x.Mirrors vs)
    (text : Option String) : Ascending.Lists ((text.map x.rows).getD []) fun row =>
      ∃ v, text = some v ∧ vs[row]? = some v := by
  cases text with
  | none => exact ⟨.nil, fun row => by simp⟩
  | some v => exact (mirrors.rows v).congr fun row => by simp

namespace Probe

variable {s s' : Store} {t : Table} {b : Nat} {x : Sheet} {p : Probe}

theorem ok_any {α : Type} {x : Except Error α} {a : α} (ok : x = .ok a) (test : α → Bool) :
    x.toOption.any test = test a := by
  rw [ok]
  rfl

section

variable {col : Nat} (sees : s.view.Sees (t.holds b x)) (small : b < Slot.countBound)
include sees small

/-- The texts of a column are what is read from it. -/
theorem texts_read {c : TextColumn} (found : t.columnOf TextColumn col = .ok c) :
    ∃ vs keys own, vs.length = t.size ∧ vs.length < Slot.countBound ∧
      keys.length < Slot.countBound ∧ (c.holds keys vs).holds s.memory s.view.base own ∧
      ∀ row (inside : row < vs.length), t.getString s.memory col row = .ok vs[row] := by
  obtain ⟨vs, keys, size, few, own, -, held⟩ := text_seen sees found
  have most := Nat.lt_of_le_of_lt (Table.size_le_of_sees sees) small
  refine ⟨vs, keys, own, size, size ▸ most, Nat.lt_of_le_of_lt few small, held, ?_⟩
  intro row inside
  rw [Table.getString, Table.cell_eq found (size ▸ inside)]
  exact congrArg Except.ok
    (TextColumn.get_of_holds held (Nat.lt_of_le_of_lt few small) (size ▸ most) inside)

theorem bindText_means {test : ByteArray → Bool} (run : bindText t col test s = (.ok p, s')) :
    s' = s ∧ Means s t.size
      (fun row => (t.getString s.memory col row).toOption.any fun v => test (Text.encode v)) p := by
  obtain ⟨c, found, run⟩ := StoreM.except_bind_ok.mp run
  obtain ⟨vs, keys, own, size, short, few, held, read⟩ := texts_read sees small found
  cases c with
  | plain c =>
      obtain ⟨rfl, rfl⟩ := StoreM.pure_ok.mp run
      refine ⟨rfl, _, .bytes (reads_plain sees found), fun row inside => ?_⟩
      have inside : row < vs.length := size ▸ inside
      rw [PlainColumn.bytes_of_holds held short inside]
      exact ok_any (read row inside) _
  | enum c =>
      obtain ⟨-, stored⟩ := Assertion.fact_mul.mp held
      obtain ⟨_, known⟩ := EnumColumn.keys_of_stored stored
      obtain ⟨_, _, ⟨⟩, run⟩ := StoreM.bind_ok.mp run
      obtain ⟨rfl, rfl⟩ := StoreM.pure_ok.mp run
      refine ⟨rfl, _, .keys (reads_keys sees found), fun row inside => ?_⟩
      have inside : row < vs.length := size ▸ inside
      have here := EnumColumn.covered_of_stored stored vs[row] (List.getElem_mem inside)
      rw [EnumColumn.value_of_stored stored short inside, ofNat_idxOf few]
      refine (ok_any (read row inside) _).trans ?_
      simp [PlainColumn.toList_of_holds known few, List.idxOf_lt_length_of_mem here]

theorem bindExactText_means {needle : ByteArray}
    (run : bindExactText t col needle s = (.ok p, s')) :
    s' = s ∧ Means s t.size
      (fun row => (t.getString s.memory col row).toOption.any (Text.encode · == needle)) p := by
  obtain ⟨c, found, run⟩ := StoreM.except_bind_ok.mp run
  obtain ⟨vs, keys, own, size, short, few, held, read⟩ := texts_read sees small found
  have tests (row : Nat) (inside : row < vs.length) :
      (t.getString s.memory col row).toOption.any (Text.encode · == needle) =
        (Needle.new needle).text?.any (vs[row] == ·) := by
    rw [ok_any (read row inside), Needle.encode_beq]
  rcases indexed : c.index? with _ | index <;> rw [indexed] at run
  · cases c with
    | plain c =>
        obtain ⟨rfl, rfl⟩ := StoreM.pure_ok.mp run
        refine ⟨rfl, _, .bytes (reads_plain sees found), fun row inside => ?_⟩
        have inside : row < vs.length := size ▸ inside
        rw [PlainColumn.bytes_of_holds held short inside]
        exact ok_any (read row inside) _
    | enum c =>
        -- Rows are compared by their keys; a needle that is no key is in no row.
        obtain ⟨-, stored⟩ := Assertion.fact_mul.mp held
        simp only [StoreM.read_bind] at run
        cases text : (Needle.new needle).text? with
        | none =>
            rw [text] at run tests
            obtain ⟨rfl, rfl⟩ := StoreM.pure_ok.mp run
            exact ⟨rfl, _, .rows .nil, fun row inside => tests row (size ▸ inside)⟩
        | some v =>
            rw [text, Option.bind_some, EnumColumn.findKey_of_stored stored few] at run
            rw [text] at tests
            by_cases known : v ∈ keys
            · rw [if_pos known] at run
              obtain ⟨rfl, rfl⟩ := StoreM.pure_ok.mp run
              refine ⟨rfl, _, .word (reads_keys sees found), fun row inside => ?_⟩
              have inside : row < vs.length := size ▸ inside
              rw [EnumColumn.value_of_stored stored short inside]
              exact (tests row inside).trans (ofNat_idxOf_beq few known).symm
            · rw [if_neg known] at run
              obtain ⟨rfl, rfl⟩ := StoreM.pure_ok.mp run
              refine ⟨rfl, _, .rows .nil, fun row inside => ?_⟩
              have inside : row < vs.length := size ▸ inside
              refine (tests row inside).trans (beq_false_of_ne ?_)
              rintro rfl
              exact known (EnumColumn.covered_of_stored stored _ (List.getElem_mem inside))
  · -- The index has the rows of the needle.
    obtain ⟨rfl, rfl⟩ := StoreM.pure_ok.mp run
    have mirrors : index.Mirrors vs := TextColumn.indexes_of_holds held index indexed
    obtain ⟨ascends, mem⟩ := mirrors.text_rows (Needle.new needle).text?
    refine ⟨rfl, _, .rows ascends, fun row inside => ?_⟩
    have inside : row < vs.length := size ▸ inside
    refine (tests row inside).trans ?_
    rw [Bool.eq_iff_iff, decide_eq_true_iff, mem, List.getElem?_eq_getElem inside,
      Option.any_eq_true]
    simp only [beq_iff_eq, Option.some.injEq]

omit small in
theorem bindColumns_means {type : NumberType} {test : Comparison} {left right : Nat}
    (bound : bindColumns t type test left right = .ok p) :
    Means s t.size (fun row => (Condition.columns type test left right).holdsAt s.memory t row)
      p := by
  cases type with
  | int =>
      rcases first : t.columnOf IntColumn left with e | c <;>
        rcases second : t.columnOf IntColumn right with e | d <;>
        simp only [bindColumns, first, second] at bound <;> cases bound
      refine ⟨_, .intPair (reads_column sees (f := .int) first rfl fun _ => rfl)
        (reads_column sees (f := .int) second rfl fun _ => rfl), fun row inside => ?_⟩
      exact (ok_any (Table.cell_eq first inside) _).trans (ok_any (Table.cell_eq second inside) _)
  | single =>
      rcases first : t.columnOf (ScalarColumn Single) left with e | c <;>
        rcases second : t.columnOf (ScalarColumn Single) right with e | d <;>
        simp only [bindColumns, first, second] at bound <;> cases bound
      refine ⟨_, .singlePair (reads_column sees (f := .single) first rfl fun _ => rfl)
        (reads_column sees (f := .single) second rfl fun _ => rfl), fun row inside => ?_⟩
      exact (ok_any (Table.cell_eq first inside) _).trans (ok_any (Table.cell_eq second inside) _)
  | double =>
      rcases first : t.columnOf (ScalarColumn Double) left with e | c <;>
        rcases second : t.columnOf (ScalarColumn Double) right with e | d <;>
        simp only [bindColumns, first, second] at bound <;> cases bound
      refine ⟨_, .doublePair (reads_column sees (f := .double) first rfl fun _ => rfl)
        (reads_column sees (f := .double) second rfl fun _ => rfl), fun row inside => ?_⟩
      exact (ok_any (Table.cell_eq first inside) _).trans (ok_any (Table.cell_eq second inside) _)

/-- Binding a condition on cells only reads. -/
theorem bind_means {config : QuerySettings} {c : Condition} (onCells : c.OnCells)
    (run : bind config t c s = (.ok p, s')) :
    s' = s ∧ Means s t.size (fun row => c.holdsAt s.memory t row) p := by
  cases c with
  | int col test needle =>
      obtain ⟨c, found, run⟩ := StoreM.except_bind_ok.mp run
      obtain ⟨rfl, rfl⟩ := StoreM.pure_ok.mp run
      refine ⟨rfl, _, .int (reads_column sees (f := .int) found rfl fun _ => rfl), ?_⟩
      exact fun row inside => ok_any (Table.cell_eq found inside) _
  | single col test needle =>
      obtain ⟨c, found, run⟩ := StoreM.except_bind_ok.mp run
      obtain ⟨rfl, rfl⟩ := StoreM.pure_ok.mp run
      refine ⟨rfl, _, .single (reads_column sees (f := .single) found rfl fun _ => rfl), ?_⟩
      exact fun row inside => ok_any (Table.cell_eq found inside) _
  | double col test needle =>
      obtain ⟨c, found, run⟩ := StoreM.except_bind_ok.mp run
      obtain ⟨rfl, rfl⟩ := StoreM.pure_ok.mp run
      refine ⟨rfl, _, .double (reads_column sees (f := .double) found rfl fun _ => rfl), ?_⟩
      exact fun row inside => ok_any (Table.cell_eq found inside) _
  | exactText col needle => exact bindExactText_means sees small run
  | text col test caseSensitive needle => exact bindText_means sees small run
  | bytes col test needle =>
      obtain ⟨c, found, run⟩ := StoreM.except_bind_ok.mp run
      obtain ⟨rfl, rfl⟩ := StoreM.pure_ok.mp run
      refine ⟨rfl, _, .bytes (reads_column sees (f := .bytes) found rfl fun _ => rfl), ?_⟩
      exact fun row inside => ok_any (Table.cell_eq found inside) _
  | columns type test left right =>
      rw [bind, ← bind_pure (liftM _)] at run
      obtain ⟨p', bound, run⟩ := StoreM.except_bind_ok.mp run
      obtain ⟨rfl, rfl⟩ := StoreM.pure_ok.mp run
      exact ⟨rfl, bindColumns_means sees bound⟩
  | _ => exact onCells.elim

theorem bindChain_means {config : QuerySettings} {chain : List Condition} {probes : List Probe}
    (onCells : ∀ c ∈ chain, c.OnCells)
    (run : bindChain config t chain s = (.ok probes, s')) : s' = s ∧
      List.Forall₂ (Means s t.size) (chain.map fun c row => c.holdsAt s.memory t row) probes := by
  induction chain generalizing probes s' with
  | nil =>
      rw [bindChain] at run
      obtain ⟨rfl, rfl⟩ := StoreM.pure_ok.mp run
      exact ⟨rfl, .nil⟩
  | cons c chain ih =>
      obtain ⟨here, later⟩ := List.forall_mem_cons.mp onCells
      rw [bindChain] at run
      obtain ⟨p, _, first, next⟩ := StoreM.bind_ok.mp run
      obtain ⟨rfl, means⟩ := bind_means sees small here first
      obtain ⟨ps, _, bound, last⟩ := StoreM.bind_ok.mp next
      obtain ⟨rfl, rest⟩ := ih later bound
      obtain ⟨rfl, rfl⟩ := StoreM.pure_ok.mp last
      exact ⟨rfl, .cons means rest⟩

end

end Probe

/-! ### Searches one after the other -/

namespace Prober

variable {ν σ : Type} {p : Prober ν σ} {I : σ → Prop} {M : (Nat → Bool) → ν → Prop}
  {qs : List (Nat → Bool)} {size : Nat}

/-- A search of a range of rows by one condition of a chain. -/
structure Call where
  condition : Nat
  start : Nat
  stop : Nat

/-- Every condition remembers what it did in earlier calls. -/
def answerEach (p : Prober ν σ) : List Call → StateM (List ν × σ) (List (Option Nat))
  | [] => return []
  | call :: calls => do
      let r ← p.findAt call.condition call.start call.stop
      return r :: (← answerEach p calls)

theorem answerEach_ensures (lawful : p.Lawful I M size) {calls : List Call}
    (inside : ∀ call ∈ calls, call.condition < qs.length ∧ call.stop ≤ size) :
    Ensures (Knows I M qs) (p.answerEach calls) fun rs c => Knows I M qs c ∧
      List.Forall₂ (fun call r => ∃ q, qs[call.condition]? = some q ∧
        First q call.start call.stop r) calls rs := by
  induction calls with
  | nil => exact .pure fun _ known => ⟨known, .nil⟩
  | cons call calls ih =>
      obtain ⟨⟨here, within⟩, later⟩ := List.forall_mem_cons.mp inside
      have known := List.getElem?_eq_getElem here
      rw [answerEach]
      refine (findAt_ensures lawful known within).bind fun r => ?_
      refine .of_result fun first => (ih later).bind fun rs => ?_
      exact .pure fun _ rest => ⟨rest.1, .cons ⟨_, known, first⟩ rest.2⟩

end Prober

/-! ### Trees of a table -/

/-- A tree with one value for each row of a table. -/
inductive Table.HasTree (t : Table) :
    {L V : Type} → [Leaf L V] → [ListLeaf L] → Tree L → Prop where
  | int {c : IntColumn} {col : Nat} (found : t.columnOf IntColumn col = .ok c) : HasTree t c
  | single {c : ScalarColumn Single} {col : Nat}
      (found : t.columnOf (ScalarColumn Single) col = .ok c) : HasTree t c
  | double {c : ScalarColumn Double} {col : Nat}
      (found : t.columnOf (ScalarColumn Double) col = .ok c) : HasTree t c
  | text {c : PlainColumn} {col : Nat} (found : t.columnOf TextColumn col = .ok (.plain c)) :
      HasTree t c.tree
  | keys {c : EnumColumn} {col : Nat} (found : t.columnOf TextColumn col = .ok (.enum c)) :
      HasTree t c.values
  | bytes {c : BytesColumn} {col : Nat} (found : t.columnOf BytesColumn col = .ok c) : HasTree t c
  | link {c : LinkColumn} {col : Nat} (found : t.columnOf LinkColumn col = .ok c) :
      HasTree t c.values
  | linkList {c : LinkListColumn} {col : Nat} (found : t.columnOf LinkListColumn col = .ok c) :
      HasTree t c.lists

theorem Table.HasTree.reads {w : View} {t : Table} {b : Nat} {x : Sheet}
    (sees : w.Sees (t.holds b x)) {L V : Type} [Leaf L V] [ListLeaf L] {tree : Tree L}
    (inTable : t.HasTree tree) : ({} : Cursor L).Reads w t.size tree := by
  cases inTable with
  | int found => exact Probe.reads_column sees (f := .int) found rfl fun _ => rfl
  | single found => exact Probe.reads_column sees (f := .single) found rfl fun _ => rfl
  | double found => exact Probe.reads_column sees (f := .double) found rfl fun _ => rfl
  | text found => exact Probe.reads_plain sees found
  | keys found => exact Probe.reads_keys sees found
  | bytes found => exact Probe.reads_column sees (f := .bytes) found rfl fun _ => rfl
  | link found => exact Probe.reads_column sees (f := .link) found rfl fun _ => rfl
  | linkList found =>
      obtain ⟨y, size, column⟩ := Table.column_sees sees (Table.columnOf_ok found)
      obtain ⟨lists, rfl, held⟩ := View.Sees.of_made column
      obtain ⟨vs, slots⟩ := View.Sees.of_any held
      obtain ⟨⟨-, length⟩, slots⟩ := View.Sees.of_fact slots
      exact ⟨vs, slots.left, length.trans size, Cursor.valid_new w vs⟩

namespace Cursor

variable {L V : Type} [Leaf L V] [ListLeaf L] {w : View} {t : Tree L} {m : Memory} {c : Cursor L}
  {size : Nat}

/-- A cursor that went from row to row in any order, as reads and searches make it go. -/
inductive Used (m : Memory) (t : Tree L) (size : Nat) : Cursor L → Prop where
  | new : Used m t size {}
  | moved {c : Cursor L} {row : Nat} (used : Used m t size c) (inside : row < size) :
      Used m t size (c.leafFor m t row).2

theorem Used.reads (used : c.Used m t size) (reads : ({} : Cursor L).Reads w size t)
    (same : w.Same m) (small : size < Slot.countBound) : c.Reads w size t := by
  induction used with
  | new => exact reads
  | moved _ inside ih => exact ih.leafFor same small inside

end Cursor

/-! ### Tables -/

/-- Conditions on the cells of a table, asked in any order for any ranges, find the first row of the
range that holds when the cells are read one by one; and a cursor reads from every row what its
tree has there, wherever it was before. -/
theorem Table.searches_rowwise {settings : StoreSettings} {schema : List ColumnSpec}
    {ops : List Table.Op} {s s' : Store} {t : Table} {config : QuerySettings}
    {chain : List Condition} {probes : List Probe} {calls : List Prober.Call}
    (max : settings.maxNodeSize < 2 ^ 24 - 2) (built : Table.Built settings schema ops s t)
    (short : Table.Short ops (.ofSchema schema)) (few : Table.weight ops < Slot.countBound)
    (onCells : ∀ c ∈ chain, c.OnCells)
    (bound : Probe.bindChain config t chain s = (.ok probes, s')) (search : Probe.ChainSearch)
    (inside : ∀ call ∈ calls, call.condition < chain.length ∧ call.stop ≤ t.size) :
    s' = s ∧
      List.Forall₂ (fun call r => ∃ c, chain[call.condition]? = some c ∧
          First (fun row => c.holdsAt s.memory t row) call.start call.stop r)
        calls ((Probe.prober search).answerEach calls (probes, s')).1 ∧
      ∀ {L V : Type} [Leaf L V] [ListLeaf L] (tree : Tree L) (c : Cursor L), t.HasTree tree →
        c.Used s.memory tree t.size → ∀ row < t.size,
          (c.get s.memory tree row).1 = tree.get s.memory row := by
  have sees := (built.holds max short few).sees
  have same := s.view.same_self
  have small := Nat.lt_of_le_of_lt (Table.size_le_of_sees sees) few
  obtain ⟨rfl, means⟩ := Probe.bindChain_means sees few onCells bound
  refine ⟨rfl, ?_, fun tree c inTable used row here => ?_⟩
  · have lawful := Probe.means_lawful (s := s') search small
    have known : Prober.Knows (· = s') (Probe.Means s' t.size)
        (chain.map fun c row => c.holdsAt s'.memory t row) (probes, s') := ⟨rfl, means⟩
    have within : ∀ call ∈ calls, call.condition <
        (chain.map fun c row => c.holdsAt s'.memory t row).length ∧ call.stop ≤ t.size := by
      simpa using inside
    have answers := Prober.answerEach_ensures lawful within _ known
    refine answers.2.imp fun call r found => ?_
    obtain ⟨q, known, first⟩ := found
    rw [List.getElem?_map] at known
    obtain ⟨c, here, rfl⟩ := Option.map_eq_some_iff.mp known
    exact ⟨c, here, first⟩
  · exact ((used.reads (inTable.reads sees) same small).get same small here).1

def twoNumbers : List ColumnSpec :=
  [{ name := "left", kind := .int }, { name := "right", kind := .int }]

/-- The numbers of one column need more bits than those of the other. -/
def numberOps : List Table.Op := [.addRows 4, .setInt 0 2 1, .setInt 1 3 300]

def numberTests : List Condition := [.columns .int .greater 0 1, .int 1 .less 300]

/-- Each condition is asked again for earlier rows. -/
def numberCalls : List Prober.Call := [⟨0, 0, 4⟩, ⟨1, 3, 4⟩, ⟨0, 0, 2⟩, ⟨1, 1, 4⟩]

theorem Table.searches_rowwise_numbers : ∃ s t probes,
    Table.Built { maxNodeSize := 16 } twoNumbers numberOps s t ∧
      Probe.bindChain {} t numberTests s = (.ok probes, s) ∧
      ((Probe.prober (Probe.searchChain 1)).answerEach numberCalls (probes, s)).1 =
        [some 2, none, none, some 1] ∧
      List.Forall₂ (fun call r => ∃ c, numberTests[call.condition]? = some c ∧
          First (fun row => c.holdsAt s.memory t row) call.start call.stop r)
        numberCalls [some 2, none, none, some 1] := by
  have answers : ((Table.ofOps { maxNodeSize := 16 } twoNumbers numberOps >>= fun t =>
      Probe.bindChain {} t numberTests >>= fun probes s =>
        (.ok (t.size, ((Probe.prober (Probe.searchChain 1)).answerEach numberCalls (probes, s)).1),
          s)) (.empty {})).1.toOption = some (4, [some 2, none, none, some 1]) := by decide +kernel
  rw [StoreM.bind_apply] at answers
  cases made : Table.ofOps { maxNodeSize := 16 } twoNumbers numberOps (.empty {}) with
  | mk r s =>
      rw [made] at answers
      cases r with
      | error e => cases answers
      | ok t =>
          have built := Table.ofOps_built (Store.sound_empty {}) made
          simp only [StoreM.bind_apply] at answers
          cases binds : Probe.bindChain {} t numberTests s with
          | mk r s' =>
              rw [binds] at answers
              cases r with
              | error e => cases answers
              | ok probes =>
                  obtain ⟨size, found⟩ := Prod.mk.inj (Option.some.inj answers)
                  have short : Table.Short numberOps (.ofSchema twoNumbers) :=
                    ⟨trivial, trivial, trivial, trivial⟩
                  have onCells : ∀ c ∈ numberTests, c.OnCells := by
                    simp [numberTests, Condition.OnCells]
                  have inside : ∀ call ∈ numberCalls,
                      call.condition < numberTests.length ∧ call.stop ≤ t.size := by
                    rw [size]
                    decide
                  obtain ⟨rfl, rowwise, -⟩ := Table.searches_rowwise (by decide) built short
                    (by decide) onCells binds (Probe.searchChain 1) inside
                  rw [found] at rowwise
                  exact ⟨_, t, probes, built, binds, found, rowwise⟩

end ColumnStore
