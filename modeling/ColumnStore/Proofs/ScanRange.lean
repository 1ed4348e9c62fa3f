import ColumnStore.Proofs.Ascent
import ColumnStore.Proofs.Cursors

set_option autoImplicit false

/-!
Scans of bound conditions, nested as they may be. None finds a row outside of the range that it is
asked for, and what a view shows is there as before.
-/
namespace ColumnStore

/-! ### Operands -/

theorem findCompared_within (m : Memory) (test : Comparison) (stop fuel start : Nat)
    (operands : BoundOperand × BoundOperand) :
    Within start stop (findCompared m test stop fuel start operands).1 := by
  induction fuel generalizing start operands with
  | zero => exact .none
  | succ fuel ih =>
      obtain ⟨left, right⟩ := operands
      rw [findCompared]
      split
      next more =>
        dsimp only
        have some := Nat.min_le_left (stop - start) Batch.rows
        generalize min (stop - start) Batch.rows = count at some ⊢
        split
        next lane found =>
          have inside := List.mem_range.mp (List.mem_of_find?_eq_some found)
          exact .some (Nat.le_add_right ..) (by omega)
        next => exact (ih (start + count) _).widen (Nat.le_add_right ..)
      next => exact .none

/-! ### Cursors -/

namespace Cursor

variable {L V : Type} [Leaf L V]

theorem findPair_within (m : Memory) (t u : Tree L) (test : V → V → Bool) (count start : Nat)
    (cursors : Cursor L × Cursor L) :
    Within start (start + count) (findPair m t u test count start cursors).1 := by
  induction count generalizing start cursors with
  | zero => exact .none
  | succ count ih =>
      rw [findPair]
      dsimp only
      split
      next => exact .some (Nat.le_refl _) (by omega)
      next =>
        have rest := ih (start + 1) ((cursors.1.get m t start).2, (cursors.2.get m u start).2)
        rw [Nat.add_right_comm] at rest
        exact rest.widen (Nat.le_succ _)

theorem findPair_between (m : Memory) (t u : Tree L) (test : V → V → Bool) (start stop : Nat)
    (cursors : Cursor L × Cursor L) :
    Within start stop (findPair m t u test (stop - start) start cursors).1 := by
  by_cases lower : start ≤ stop
  · have within := findPair_within m t u test (stop - start) start cursors
    rwa [Nat.add_sub_cancel' lower] at within
  · rw [Nat.sub_eq_zero_of_le (Nat.le_of_not_le lower)]
    exact .none

end Cursor

namespace Probe

theorem rows_within (rows : List Nat) (start stop : Nat) :
    Within start stop ((rows.find? (start ≤ ·)).filter (· < stop)) := by
  intro row found
  obtain ⟨first, here⟩ := Option.filter_eq_some_iff.mp found
  exact ⟨of_decide_eq_true (List.find?_some (p := (start ≤ ·)) first), of_decide_eq_true here⟩

theorem earlier_within {start stop : Nat} {r r' : Option Nat} (here : Within start stop r)
    (there : Within start stop r') : Within start stop (earlier r r') := by
  cases r with
  | none => exact there
  | some a =>
      cases r' with
      | none => exact here
      | some b =>
          obtain ⟨low, high⟩ := here a rfl
          obtain ⟨low', high'⟩ := there b rfl
          exact .some (Nat.le_min.mpr ⟨low, low'⟩) (Nat.lt_of_le_of_lt (Nat.min_le_left a b) high)

/-! ### Nested chains -/

/-- A chain over columns of a view, in a store that has what the view shows. -/
abbrev Viewing (w : View) (b size : Nat) : List Probe × Store → Prop :=
  Prober.Kept (·.Holds (w.frame * 1)) fun p => Ranges w b size p.scan

/-- What a scan of a range comes to. -/
def Scanned (w : View) (b size start stop : Nat) (r : Option Nat × Scan) (s : Store) : Prop :=
  s.Holds (w.frame * 1) ∧ Ranges w b size r.2 ∧ Within start stop r.1

/-- Searches of chains over columns of the view keep to their ranges. -/
def SearchesWithin (w : View) (b : Nat) (search : ChainSearch) : Prop :=
  ∀ size start stop, size ≤ b → stop ≤ size → Ensures (Viewing w b size) (search start stop)
    fun r c => Viewing w b size c ∧ Within start stop r

section

variable {w : View} {b size start stop : Nat} {search : ChainSearch} {chain : List Probe}
  {s : Store} (searches : SearchesWithin w b search) (few : size ≤ b)
include searches few

theorem firstUnmatched_within (count row : Nat) (inside : row + count ≤ size) :
    Ensures (Viewing w b size) (firstUnmatched search count row) fun r c =>
      Viewing w b size c ∧ Within row (row + count) r := by
  induction count generalizing row with
  | zero => exact .pure fun _ viewing => ⟨viewing, .none⟩
  | succ count ih =>
      rw [firstUnmatched]
      refine (searches size row (row + 1) few (by omega)).bind fun r => .of_result fun _ => ?_
      split
      next => exact .pure fun _ viewing => ⟨viewing, .some (Nat.le_refl _) (by omega)⟩
      next =>
        refine (ih (row + 1) (by omega)).post fun r c later => ⟨later.1, ?_⟩
        rw [Nat.add_right_comm] at later
        exact later.2.widen (Nat.le_succ _)

omit searches few in
theorem Memo.le_resume (memo : Memo) (start : Nat) : start ≤ (Memo.resume memo start).row := by
  rw [Memo.resume]
  split
  next => exact Nat.le_refl _
  next behind => omega

theorem findNegated_within (memo : Memo) (inside : stop ≤ size)
    (each : ∀ p ∈ chain, Ranges w b size p.scan) :
    Ensures (·.Holds (w.frame * 1)) (findNegated search start stop chain memo)
      (Scanned w b size start stop) := by
  intro s h
  rw [findNegated]
  have low := Memo.le_resume memo start
  generalize Memo.resume memo start = memo at low
  dsimp only
  split
  next => exact ⟨h, .negation each, .none⟩
  next =>
  split
  next =>
    refine ⟨h, .negation each, ?_⟩
    dsimp only
    split
    next high => exact .some low high
    next => exact .none
  next =>
  split
  next => exact ⟨h, .negation each, .none⟩
  next more =>
    obtain ⟨⟨each, h⟩, within⟩ := firstUnmatched_within searches few (stop - memo.row) memo.row
      (by omega) (chain, s) ⟨each, h⟩
    refine ⟨h, .negation each, ?_⟩
    rw [Nat.add_sub_cancel' (Nat.le_of_not_le more)] at within
    exact within.widen low

theorem findInBranch_within (memo : Memo) (inside : stop ≤ size)
    (each : ∀ p ∈ chain, Ranges w b size p.scan) :
    Ensures (·.Holds (w.frame * 1)) (findInBranch search start stop chain memo) fun r s =>
      s.Holds (w.frame * 1) ∧ (∀ p ∈ r.2.1, Ranges w b size p.scan) ∧ Within start stop r.1 := by
  intro s h
  rw [findInBranch]
  generalize (if start < memo.start then { memo with row := 0, found := false } else memo) = memo
  split
  next => exact ⟨h, each, .none⟩
  next more =>
  split
  next known => exact ⟨h, each, .some known.2 (Nat.lt_of_not_le more)⟩
  next =>
    obtain ⟨⟨each, h⟩, within⟩ :=
      searches size (max memo.row start) stop few inside (chain, s) ⟨each, h⟩
    exact ⟨h, each, within.widen (Nat.le_max_right ..)⟩

theorem findInBranches_within {branches : List (List Probe × Memo)} (inside : stop ≤ size)
    (each : ∀ branch ∈ branches, ∀ p ∈ branch.1, Ranges w b size p.scan) :
    Ensures (·.Holds (w.frame * 1)) (findInBranches search start stop branches) fun r s =>
      s.Holds (w.frame * 1) ∧ (∀ branch ∈ r.2, ∀ p ∈ branch.1, Ranges w b size p.scan) ∧
        Within start stop r.1 := by
  induction branches with
  | nil => exact .pure fun s h => ⟨h, List.forall_mem_nil _, .none⟩
  | cons branch branches ih =>
      obtain ⟨chain, memo⟩ := branch
      obtain ⟨here, others⟩ := List.forall_mem_cons.mp each
      rw [findInBranches]
      refine (findInBranch_within searches few memo inside here).bind fun found => ?_
      refine .of_result fun ⟨here, within⟩ => (ih others).bind fun later => ?_
      refine .pure fun s ⟨h, others, within'⟩ => ?_
      exact ⟨h, List.forall_mem_cons.mpr ⟨here, others⟩, earlier_within within within'⟩

omit few in
/-- The chain is bound to the table in the cell and searched there. -/
theorem matchesSubtable_keeps (settings : QuerySettings) (chain : List Condition) {t : Table}
    {x : Sheet} (sees : w.Sees (t.holds b x)) : Ensures (·.Holds (w.frame * 1))
      (matchesSubtable search settings chain t) fun _ s => s.Holds (w.frame * 1) := by
  intro s h
  rw [matchesSubtable]
  split
  next => exact h
  next =>
    obtain ⟨kept, bound⟩ := bindChain_keeps settings t chain s h
    rcases run : bindChain settings t chain s with ⟨e | probes, s'⟩
    · rw [run] at kept
      exact kept
    · rw [run] at kept bound
      have each : ∀ p ∈ probes, Ranges w b t.size p.scan :=
        fun p inside => bound probes rfl p inside w b x sees
      exact (searches t.size 0 t.size (Table.size_le_of_sees sees) (Nat.le_refl _) (probes, s')
        ⟨each, kept⟩).1.shared

omit few in
theorem findSubtable_within (settings : QuerySettings) (chain : List Condition)
    {cells : List (Option Table)} (each : ∀ t, some t ∈ cells → ∃ x, w.Sees (t.holds b x))
    (row : Nat) : Ensures (·.Holds (w.frame * 1)) (findSubtable search settings chain cells row)
      fun r s => s.Holds (w.frame * 1) ∧ Within row (row + cells.length) r := by
  induction cells generalizing row with
  | nil => exact .pure fun s h => ⟨h, .none⟩
  | cons cell cells ih =>
      have rest := ih (fun t inside => each t (List.mem_cons_of_mem _ inside)) (row + 1)
      have later := rest.post fun r s found => And.intro found.1
        (show Within row (row + (cell :: cells).length) r by
          rw [List.length_cons, ← Nat.add_assoc, Nat.add_right_comm]
          exact found.2.widen (Nat.le_succ _))
      cases cell with
      | none => exact later
      | some t =>
          obtain ⟨x, sees⟩ := each t List.mem_cons_self
          rw [findSubtable]
          refine (matchesSubtable_keeps searches settings chain sees).bind fun found => ?_
          split
          next =>
            refine .pure fun s h => ⟨h, .some (Nat.le_refl _) ?_⟩
            rw [List.length_cons]
            omega
          next => exact later

/-! ### Scans -/

theorem findScan_within (small : b < Slot.countBound) (inside : stop ≤ size) {scan : Scan}
    (ranges : Ranges w b size scan) : Ensures (·.Holds (w.frame * 1))
      (findScan search start stop scan) (Scanned w b size start stop) := by
  intro s h
  have same := View.same_of_holds h
  have small := Nat.lt_of_le_of_lt few small
  cases ranges with
  | int reads =>
      obtain ⟨reads, first⟩ := reads.findInt same small inside _ _
      exact ⟨h, .int reads, .of_first first⟩
  | word reads =>
      obtain ⟨reads, first⟩ := reads.findInt same small inside .equal _
      exact ⟨h, .word reads, .of_first first⟩
  | @single _ test needle _ reads =>
      obtain ⟨reads, first⟩ := reads.findWhere same small inside (Scalar.holds test · needle)
      exact ⟨h, .single reads, .of_first first⟩
  | @double _ test needle _ reads =>
      obtain ⟨reads, first⟩ := reads.findWhere same small inside (Scalar.holds test · needle)
      exact ⟨h, .double reads, .of_first first⟩
  | bytes reads =>
      obtain ⟨reads, first⟩ := reads.findWhere same small inside _
      exact ⟨h, .bytes reads, .of_first first⟩
  | @keys _ accepted _ reads =>
      obtain ⟨reads, first⟩ := reads.findWhere same small inside
        fun v => accepted.getD v.toUInt64.toNat false
      exact ⟨h, .keys reads, .of_first first⟩
  | rows => exact ⟨h, .rows, rows_within _ start stop⟩
  | lists => exact ⟨h, .lists, .of_first (firstWhere_between _ start stop)⟩
  | intPair reads reads' =>
      obtain ⟨reads, reads', first⟩ := reads.findIntPair same small reads' inside _
      exact ⟨h, .intPair reads reads', .of_first first⟩
  | singlePair => exact ⟨h, .singlePair, Cursor.findPair_between _ _ _ _ _ _ _⟩
  | doublePair => exact ⟨h, .doublePair, Cursor.findPair_between _ _ _ _ _ _ _⟩
  | compare => exact ⟨h, .compare, findCompared_within _ _ _ _ _ _⟩
  | negation each => exact findNegated_within searches few _ inside each s h
  | @disjunction branches each =>
      suffices searched : Ensures (·.Holds (w.frame * 1))
        (findScan search start stop (.disjunction branches)) (Scanned w b size start stop) from
          searched s h
      rw [findScan]
      split
      next => exact .pure fun s h => ⟨h, .disjunction each, .none⟩
      next =>
        refine (findInBranches_within searches few inside each).bind fun found => ?_
        exact .pure fun s ⟨h, each, within⟩ => ⟨h, .disjunction each, within⟩
  | @subtable cells settings chain each =>
      suffices searched : Ensures (·.Holds (w.frame * 1))
        (findScan search start stop (.subtable cells settings chain))
        (Scanned w b size start stop) from searched s h
      rw [findScan]
      have part : ∀ t, some t ∈ (cells.drop start).take (stop - start) → ∃ x, w.Sees (t.holds b x) :=
        fun t inside => each t (List.mem_of_mem_drop (List.mem_of_mem_take inside))
      refine (findSubtable_within searches settings chain part start).bind fun found => ?_
      refine .pure fun s ⟨h, within⟩ => ⟨h, .subtable each, fun row there => ?_⟩
      have inside := within row there
      have few := List.length_take_le (stop - start) (cells.drop start)
      omega

theorem prober_ranging (small : b < Slot.countBound) : (prober search).Ranging
    (·.Holds (w.frame * 1)) (fun p => Ranges w b size p.scan) size where
  find p start stop inside ranges := by
    refine Ensures.bind (findScan_within searches few small inside ranges) fun found => ?_
    exact .pure fun s scanned => scanned
  setStats p stats ranges := ranges

end

theorem searchChain_within {w : View} {b : Nat} (small : b < Slot.countBound) (depth : Nat) :
    SearchesWithin w b (searchChain depth) := by
  induction depth with
  | zero => exact fun size start stop few inside => .pure fun c viewing => ⟨viewing, .none⟩
  | succ depth searches =>
      exact fun size start stop few inside =>
        Prober.findFirst_within (prober_ranging searches few small) start inside

end Probe

end ColumnStore
