import ColumnStore.Proofs.Edit
import ColumnStore.Proofs.Turns
import ColumnStore.Proofs.Utf8
import ColumnStore.Query.Probe
import ColumnStore.Query.Profile

set_option autoImplicit false

/-!
What negations and disjunctions remember of earlier searches. A memo holds only facts about rows, so
that every answer is the first row of its range, in whatever order the ranges are asked for.
-/
namespace ColumnStore

namespace First

variable {q q' : Nat → Bool} {start stop : Nat} {r r' : Option Nat}

/-- The earlier of two first rows is the first one at which one of the two passes. -/
theorem earlier (first : First q start stop r) (first' : First q' start stop r') :
    First (fun row => q row || q' row) start stop (Probe.earlier r r') := by
  have fails {row : Nat} (no : q row = false) (no' : q' row = false) :
      (q row || q' row) = false := by rw [no, no', Bool.or_false]
  cases first with
  | missing none =>
      cases first' with
      | missing none' =>
          exact .missing fun row low high => fails (none row low high) (none' row low high)
      | found low high passes before =>
          refine .found low high (by rw [passes, Bool.or_true]) fun row low' less => ?_
          exact fails (none row low' (Nat.lt_trans less high)) (before row low' less)
  | @found a low high passes before =>
      cases first' with
      | missing none' =>
          refine .found low high (by rw [passes, Bool.true_or]) fun row low' less => ?_
          exact fails (before row low' less) (none' row low' (Nat.lt_trans less high))
      | @found b low' high' passes' before' =>
          -- Either row may be the earlier one.
          refine .found (Nat.le_min.mpr ⟨low, low'⟩) (Nat.lt_of_le_of_lt (Nat.min_le_left a b) high)
            ?_ fun row lower less => ?_
          · rcases Nat.le_total a b with le | le
            · rw [Nat.min_eq_left le, passes, Bool.true_or]
            · rw [Nat.min_eq_right le, passes', Bool.or_true]
          · exact fails (before row lower (Nat.lt_of_lt_of_le less (Nat.min_le_left a b)))
              (before' row lower (Nat.lt_of_lt_of_le less (Nat.min_le_right a b)))

end First

/-- Searches of ranges by one condition, one after the other. -/
theorem Query.findInRanges_ensures {ν σ : Type} {p : Prober ν σ} {I : σ → Prop}
    {M : (Nat → Bool) → ν → Prop} {size i : Nat} {qs : List (Nat → Bool)} {q : Nat → Bool}
    (lawful : p.Lawful I M size) (known : qs[i]? = some q) (ranges : List (Nat × Option Nat)) :
    Ensures (Prober.Knows I M qs) (findInRanges (p.findAt i) size ranges) fun rs c =>
      Prober.Knows I M qs c ∧
        List.Forall₂ (fun range => First q range.1 (Node.stopOf size range.2)) ranges rs := by
  induction ranges with
  | nil => exact .pure fun _ known => ⟨known, .nil⟩
  | cons range ranges ih =>
      rw [findInRanges]
      have inside : Node.stopOf size range.2 ≤ size := Nat.min_le_right _ _
      refine (Prober.findAt_ensures lawful known inside).bind fun r => ?_
      refine .of_result fun first => ih.bind fun rs => ?_
      exact .pure fun _ rest => ⟨rest.1, .cons first rest.2⟩

/-! ### Memos -/

namespace Memo

variable {q : Nat → Bool} {start : Nat}

/-- From its start on, the rows in front of the memo's row fail; that row passes if the memo says
that it was found. -/
structure Sound (q : Nat → Bool) (memo : Memo) : Prop where
  failed : ∀ row, memo.start ≤ row → row < memo.row → q row = false
  found : memo.found = true → q memo.row = true

theorem sound_new (start : Nat) : Sound q { start, row := start } where
  failed _ low less := absurd less (Nat.not_lt_of_le low)
  found no := Bool.noConfusion no

/-- A row that was found in front of `stop`, or none, as far as the search went. -/
theorem Sound.of_first {stop : Nat} {r : Option Nat} (first : First q start stop r) :
    Sound q { start, row := r.getD stop, found := r.isSome } := by
  cases first with
  | missing fails => exact ⟨fails, fun no => Bool.noConfusion no⟩
  | found low high passes before => exact ⟨before, fun _ => passes⟩

end Memo

namespace Probe

variable {search : ChainSearch} {I : Store → Prop} {M : (Nat → Bool) → List Probe → Prop}
  {q : Nat → Bool} {qs : List (Nat → Bool)} {chain : List Probe} {memo : Memo}
  {size start stop : Nat}

/-- In every call a search finds the first row that its chain matches. -/
def Searches (search : ChainSearch) (I : Store → Prop) (M : (Nat → Bool) → List Probe → Prop)
    (size : Nat) : Prop :=
  ∀ q start stop, stop ≤ size → Ensures (fun c => M q c.1 ∧ I c.2) (search start stop)
    fun r c => (M q c.1 ∧ I c.2) ∧ First q start stop r

theorem resume_sound (sound : memo.Sound q) (start : Nat) : (Memo.resume memo start).Sound q ∧
    (Memo.resume memo start).start ≤ start ∧ start ≤ (Memo.resume memo start).row := by
  rw [Memo.resume]
  split
  next => exact ⟨Memo.sound_new start, Nat.le_refl _, Nat.le_refl _⟩
  next known =>
    rw [not_or] at known
    exact ⟨sound, Nat.le_of_not_lt known.1, Nat.le_of_not_lt known.2⟩

/-- What one probe answers to searches of ranges, one after the other. -/
def answers (search : ChainSearch) (size : Nat) (ranges : List (Nat × Option Nat)) (p : Probe)
    (s : Store) : List (Option Nat) :=
  (Query.findInRanges ((prober search).findAt 0) size ranges ([p], s)).1

section

variable (searches : Searches search I M size)
include searches

/-! ### Negations -/

theorem firstUnmatched_ensures (count row : Nat) (inside : row + count ≤ size) :
    Ensures (fun c => M q c.1 ∧ I c.2) (firstUnmatched search count row)
      fun r c => (M q c.1 ∧ I c.2) ∧ First (fun row => !q row) row (row + count) r := by
  induction count generalizing row with
  | zero => exact .pure fun _ known => ⟨known, .empty (Nat.le_refl _)⟩
  | succ count ih =>
      rw [firstUnmatched]
      refine (searches q row (row + 1) (by omega)).bind fun r => ?_
      cases r with
      | none =>
          refine .pure fun c known => ⟨known.1, ?_⟩
          cases known.2 with
          | missing fails =>
              have unmatched := fails row (Nat.le_refl _) (Nat.lt_succ_self _)
              exact (First.one (by rw [unmatched, Bool.not_false])).widen (by omega)
      | some found =>
          refine .of_result fun first => ?_
          have matched : q row = true := by
            cases first with
            | found low high passes => rwa [Nat.le_antisymm (Nat.le_of_lt_succ high) low] at passes
          refine (ih (row + 1) (by omega)).post fun r c known => ⟨known.1, ?_⟩
          have rest := known.2
          rw [Nat.add_right_comm] at rest
          refine rest.extend (Nat.le_succ _) fun row' low less => ?_
          rw [Nat.le_antisymm (Nat.le_of_lt_succ less) low, matched, Bool.not_true]

/-- What a search for an unmatched row leaves: a chain and a memo that still tell the truth. -/
def Negated (I : Store → Prop) (M : (Nat → Bool) → List Probe → Prop) (q : Nat → Bool)
    (start stop : Nat) (out : Option Nat × Scan) (s : Store) : Prop :=
  ∃ chain memo, out.2 = .negation chain memo ∧ M q chain ∧ memo.Sound (fun row => !q row) ∧ I s ∧
    First (fun row => !q row) start stop out.1

theorem findNegated_ensures (inside : stop ≤ size) (means : M q chain)
    (sound : memo.Sound fun row => !q row) :
    Ensures I (findNegated search start stop chain memo) (Negated I M q start stop) := by
  intro s inv
  rw [findNegated]
  split
  next none => exact ⟨chain, memo, rfl, means, sound, inv, .empty none⟩
  next some =>
    obtain ⟨sound, before, reached⟩ := resume_sound sound start
    dsimp only
    generalize Memo.resume memo start = memo at sound before reached
    have failed : ∀ row, start ≤ row → row < memo.row → (!q row) = false := fun row low less =>
      sound.failed row (Nat.le_trans before low) less
    split
    next found =>
      refine ⟨chain, memo, rfl, means, sound, inv, ?_⟩
      split
      next near => exact .found reached near (sound.found found) failed
      next far => exact .missing fun row low high => failed row low (by omega)
    next =>
      split
      next far =>
        refine ⟨chain, memo, rfl, means, sound, inv, .missing fun row low high => ?_⟩
        exact failed row low (Nat.lt_of_lt_of_le high far)
      next near =>
        have count : memo.row + (stop - memo.row) = stop := by omega
        obtain ⟨⟨means, inv⟩, first⟩ := firstUnmatched_ensures searches (q := q)
          (stop - memo.row) memo.row (by omega) (chain, s) ⟨means, inv⟩
        rw [count] at first
        -- What the memo knew of the rows in front of its row still holds.
        refine ⟨_, _, rfl, means, .of_first (first.extend (Nat.le_trans before reached)
          sound.failed), inv, first.extend reached failed⟩

/-! ### Disjunctions -/

theorem findInBranch_ensures (inside : stop ≤ size) (means : M q chain)
    (sound : memo.Sound q) :
    Ensures I (findInBranch search start stop chain memo) fun out s =>
      (M q out.2.1 ∧ out.2.2.Sound q) ∧ I s ∧ First q start stop out.1 := by
  intro s inv
  rw [findInBranch]
  -- A memo of later rows only is forgotten.
  have forgotten : ∃ memo', (if start < memo.start then { memo with row := 0, found := false }
      else memo) = memo' ∧ memo'.Sound q ∧
      ∀ row, start ≤ row → row < memo'.row → q row = false := by
    split
    next later =>
      exact ⟨_, rfl, ⟨fun _ _ none => absurd none (Nat.not_lt_zero _),
        fun no => Bool.noConfusion no⟩, fun _ _ none => absurd none (Nat.not_lt_zero _)⟩
    next known =>
      exact ⟨_, rfl, sound, fun row low less =>
        sound.failed row (Nat.le_trans (Nat.le_of_not_lt known) low) less⟩
  obtain ⟨memo', same, sound, failed⟩ := forgotten
  rw [same]
  split
  next far =>
    refine ⟨⟨means, sound⟩, inv, .missing fun row low high => ?_⟩
    exact failed row low (Nat.lt_of_lt_of_le high far)
  next near =>
    split
    next found =>
      have high : memo'.row < stop := Nat.lt_of_not_le near
      exact ⟨⟨means, sound⟩, inv, .found found.2 high (sound.found found.1) failed⟩
    next =>
      obtain ⟨⟨means, inv⟩, first⟩ :=
        searches q (max memo'.row start) stop inside (chain, s) ⟨means, inv⟩
      have all : First q start stop (search (max memo'.row start) stop (chain, s)).1 :=
        first.extend (Nat.le_max_right _ _) fun row low less => failed row low (by omega)
      exact ⟨⟨means, .of_first all⟩, inv, all⟩

/-- Every branch with its memo tells the truth about its predicate. -/
abbrev Branches (M : (Nat → Bool) → List Probe → Prop) (qs : List (Nat → Bool))
    (branches : List (List Probe × Memo)) : Prop :=
  List.Forall₂ (fun q branch => M q branch.1 ∧ branch.2.Sound q) qs branches

theorem findInBranches_ensures (inside : stop ≤ size)
    {branches : List (List Probe × Memo)} (each : Branches M qs branches) :
    Ensures I (findInBranches search start stop branches) fun out s =>
      Branches M qs out.2 ∧ I s ∧ First (fun row => qs.any (· row)) start stop out.1 := by
  induction each with
  | nil => exact .pure fun _ inv => ⟨.nil, inv, .missing fun _ _ _ => rfl⟩
  | @cons q branch qs branches here rest ih =>
      obtain ⟨chain, memo⟩ := branch
      rw [findInBranches]
      refine (findInBranch_ensures searches inside here.1 here.2).bind fun out => ?_
      rintro s ⟨known, inv, first⟩
      obtain ⟨rest, inv, later⟩ := ih s inv
      exact ⟨.cons known rest, inv, first.earlier later⟩

/-! ### Probes -/

/-- A negation or a disjunction, with what it remembers. -/
inductive Recalls (M : (Nat → Bool) → List Probe → Prop) : (Nat → Bool) → Probe → Prop where
  | negation {q : Nat → Bool} {chain : List Probe} {memo : Memo} {stats : Stats}
      (means : M q chain) (sound : memo.Sound fun row => !q row) :
      Recalls M (fun row => !q row) ⟨stats, .negation chain memo⟩
  | disjunction {qs : List (Nat → Bool)} {branches : List (List Probe × Memo)} {stats : Stats}
      (each : Branches M qs branches) :
      Recalls M (fun row => qs.any (· row)) ⟨stats, .disjunction branches⟩

theorem recalls_lawful : (prober search).Lawful I (Recalls M) size where
  find q p start stop inside means := by
    rw [show (prober search).find = find search from rfl, find]
    cases means with
    | negation means sound =>
        refine (findNegated_ensures searches inside means sound).bind fun out => ?_
        obtain ⟨r, scan⟩ := out
        refine .pure fun s negated => ?_
        obtain ⟨chain, memo, same, means, sound, inv, first⟩ := negated
        subst same
        exact ⟨inv, .negation means sound, first⟩
    | @disjunction qs branches stats each =>
        rw [findScan]
        split
        next none =>
          exact .pure fun s inv => ⟨inv, .disjunction each, .empty none⟩
        next =>
          simp only [bind_assoc]
          refine (findInBranches_ensures searches inside each).bind fun out => ?_
          exact .pure fun s known => ⟨known.2.1, .disjunction known.1, known.2.2⟩
  setStats q p stats means := by
    cases means with
    | negation means sound => exact .negation means sound
    | disjunction each => exact .disjunction each

omit searches in
theorem branches_bound {settings : QuerySettings} {t : Table} {branches : List (List Condition)}
    {bound : List (List Probe × Memo)} {s s' : Store}
    (run : bindBranches settings t branches s = (.ok bound, s'))
    (means : List.Forall₂ (fun q branch => M q branch.1) qs bound) : Branches M qs bound := by
  induction branches generalizing s bound qs with
  | nil =>
      rw [bindBranches, StoreM.pure_ok] at run
      obtain ⟨rfl, -⟩ := run
      cases means
      exact .nil
  | cons chain branches ih =>
      rw [bindBranches, StoreM.bind_ok] at run
      obtain ⟨probes, _, -, run⟩ := run
      rw [StoreM.bind_ok] at run
      obtain ⟨rest, _, bound, run⟩ := run
      rw [StoreM.pure_ok] at run
      obtain ⟨rfl, rfl⟩ := run
      cases means with
      | cons here means => exact .cons ⟨here, Memo.sound_new 0⟩ (ih bound means)

theorem answers_first {p : Probe} {s : Store} (recalls : Recalls M q p) (inv : I s)
    (ranges : List (Nat × Option Nat)) :
    List.Forall₂ (fun range => First q range.1 (Node.stopOf size range.2)) ranges
      (answers search size ranges p s) := by
  have known : Prober.Knows I (Recalls M) [q] ([p], s) := ⟨inv, .cons recalls .nil⟩
  exact (Query.findInRanges_ensures (recalls_lawful searches) (i := 0) rfl ranges _ known).2

end

/-- Negations and disjunctions answer every search of a sequence with the first row of its range
that the chain does not match, or that some branch matches. -/
theorem memos_never_lie {settings : QuerySettings} {t : Table} {s s' : Store}
    (searches : Searches search I M t.size) (inv : I s') (ranges : List (Nat × Option Nat)) :
    (∀ conditions chain q, bindChain settings t conditions s = (.ok chain, s') → M q chain →
      ∃ p, bind settings t (.negation conditions) s = (.ok p, s') ∧
        List.Forall₂ (fun range => First (fun row => !q row) range.1 (Node.stopOf t.size range.2))
          ranges (answers search t.size ranges p s')) ∧
    (∀ branches bound qs, bindBranches settings t branches s = (.ok bound, s') →
      List.Forall₂ (fun q branch => M q branch.1) qs bound →
      ∃ p, bind settings t (.disjunction branches) s = (.ok p, s') ∧
        List.Forall₂ (fun range => First (fun row => qs.any (· row)) range.1
          (Node.stopOf t.size range.2)) ranges (answers search t.size ranges p s')) := by
  constructor
  · intro conditions chain q bound means
    have sound : Memo.Sound (fun row => !q row) {} := Memo.sound_new 0
    refine ⟨fresh 10.0 50.0 (.negation chain {}), ?_,
      answers_first searches (.negation means sound) inv ranges⟩
    rw [bind, StoreM.bind_ok]
    exact ⟨chain, s', bound, rfl⟩
  · intro branches bound qs run means
    refine ⟨fresh 10.0 50.0 (.disjunction bound), ?_,
      answers_first searches (.disjunction (branches_bound run means)) inv ranges⟩
    rw [bind, StoreM.bind_ok]
    exact ⟨bound, s', run, rfl⟩

/-! ### Rows of an index -/

theorem rows_first {rows : List Nat} (ascends : rows.Pairwise (· < ·)) (start stop : Nat) :
    First (fun row => decide (row ∈ rows)) start stop
      ((rows.find? (start ≤ ·)).filter (· < stop)) := by
  cases found : rows.find? (start ≤ ·) with
  | none =>
      refine .missing fun row low high => decide_eq_false fun inside => ?_
      simpa [low] using List.find?_eq_none.mp found row inside
  | some first =>
      obtain ⟨low, before, after, split, early⟩ := List.find?_eq_some_iff_append.mp found
      have low : start ≤ first := of_decide_eq_true low
      have none (row : Nat) (inside : row ∈ rows) (reached : start ≤ row) : first ≤ row := by
        subst split
        rcases List.mem_append.mp inside with front | back
        · simpa [reached] using early row front
        · rcases List.mem_cons.mp back with same | later
          · exact Nat.le_of_eq same.symm
          · have order := (List.pairwise_append.mp ascends).2.1
            exact Nat.le_of_lt ((List.pairwise_cons.mp order).1 row later)
      have inside : first ∈ rows := by simp [split]
      rw [Option.filter_some]
      split
      next high =>
        refine .found low (of_decide_eq_true high) (decide_eq_true inside) fun row low less => ?_
        exact decide_eq_false fun inside => Nat.not_le_of_lt less (none row inside low)
      next far =>
        refine .missing fun row low high => decide_eq_false fun inside => far ?_
        exact decide_eq_true (Nat.lt_of_le_of_lt (none row inside low) high)

/-- Probes of rows that are known from the start. -/
def IsRows (q : Nat → Bool) (p : Probe) : Prop :=
  ∃ stats rows, p = ⟨stats, .rows rows⟩ ∧ rows.Pairwise (· < ·) ∧
    q = fun row => decide (row ∈ rows)

theorem rows_lawful (search : ChainSearch) (I : Store → Prop) (size : Nat) :
    (prober search).Lawful I IsRows size where
  find q p start stop _ known s inv := by
    obtain ⟨stats, rows, rfl, ascends, rfl⟩ := known
    exact ⟨inv, ⟨_, rows, rfl, ascends, rfl⟩, rows_first ascends start stop⟩
  setStats q p stats known := by
    obtain ⟨_, rows, rfl, ascends, rfl⟩ := known
    exact ⟨stats, rows, rfl, ascends, rfl⟩

/-- Lawful probes make a lawful search for all of them. -/
theorem searches_of_lawful {P : (Nat → Bool) → Probe → Prop}
    (lawful : (prober search).Lawful I P size) :
    Searches (prober search).findFirst I
      (fun q chain => ∃ qs, q = passes qs ∧ List.Forall₂ P qs chain) size := by
  intro q start stop inside
  rintro ⟨chain, s⟩ ⟨⟨qs, rfl, each⟩, inv⟩
  obtain ⟨⟨inv, each⟩, first⟩ := Prober.findFirst_ensures lawful inside (chain, s) ⟨inv, each⟩
  exact ⟨⟨⟨qs, rfl, each⟩, inv⟩, first⟩

/-- Ten rows of text of which an index knows those with "x" and with "y". -/
def indexedText : Table where
  settings := {}
  columns := [.text (.plain { tree := default, index := some ⟨[("x", [2, 5, 6]), ("y", [4])]⟩ })]
  size := 10

theorem bindChain_indexedText (settings : QuerySettings) (text : String) (s : Store) :
    bindChain settings indexedText [.exactText 0 (Text.encode text)] s =
      (.ok [fresh 10.0 0.0 (.rows (SearchIndex.rows ⟨[("x", [2, 5, 6]), ("y", [4])]⟩ text))], s) := by
  have known : (Needle.new (Text.encode text)).text? = some text := by
    rw [Needle.text?, Needle.new, Text.decode?_encode, Option.map_some, String.ofList_toList]
  simp only [bindChain, bind, bindExactText, known]
  rfl

/-- The first rows of ranges depend on the ranges alone. -/
theorem firsts_eq {ranges : List (Nat × Option Nat)} {rs : List (Option Nat)}
    (first : List.Forall₂ (fun range => First q range.1 (Node.stopOf size range.2)) ranges rs) :
    rs = ranges.map fun range => firstWhere q (Node.stopOf size range.2 - range.1) range.1 := by
  induction first with
  | nil => rfl
  | cons here _ ih => rw [List.map_cons, ← ih, here.unique (firstWhere_between _ _ _)]

theorem memos_never_lie_indexedText : ∃ p p',
    bind {} indexedText (.negation [.exactText 0 (Text.encode "x")]) (.empty {}) =
      (.ok p, .empty {}) ∧
    answers (searchChain 1) 10 [(5, some 9), (2, some 4), (0, none), (6, some 7)] p (.empty {}) =
      [some 7, some 3, some 0, none] ∧
    bind {} indexedText (.disjunction [[.exactText 0 (Text.encode "x")],
      [.exactText 0 (Text.encode "y")]]) (.empty {}) = (.ok p', .empty {}) ∧
    answers (searchChain 1) 10 [(3, none), (5, some 6), (0, some 2), (1, some 5)] p' (.empty {}) =
      [some 4, some 5, none, some 2] := by
  have searches := searches_of_lawful (rows_lawful (searchChain 0) (fun _ => True) 10)
  have rowsOf (rows : List Nat) (ascends : rows.Pairwise (· < ·)) : IsRows
      (fun row => decide (row ∈ rows)) (fresh 10.0 0.0 (.rows rows)) := ⟨_, rows, rfl, ascends, rfl⟩
  obtain ⟨p, bound, first⟩ := (memos_never_lie (t := indexedText)
    searches trivial [(5, some 9), (2, some 4), (0, none), (6, some 7)]).1 _ _ _
    (bindChain_indexedText {} "x" (.empty {})) ⟨[_], rfl, .cons (rowsOf [2, 5, 6] (by decide)) .nil⟩
  obtain ⟨p', bound', first'⟩ := (memos_never_lie (t := indexedText)
    searches trivial [(3, none), (5, some 6), (0, some 2), (1, some 5)]).2
    [[.exactText 0 (Text.encode "x")], [.exactText 0 (Text.encode "y")]] _ _
    (by
      simp only [bindBranches, StoreM.bind_apply, bindChain_indexedText]
      rfl)
    (.cons ⟨[_], rfl, .cons (rowsOf [2, 5, 6] (by decide)) .nil⟩
      (.cons ⟨[_], rfl, .cons (rowsOf [4] (by decide)) .nil⟩ .nil))
  refine ⟨p, p', bound, ?_, bound', ?_⟩
  · exact (firsts_eq first).trans (by decide)
  · exact (firsts_eq first').trans (by decide)

end Probe

end ColumnStore
