import ColumnStore.Proofs.Bulk
import ColumnStore.Proofs.TreeRun

set_option autoImplicit false

/-!
Leads leaf by leaf. A condition on integers that is alone in its chain may feed the tally straight
from the leaves, or offer match by match to the sink; both come to the same.
-/
namespace ColumnStore

/-! ### Rows and values -/

section Rows

variable {q : Nat → Bool} {vs : List Int64} {start stop row : Nat} {before after : List Nat}

theorem rowsIn_eq_matching {V : Type} (vs : List V) (test : V → Bool) (start stop : Nat) :
    rowsIn vs test start (some stop) = matching (fun row => vs[row]?.any test) start stop := by
  show matching _ start (min stop vs.length) = _
  by_cases inside : stop ≤ vs.length
  · rw [Nat.min_eq_left inside]
  · -- rows behind all values do not pass
    have fails (row : Nat) (low : vs.length ≤ row) : vs[row]?.any test = false := by
      rw [List.getElem?_eq_none low]
      rfl
    rw [Nat.min_eq_right (Nat.le_of_not_le inside)]
    by_cases lower : start ≤ vs.length
    · have behind : matching (fun row => vs[row]?.any test) vs.length stop = [] :=
        matching_none fun row low _ => fails row low
      rw [matching_append lower (Nat.le_of_not_le inside), behind, List.append_nil]
    · rw [matching_empty (Nat.le_of_not_le lower),
        matching_none fun row low _ => fails row (by omega)]

theorem mem_matching : row ∈ matching q start stop ↔ start ≤ row ∧ row < stop ∧ q row = true := by
  have bounds : start ≤ row ∧ row < start + (stop - start) ↔ start ≤ row ∧ row < stop := by omega
  rw [matching, List.mem_filter, List.mem_range'_1, bounds, and_assoc]

theorem matching_until (parts : matching q start stop = before ++ row :: after) :
    start ≤ row ∧ row < stop ∧ matching q start (row + 1) = before ++ [row] := by
  obtain ⟨low, high, -⟩ := mem_matching.mp (parts ▸ List.mem_append_cons_self)
  refine ⟨low, high, ?_⟩
  have ascends : (matching q start stop).Pairwise (· < ·) := (List.pairwise_lt_range' 1).filter _
  rw [parts] at ascends
  obtain ⟨-, ascends, earlier⟩ := List.pairwise_append.mp ascends
  have later := (List.pairwise_cons.mp ascends).1
  have cut : (before ++ row :: after).filter (· < row + 1) = before ++ [row] := by
    rw [List.filter_append, List.filter_cons, if_pos (decide_eq_true (Nat.lt_succ_self row)),
      List.filter_eq_self.mpr fun row' inside => ?_,
      List.filter_eq_nil_iff.mpr fun row' inside => ?_]
    · have := later row' inside
      simp only [decide_eq_true_eq]
      omega
    · have := earlier row' inside row List.mem_cons_self
      simp only [decide_eq_true_eq]
      omega
  rw [← cut, ← parts, matching_append (Nat.le_succ_of_le low) high, List.filter_append,
    List.filter_eq_self.mpr fun row' inside => decide_eq_true (mem_matching.mp inside).2.1,
    List.filter_eq_nil_iff.mpr fun row' inside => ?_, List.append_nil]
  have := (mem_matching.mp inside).1
  simp only [decide_eq_true_eq]
  omega

end Rows

namespace Tally

variable {t : Tally Int64} {vs : List Int64}

/-- A tally hears of a row with its value. -/
def hear (vs : List Int64) (row : Nat) (t : Tally Int64) : Bool × Tally Int64 :=
  ((t.take row (vs.getD row 0)).2, (t.take row (vs.getD row 0)).1)

theorem feed_eq_feedRows (rows : List Nat) (t : Tally Int64) :
    receiver.feed (rows.map fun row => (row, vs.getD row 0)) t = feedRows (hear vs) rows t := by
  induction rows generalizing t with
  | nil => rfl
  | cons row rows ih =>
      rw [List.map_cons, Search.feed_cons, feedRows]
      show (if (hear vs row t).1 then receiver.feed _ (hear vs row t).2 else
        ((hear vs row t).2, (hear vs row t).1)) = _
      split
      next => exact ih (hear vs row t).2
      next stop => rw [Bool.eq_false_iff.mpr stop]

theorem action_take (t : Tally Int64) (row : Nat) (v : Int64) :
    (t.take row v).1.action = t.action := by
  cases action : t.action <;> simp only [take, action]
  · split <;> rfl
  · split <;> rfl

/-- An action that uses no value does not look at it. -/
theorem take_unused (unused : t.action.usesValue = false) (row : Nat) (v v' : Int64) :
    t.take row v = t.take row v' := by
  cases action : t.action <;> simp only [take, action] <;> rw [action] at unused <;> cases unused

end Tally

/-! ### Alone in a chain -/

section Alone

variable {w : View} {vs : List Int64} {col : Nat} {values : IntColumn} {t : Tally Int64}
  {search : Probe.ChainSearch} {row : Nat}

/-- A run of one condition. What the sink reads is in the column that is searched. -/
structure Alone (w : View) (vs : List Int64) (col : Nat) (values : IntColumn) (t : Tally Int64)
    (r : Run Probe (Sink Node Int64) Store) : Prop where
  chain : r.chain.length = 1
  same : w.Same r.shared.memory
  tally : r.sink.tally = t
  source : t.action.usesValue = true →
    r.sink.source = some (col, values) ∧ r.sink.cursor.Valid w vs

theorem recordDistance_alone (i rows found : Nat) (spare : Float) :
    Ensures (Alone w vs col values t)
      ((Sink.scheduler search).recordDistance i rows found spare) fun _ r =>
        Alone w vs col values t r := by
  rintro r alone
  exact ⟨(List.length_modify ..).trans alone.chain, alone.same, alone.tally, alone.source⟩

variable (sees : w.Sees (Tree.holds values vs)) (small : vs.length < Slot.countBound)
include sees small

theorem reportRow_alone (inside : row < vs.length) :
    Ensures (Alone w vs col values t) ((Sink.scheduler search).reportRow row) fun more r =>
      Alone w vs col values (t.hear vs row).2 r ∧ more = (t.hear vs row).1 := by
  rintro r ⟨chain, same, rfl, source⟩
  obtain ⟨v, cursor, read, valid, taken⟩ : ∃ v cursor,
      r.sink.read r.shared.memory row = (v, { r.sink with cursor }) ∧
      (r.sink.tally.action.usesValue = true → cursor.Valid w vs) ∧
      r.sink.tally.take row v = r.sink.tally.take row (vs.getD row 0) := by
    cases uses : r.sink.tally.action.usesValue with
    | true =>
        obtain ⟨from_, valid⟩ := source uses
        obtain ⟨v, cursor, got, valid, value⟩ := Cursor.get_valid sees same small valid inside
        have got : Payload.get r.shared.memory values row r.sink.cursor = (v, cursor) := got
        refine ⟨v, cursor, ?_, fun _ => valid, ?_⟩
        · simp only [Sink.read, from_, uses, if_true, got]
        · rw [List.getD_eq_getElem?_getD, value, Option.getD_some]
    | false =>
        refine ⟨Tallied.zero, r.sink.cursor, ?_, nofun, Tally.take_unused uses ..⟩
        rw [Sink.read]
        split
        next => rw [uses, if_neg Bool.false_ne_true]
        next => rfl
  have told : (Sink.scheduler search).reportRow row r = ((r.sink.tally.hear vs row).1,
      { r with sink := { r.sink with tally := (r.sink.tally.hear vs row).2, cursor } }) := by
    simp only [Scheduler.reportRow, Sink.scheduler, Sink.report, read, taken, Tally.hear]
  rw [told]
  refine ⟨⟨chain, same, rfl, fun uses => ?_⟩, rfl⟩
  rw [Tally.hear, Tally.action_take] at uses
  exact ⟨(source uses).1, valid uses⟩

variable (search) in
/-- Nobody else is asked about a match. -/
theorem offer_alone (inside : row < vs.length) :
    Ensures (Alone w vs col values t) ((Sink.scheduler search).offer 0 row) fun more r =>
      Alone w vs col values (t.hear vs row).2 r ∧ more = (t.hear vs row).1 := by
  intro r alone
  have none : Scheduler.siblings 0 r = [] := by
    rw [Scheduler.siblings, alone.chain]
    rfl
  have asked : (Sink.scheduler search).offer 0 row r = (Sink.scheduler search).reportRow row r := by
    rw [Scheduler.offer, get_bind_apply, none]
    rfl
  rw [asked]
  exact reportRow_alone sees small inside r alone

/-! ### Match by match -/

omit sees small in
/-- What became of rows that were offered one after the other until `limit` matches were found. -/
inductive Offered (tell : Nat → Tally Int64 → Bool × Tally Int64) (limit : Nat) (rows : List Nat)
    (t : Tally Int64) (l : LeafRun (Sink Node Int64)) :
    LeafRun (Sink Node Int64) → Tally Int64 → Prop where
  | nothing (none : rows = []) : Offered tell limit rows t l l t
  | stopped {l' : LeafRun (Sink Node Int64)} {t' : Tally Int64} (ended : l'.stopped = true)
      (fed : feedRows tell rows t = (t', false)) : Offered tell limit rows t l l' t'
  | enough {l' : LeafRun (Sink Node Int64)} {t' : Tally Int64} (before : List Nat)
      {after : List Nat} {row : Nat} (goes : l'.stopped = false) (many : limit ≤ l'.found) (last : l'.last = row)
      (parts : rows = before ++ row :: after)
      (fed : feedRows tell (before ++ [row]) t = (t', true)) : Offered tell limit rows t l l' t'
  | all {l' : LeafRun (Sink Node Int64)} {t' : Tally Int64} (goes : l'.stopped = false)
      (few : l'.found < limit) (fed : feedRows tell rows t = (t', true)) :
      Offered tell limit rows t l l' t'

theorem feed_offered {limit : Nat} {rows : List Nat} (inside : ∀ row ∈ rows, row < vs.length)
    {l : LeafRun (Sink Node Int64)} (alone : Alone w vs col values t l.run) :
    ∃ l' more t', (LeafRun.receiver (Sink.scheduler search) 0 limit).feed
        (rows.map fun row => (row, vs.getD row 0)) l = (l', more) ∧
      Alone w vs col values t' l'.run ∧ Offered (Tally.hear vs) limit rows t l l' t' := by
  induction rows generalizing l t with
  | nil => exact ⟨l, true, t, rfl, alone, .nothing rfl⟩
  | cons row rows ih =>
      obtain ⟨here, rest⟩ := List.forall_mem_cons.mp inside
      obtain ⟨alone', same⟩ := offer_alone search sees small here l.run alone
      rcases offered : (Sink.scheduler search).offer 0 row l.run with ⟨more, run⟩
      rw [offered] at alone' same
      have same : more = (t.hear vs row).1 := same
      have told : (LeafRun.receiver (Sink.scheduler search) 0 limit).onMatch l row (vs.getD row 0) =
          (⟨run, l.found + 1, row, !more⟩, more && decide (l.found + 1 < limit)) := by
        simp only [LeafRun.receiver, offered]
      rw [List.map_cons, Search.feed_cons, told, Search.andThen]
      cases more with
      | false =>
          refine ⟨_, _, _, rfl, alone', .stopped rfl ?_⟩
          rw [feedRows, if_neg (by rw [← same]; exact Bool.false_ne_true)]
      | true =>
          by_cases few : l.found + 1 < limit
          · simp only [few, decide_true, Bool.and_self, if_true]
            obtain ⟨l', more, t', fed, alone', offered⟩ :=
              ih rest (l := ⟨run, l.found + 1, row, !true⟩) alone'
            refine ⟨l', more, t', fed, alone', ?_⟩
            have first (rows' : List Nat) : feedRows (Tally.hear vs) (row :: rows') t =
                feedRows (Tally.hear vs) rows' (t.hear vs row).2 := by
              rw [feedRows, if_pos same.symm]
            cases offered with
            | nothing none => exact .all rfl few (by rw [first, none, feedRows])
            | stopped ended fed => exact .stopped ended (by rw [first, fed])
            | enough before goes many last parts fed =>
                exact .enough (row :: _) goes many last (by rw [parts, List.cons_append])
                  (by rw [List.cons_append, first, fed])
            | all goes few fed => exact .all goes few (by rw [first, fed])
          · -- the limit is reached: rows behind this one are for the next lead
            simp only [few, decide_false, Bool.and_false, Bool.false_eq_true, if_false]
            refine ⟨_, _, _, rfl, alone', ?_⟩
            refine .enough [] rfl (Nat.le_of_not_lt few) rfl rfl ?_
            rw [List.nil_append, feedRows_one, ← same]

/-- A lead that offers its matches tells what it passes, and passes something. -/
theorem leadByLeaves_alone {test : Comparison} {needle : Int64} {start stop limit : Nat}
    (some : start < stop) : Ensures (Alone w vs col values t)
    (Sink.leadByLeaves (Sink.scheduler search) values test needle 0 start stop limit)
    fun next r => ∃ t', Alone w vs col values t' r ∧
      Advances (fun row => vs[row]?.any (test.int · needle)) (Tally.hear vs) start stop t next t' ∧
      ∀ row, next = Option.some row → start < row := by
  rw [Sink.leadByLeaves]
  refine .get_bind fun r alone => ?_
  have declines :
      (LeafRun.receiver (Sink.scheduler (L := Node) (R := Int64) search) 0 limit).Declines :=
    ⟨fun _ _ _ => rfl, fun _ _ _ => rfl⟩
  obtain ⟨own, -, held⟩ := sees.holds alone.same
  have told := IntColumn.find_of_holds held small _ declines.faithful test needle start
    (Option.some stop) ⟨r, 0, start, false⟩
  rw [rowsIn_eq_matching] at told
  have inside : ∀ row ∈ matching (fun row => vs[row]?.any (test.int · needle)) start stop,
      row < vs.length := by
    intro row here
    have passes := (mem_matching.mp here).2.2
    by_contra beyond
    rw [List.getElem?_eq_none (Nat.le_of_not_lt beyond)] at passes
    cases passes
  obtain ⟨l, more, t', fed, alone', offered⟩ :=
    feed_offered sees small inside (l := ⟨r, 0, start, false⟩) alone
  rw [fed] at told
  simp only [told]
  refine Ensures.bind (Q := fun _ r' => r' = l.run) (fun _ _ => rfl) fun _ => ?_
  refine Ensures.weaken (P := Alone w vs col values t') ?_ (fun r' same => same ▸ alone')
    fun _ _ => id
  have lower := Nat.le_of_lt some
  cases offered with
  | nothing none =>
      -- nothing was told, so a lead may end anywhere behind its start
      have advanced {next : Nat} (low : start < next) (high : next ≤ stop) :
          Advances (fun row => vs[row]?.any (test.int · needle)) (Tally.hear vs) start stop t
            (Option.some next) t := by
        have lower := Nat.le_of_lt low
        rw [matching_append lower high] at none
        exact .on lower high (by rw [(List.append_eq_nil_iff.mp none).1, feedRows])
      rw [if_neg Bool.false_ne_true]
      split
      · refine (recordDistance_alone 0 _ _ _).bind fun _ => .pure fun r' alone => ?_
        refine ⟨t, alone, advanced (Nat.lt_succ_self start) some, ?_⟩
        rintro row ⟨⟩
        exact Nat.lt_succ_self start
      · refine (recordDistance_alone 0 _ _ _).bind fun _ => .pure fun r' alone => ?_
        refine ⟨t, alone, advanced some (Nat.le_refl _), ?_⟩
        rintro row ⟨⟩
        exact some
  | stopped ended fed =>
      rw [if_pos ended]
      refine .pure fun r' alone => ⟨t', alone, .stopped fed, ?_⟩
      rintro row ⟨⟩
  | enough before goes many last parts fed =>
      obtain ⟨low, high, up⟩ := matching_until parts
      rw [if_neg (by rw [goes]; exact Bool.false_ne_true), if_pos many]
      refine (recordDistance_alone 0 _ _ _).bind fun _ => .pure fun r' alone => ?_
      rw [← up, ← last] at fed
      rw [← last] at low high
      refine ⟨t', alone, .on (Nat.le_succ_of_le low) high fed, ?_⟩
      rintro row ⟨⟩
      exact Nat.lt_succ_of_le low
  | all goes few fed =>
      rw [if_neg (by rw [goes]; exact Bool.false_ne_true), if_neg (Nat.not_le_of_lt few)]
      refine (recordDistance_alone 0 _ _ _).bind fun _ => .pure fun r' alone => ?_
      refine ⟨t', alone, .on lower (Nat.le_refl _) fed, ?_⟩
      rintro row ⟨⟩
      exact some

/-- One lead after the other, until one has come to the end or the sink wants no more. -/
def Sink.offerStep (p : Scheduler Probe (Sink Node Int64) Store) (values : IntColumn)
    (test : Comparison) (needle : Int64) (stop limit start : Nat) :
    StateM (Run Probe (Sink Node Int64) Store) (Nat ⊕ Bool) := do
  if stop ≤ start then return .inr true
  match ← leadByLeaves p values test needle 0 start stop limit with
  | none => return .inr false
  | some next => return .inl next

section Ways

variable {test : Comparison} {needle : Int64} {r : Run Probe (Sink Node Int64) Store}

variable (search test needle) in
/-- The sink hears of every match until it stops, whatever a single lead is limited to. -/
theorem offerStep_ends (start stop limit : Nat) (alone : Alone w vs col values t r) :
    ∃ more r', Ends (Sink.offerStep (Sink.scheduler search) values test needle stop limit) start r
        (more, r') ∧
      (r'.sink.tally, more) = feedRows (Tally.hear vs)
        (matching (fun row => vs[row]?.any (test.int · needle)) start stop) t := by
  generalize passing : (fun row : Nat => vs[row]?.any (test.int · needle)) = q
  by_cases lower : start ≤ stop
  · -- every lead ends further on, so the rows that are left bound how many there are
    have each (n row : Nat) : Ensures
        (fun r => ∃ t', Alone w vs col values t' r ∧
          Advances q (Tally.hear vs) start stop t (some row) t' ∧ stop - row ≤ n)
        (Sink.offerStep (Sink.scheduler search) values test needle stop limit row)
        (Closer (fun n row r => ∃ t', Alone w vs col values t' r ∧
          Advances q (Tally.hear vs) start stop t (some row) t' ∧ stop - row ≤ n)
          (fun more r => (r.sink.tally, more) =
            feedRows (Tally.hear vs) (matching q start stop) t) n) := by
      rintro r ⟨t', alone, advanced, bound⟩
      suffices stepped : Ensures (Alone w vs col values t')
        (Sink.offerStep (Sink.scheduler search) values test needle stop limit row) _ from
          stepped r alone
      rw [Sink.offerStep]
      split
      next past =>
        refine .pure fun r alone => .ended ?_
        cases advanced with
        | on low high fed => rw [alone.tally, Nat.le_antisymm past high, fed]
      next more =>
        refine (leadByLeaves_alone sees small (Nat.lt_of_not_le more)).bind fun next => ?_
        rw [passing]
        rintro r ⟨t'', alone, further, progress⟩
        have advanced := advanced.trans further
        cases next with
        | none =>
            have told : (r.sink.tally, false) =
                feedRows (Tally.hear vs) (matching q start stop) t := by
              cases advanced with
              | stopped fed => rw [fed, alone.tally]
            exact .ended told
        | some next =>
            have fewer : stop - next < n := by
              have := progress next rfl
              omega
            exact .on fewer ⟨t'', alone, advanced, Nat.le_refl _⟩
    obtain ⟨ends, told⟩ := repeated_ends each true (Nat.lt_succ_self (stop - start))
      ⟨t, alone, .refl lower, Nat.le_refl _⟩
    exact ⟨_, _, ends, told⟩
  · have past : stop ≤ start := Nat.le_of_not_le lower
    refine ⟨true, r, .now ?_, ?_⟩
    · rw [Sink.offerStep, if_pos past]
      rfl
    · rw [matching_empty past, feedRows, alone.tally]

/-- Fed from the leaves, the tally hears of the same matches. -/
theorem leadDirectly_alone (start stop : Nat) : Ensures (Alone w vs col values t)
    (Sink.leadDirectly (Sink.scheduler search) Tally.receiver values test needle 0 start stop)
    fun next r => ∃ more, (r.sink.tally, more) = feedRows (Tally.hear vs)
        (matching (fun row => vs[row]?.any (test.int · needle)) start stop) t ∧
      next = if more then some stop else none := by
  rw [Sink.leadDirectly]
  refine .get_bind fun r alone => ?_
  obtain ⟨own, -, held⟩ := sees.holds alone.same
  have told := IntColumn.find_of_holds held small _ Tally.faithful_receiver test needle start
    (some stop) r.sink.tally
  rw [rowsIn_eq_matching, Tally.feed_eq_feedRows, alone.tally] at told
  rw [alone.tally]
  rcases fed : feedRows (Tally.hear vs)
    (matching (fun row => vs[row]?.any (test.int · needle)) start stop) t with ⟨t', more⟩
  rw [fed] at told
  simp only [told]
  intro r' _
  exact ⟨more, rfl, rfl⟩

variable (search test needle) in
theorem leadInts_alone (stats : Stats) (leafTime : LeafTime) (cursor : Cursor Node)
    (start stop limit : Nat) : Ensures (Alone w vs col values t)
    (Sink.leadInts (Sink.scheduler search) stats col values test needle leafTime cursor 0 start stop
      limit)
    fun next r => ∃ more, (r.sink.tally, more) = feedRows (Tally.hear vs)
        (matching (fun row => vs[row]?.any (test.int · needle)) start stop) t ∧
      next = if more then some stop else none := by
  rw [Sink.leadInts]
  split
  next past =>
    refine .pure fun r alone => ⟨true, ?_, rfl⟩
    rw [matching_empty past, feedRows, alone.tally]
  next =>
    refine .get_bind fun r alone => ?_
    have direct : r.sink.direct? col = some Tally.receiver := by
      rw [Sink.direct?]
      cases uses : t.action.usesValue with
      | true =>
          rw [(alone.source uses).1]
          simp [Payload.direct]
      | false =>
          rw [alone.tally, uses]
          split <;> rfl
    rcases cursor.leafFor r.shared.memory values start with ⟨⟨leaf, first⟩, cursor⟩
    dsimp only
    rw [direct, alone.chain]
    refine Ensures.bind (Q := fun _ r => Alone w vs col values t r) ?_ fun _ =>
      leadDirectly_alone sees small start stop
    rintro _ rfl
    exact ⟨(List.length_set ..).trans alone.chain, alone.same, alone.tally, alone.source⟩

end Ways

end Alone

/-! ### The same either way -/

/-- A search leaves a tally, and gives the flag, as its matches do one at a time, whichever way it
compares; so do offers of batches and ranges, however the matches are cut. And a condition alone in
its chain feeds a tally from the leaves what the tally hears if every match is offered to the sink,
whatever a single lead is limited to. -/
theorem bulk_as_single {w : View} {vs : List Int64} {col : Nat} {values : IntColumn}
    {t : Tally Int64} {r : Run Probe (Sink Node Int64) Store} {n : Node}
    {os : List (Bulk × List (Nat × Int64))} (m : Memory) (test : Comparison) (needle : Int64)
    (start : Nat) (stop : Option Nat) (base : Nat) (legal : n.width ∈ Width.legal)
    (each : ∀ o ∈ os, o.1.Of o.2) (search : Probe.ChainSearch) (stats : Stats)
    (leafTime : LeafTime) (cursor : Cursor Node) (first last limit limit' : Nat)
    (sees : w.Sees (Tree.holds values vs)) (small : vs.length < Slot.countBound)
    (alone : Alone w vs col values t r) :
    (n.find m Tally.receiver test needle start stop base t = Tally.receiver.feed
        (n.matching m test needle start (Node.stopOf n.size stop) base) t ∧
      ∀ blocks : Nat → Bool, (n.search m Tally.receiver test needle base).run blocks start
        (Node.stopOf n.size stop) t = Tally.receiver.feed
          (n.matching m test needle start (Node.stopOf n.size stop) base) t) ∧
    Tally.receiver.offers os t = Tally.receiver.feed (os.flatMap Prod.snd) t ∧
    ∃ next r₁ more r₂,
      Sink.leadInts (Sink.scheduler search) stats col values test needle leafTime cursor 0 first
        last limit r = (next, r₁) ∧
      Ends (Sink.offerStep (Sink.scheduler search) values test needle last limit') first r
        (more, r₂) ∧
      next = (if more then some last else none) ∧ r₁.sink.tally = r₂.sink.tally ∧
      (r₂.sink.tally, more) = Tally.receiver.feed ((rowsIn vs (test.int · needle) first
        (some last)).map fun row => (row, vs.getD row 0)) t := by
  have told (blocks : Nat → Bool) :
      (n.search m Tally.receiver test needle base).run blocks start (Node.stopOf n.size stop) t =
        Tally.receiver.feed (n.matching m test needle start (Node.stopOf n.size stop) base) t := by
    rw [← Node.hits_search]
    exact Search.run_tells _ Tally.faithful_receiver legal blocks _ _ t
  obtain ⟨more, r₂, ends, heard⟩ := offerStep_ends search sees small test needle first last limit' alone
  obtain ⟨more', heard', next⟩ := leadInts_alone search sees small test needle stats leafTime
    cursor first last limit r alone
  rw [rowsIn_eq_matching, Tally.feed_eq_feedRows, ← heard]
  obtain ⟨tally, same⟩ := Prod.mk.inj (heard'.trans heard.symm)
  refine ⟨⟨told Node.blockWidth, told⟩, Receiver.offers_eq_feed Tally.faithful_receiver each t, ?_⟩
  exact ⟨_, _, more, r₂, rfl, ends, same ▸ next, tally, rfl⟩

/-- Three rows in two leaves. -/
def nineOneTwelve : StoreM IntColumn := do
  let (_, values) ← Edit.on (← Tree.create 2) (Tree.run [.add 9, .add 1, .add 12])
  return values

theorem nineOneTwelve_holds : ∃ values s, nineOneTwelve (.empty {}) = (.ok values, s) ∧
    s.Holds (Tree.holds values [9, 1, 12] * 1) := by
  have succeeds : (nineOneTwelve (.empty {})).1.isOk = true := by decide +kernel
  cases result : nineOneTwelve (.empty {}) with
  | mk r s =>
      cases r with
      | error e =>
          rw [result] at succeeds
          cases succeeds
      | ok values =>
          obtain ⟨t, s₀, created, rest⟩ := StoreM.bind_ok.mp result
          obtain ⟨x, s₁, ran, rest⟩ := StoreM.bind_ok.mp rest
          obtain ⟨rfl, rfl⟩ := StoreM.pure_ok.mp rest
          obtain ⟨two, h⟩ := Tree.holds_create (Store.sound_empty {}) created
          have room : 0 < t.maxNodeSize := by
            rw [two]
            decide
          have max : t.maxNodeSize < 2 ^ 24 - 2 := by
            rw [two]
            decide
          have inRange : Tree.InRange Node [.add 9, .add 1, .add 12] [] := by decide
          obtain ⟨h, -⟩ :=
            Tree.run_holds h (Nat.two_pow_pos 62) room max inRange (Edit.on_ok.mp ran)
          exact ⟨x.2, s₁, rfl, h⟩

/-- Sums up to three values. -/
def sums : Tally Int64 := { action := .sum, value := 0, limit := some 3 }

/-- A run over the column that the condition is on. -/
def sumOf (values : IntColumn) (s : Store) : Run Probe (Sink Node Int64) Store where
  chain := [.fresh 100.0 0.25 (.int 0 values .greater 2 ⟨2, 64.0⟩ {})]
  sink := { tally := sums, source := some (0, values) }
  shared := s

/-- The sums of two nibbles above 2, of three offered matches, and of two rows in leads of one. -/
theorem bulk_as_single_nineOneTwelve :
    let m : Memory := ⟨⟨#[0, 0, 0, 0, 0, 0, 0, 0, 0x13, 0x03]⟩⟩
    let n : Node := ⟨0, false, false, false, .bits, 4, 3, 16⟩
    let p := Sink.scheduler (Probe.searchChain 0)
    (n.find m Tally.receiver .greater 2 0 none 10 sums).1.value = 6 ∧
    (Tally.receiver.offers [(.batch 10 5, [(10, 3), (12, 3)]), (.range 20 21, [(20, 7)])]
      sums).1.value = 13 ∧
    ∃ values s next r₁ more r₂, nineOneTwelve (.empty {}) = (.ok values, s) ∧
      Sink.leadInts p ⟨100.0, 0.25, 0, 0⟩ 0 values .greater 2 ⟨2, 64.0⟩ {} 0 0 3 1
        (sumOf values s) = (next, r₁) ∧
      Ends (Sink.offerStep p values .greater 2 3 1) 0 (sumOf values s) (more, r₂) ∧
      next = some 3 ∧ r₁.sink.tally.value = 21 ∧ r₂.sink.tally.value = 21 := by
  intro m n p
  obtain ⟨values, s, made, h⟩ := nineOneTwelve_holds
  have alone : Alone s.view [9, 1, 12] 0 values sums (sumOf values s) :=
    ⟨rfl, View.same_self _, rfl, fun _ => ⟨rfl, Cursor.valid_new _ _⟩⟩
  have legal : n.width ∈ Width.legal := by decide
  have each : ∀ o ∈ [(Bulk.batch 10 5, [(10, (3 : Int64)), (12, 3)]), (.range 20 21, [(20, 7)])],
      o.1.Of o.2 := by
    refine List.forall_mem_cons.mpr ⟨⟨by decide, by decide +kernel⟩, ?_⟩
    exact List.forall_mem_cons.mpr ⟨⟨by decide, rfl⟩, List.forall_mem_nil _⟩
  obtain ⟨⟨found, -⟩, offered, next, r₁, more, r₂, leads, ends, goes, same, told⟩ :=
    bulk_as_single m .greater 2 0 none 10 legal each (Probe.searchChain 0) ⟨100.0, 0.25, 0, 0⟩
      ⟨2, 64.0⟩ {} 0 3 1 1 h.sees (by decide) alone
  have heard : Tally.receiver.feed ((rowsIn [9, 1, 12] (Comparison.int .greater · 2) 0
      (some 3)).map fun row => (row, [9, 1, 12].getD row 0)) sums =
        ({ sums with value := 21, matched := 2 }, true) := rfl
  obtain ⟨tally, rfl⟩ := Prod.mk.inj (told.trans heard)
  refine ⟨?_, ?_, values, s, next, r₁, true, r₂, made, leads, ends, goes, ?_, ?_⟩
  · rw [found]
    decide +kernel
  · rw [offered]
    rfl
  · rw [same, tally]
  · rw [tally]

end ColumnStore
