import ColumnStore.Proofs.LeafLead
import ColumnStore.Proofs.ScanRange
import ColumnStore.Query.Run

set_option autoImplicit false

/-!
The rows that a query finds. They are rows of the table in ascending order, whatever its conditions
are, and all that the table holds is there as before.
-/
namespace ColumnStore

/-! ### Tallies -/

/-- Rows of a table were found in ascending order, all of them in front of row `n`. -/
structure Tally.Ascending (size n : Nat) (t : Tally Int64) : Prop where
  action : t.action = .findAll
  sorted : t.found.Pairwise (· > ·)
  before : ∀ row ∈ t.found, row < n ∧ row < size

namespace Tally.Ascending

variable {size n row : Nat} {t : Tally Int64}

theorem later (ascending : t.Ascending size n) {n' : Nat} (le : n ≤ n') : t.Ascending size n' where
  action := ascending.action
  sorted := ascending.sorted
  before row inside :=
    ⟨Nat.lt_of_lt_of_le (ascending.before row inside).1 le, (ascending.before row inside).2⟩

theorem take (ascending : t.Ascending size n) (low : n ≤ row) (high : row < size) (v : Int64) :
    (t.take row v).1.Ascending size (row + 1) := by
  have taken : (t.take row v).1 =
      { t with matched := t.matched + 1, found := row :: t.found } := by
    simp only [Tally.take, ascending.action]
  rw [taken]
  have earlier (row' : Nat) (inside : row' ∈ t.found) : row' < row :=
    Nat.lt_of_lt_of_le (ascending.before row' inside).1 low
  exact {
    action := ascending.action
    sorted := .cons earlier ascending.sorted
    before := List.forall_mem_cons.mpr ⟨⟨Nat.lt_succ_self row, high⟩, fun row' inside =>
      ⟨Nat.lt_succ_of_lt (earlier row' inside), (ascending.before row' inside).2⟩⟩ }

theorem feed {stop : Nat} {told : List (Nat × Int64)} (ascending : t.Ascending size n)
    (ascends : (told.map Prod.fst).Pairwise (· < ·)) (inside : stop ≤ size) (lower : n ≤ stop)
    (range : ∀ e ∈ told, n ≤ e.1 ∧ e.1 < stop) :
    (Tally.receiver.feed told t).1.Ascending size stop := by
  induction told generalizing n t with
  | nil => exact ascending.later lower
  | cons e told ih =>
      obtain ⟨first, ascends⟩ := List.pairwise_cons.mp ascends
      obtain ⟨⟨low, high⟩, range⟩ := List.forall_mem_cons.mp range
      have taken := ascending.take low (Nat.lt_of_lt_of_le high inside) e.2
      rw [Search.feed_cons, Search.andThen]
      show (if (t.take e.1 e.2).2 then _ else t.take e.1 e.2).1.Ascending size stop
      split
      next =>
        refine ih taken ascends high fun e' there => ⟨?_, (range e' there).2⟩
        exact first e'.1 (List.mem_map_of_mem there)
      next => exact taken.later high

end Tally.Ascending

/-! ### Leads over leaves -/

/-- Rows with their values, told by a search of a column. -/
theorem IntColumn.find_told {w : View} {m : Memory} {size stop : Nat} {values : IntColumn}
    {c : Cursor Node} {S : Type} {r : Receiver S} (reads : c.Reads w size values)
    (same : w.Same m) (small : size < Slot.countBound) (faithful : r.Faithful) (test : Comparison)
    (needle : Int64) (start : Nat) (s : S) :
    ∃ told : List (Nat × Int64), values.find m r test needle start (some stop) s = r.feed told s ∧
      (told.map Prod.fst).Pairwise (· < ·) ∧ ∀ e ∈ told, start ≤ e.1 ∧ e.1 < stop := by
  obtain ⟨vs, sees, rfl, -⟩ := reads
  obtain ⟨own, -, held⟩ := sees.holds same
  refine ⟨_, find_of_holds held small r faithful test needle start (some stop) s, ?_, ?_⟩
  · rw [List.map_map, rowsIn_eq_matching]
    exact (List.map_id _).symm ▸ (List.pairwise_lt_range' 1).filter _
  · intro e inside
    obtain ⟨row, here, rfl⟩ := List.mem_map.mp inside
    rw [rowsIn_eq_matching] at here
    obtain ⟨low, high, -⟩ := mem_matching.mp here
    exact ⟨low, high⟩

namespace Sink

open Scheduler (Reached CameTo LeadsWithin)

/-- The sink takes rows, not values of a column, and those that it took are in front of row `n`. -/
structure Collects (size n : Nat) (s : Sink Node Int64) : Prop where
  rows : s.source = none
  tally : s.tally.Ascending size n

/-- A run over columns of a view has reported no row from `n` on. -/
abbrev RunTo (w : View) (b size n : Nat) : Run Probe (Sink Node Int64) Store → Prop :=
  Reached (·.Holds (w.frame * 1)) (fun p => Probe.Ranges w b size p.scan) (Collects size) n

abbrev RunsOn (w : View) (b size stop : Nat) :
    Option Nat → Run Probe (Sink Node Int64) Store → Prop :=
  CameTo (·.Holds (w.frame * 1)) (fun p => Probe.Ranges w b size p.scan) (Collects size) stop

/-- Matches up to some row were offered, and the run is not behind that one. -/
structure OfferedTo (w : View) (b size stop : Nat) (l : LeafRun (Sink Node Int64)) : Prop where
  reached : ∃ n ≤ l.last + 1, RunTo w b size n l.run
  before : l.last < stop

variable {w : View} {b size start stop n : Nat} {search : Probe.ChainSearch}

theorem report_collects {row : Nat} {s : Sink Node Int64} (collects : s.Collects size row)
    (inside : row < size) (m : Memory) : (s.report row m).2.Collects size (row + 1) := by
  have told : (s.report row m).2 = { s with tally := (s.tally.take row Tallied.zero).1 } := by
    simp only [report, read, collects.rows]
  rw [told]
  exact ⟨collects.rows, collects.tally.take (Nat.le_refl row) inside _⟩

theorem scheduler_ranging (searches : Probe.SearchesWithin w b search) (small : b < Slot.countBound)
    (few : size ≤ b) : (scheduler (L := Node) (R := Int64) search).Ranging (·.Holds (w.frame * 1))
      (fun p => Probe.Ranges w b size p.scan) (Collects size) size where
  prober := Probe.prober_ranging searches few small
  report _ _ store _ inside collects := report_collects collects inside store.memory
  later _ _ _ le collects := ⟨collects.rows, collects.tally.later le⟩

theorem direct?_eq {col : Nat} {s : Sink Node Int64} {receiver : Receiver (Tally Int64)}
    (direct : s.direct? col = some receiver) : receiver = Tally.receiver := by
  rw [direct?] at direct
  split at direct
  · split at direct
    · cases direct
    · exact (Option.some.inj direct).symm
  · exact (Option.some.inj direct).symm

section

variable {p : Scheduler Probe (Sink Node Int64) Store}
  (ranging : p.Ranging (·.Holds (w.frame * 1)) (fun p => Probe.Ranges w b size p.scan)
    (Collects size) size) (inside : stop ≤ size)
include ranging inside

theorem feed_offeredTo (i limit : Nat) {told : List (Nat × Int64)}
    {l : LeafRun (Sink Node Int64)} (offered : OfferedTo w b size stop l)
    (ascends : (told.map Prod.fst).Pairwise (· < ·))
    (range : ∀ e ∈ told, (∃ n ≤ e.1, RunTo w b size n l.run) ∧ e.1 < stop) :
    OfferedTo w b size stop ((LeafRun.receiver p i limit).feed told l).1 := by
  induction told generalizing l with
  | nil => exact offered
  | cons e told ih =>
      obtain ⟨row, v⟩ := e
      obtain ⟨first, ascends⟩ := List.pairwise_cons.mp ascends
      obtain ⟨⟨⟨n, low, reached⟩, high⟩, range⟩ := List.forall_mem_cons.mp range
      have here := Scheduler.offer_reached ranging i (Nat.lt_of_lt_of_le high inside) l.run
        (reached.later ranging low)
      rw [Search.feed_cons, Search.andThen]
      have offered : OfferedTo w b size stop
          ((LeafRun.receiver p i limit).onMatch l row v).1 :=
        ⟨⟨row + 1, Nat.le_refl _, here⟩, high⟩
      split
      next =>
        refine ih offered ascends fun e there => ⟨⟨row + 1, ?_, here⟩, (range e there).2⟩
        exact first e.1 (List.mem_map_of_mem there)
      next => exact offered

variable (small : size < Slot.countBound) {values : IntColumn} {cursor : Cursor Node}
  (reads : cursor.Reads w size values) (test : Comparison) (needle : Int64)
include small reads

theorem leadByLeaves_within (i limit : Nat) (some : start < stop) :
    Ensures (RunTo w b size start) (leadByLeaves p values test needle i start stop limit)
      (RunsOn w b size stop) := by
  rw [leadByLeaves]
  refine .get fun r reached => ?_
  have declines : (LeafRun.receiver p i limit).Declines := ⟨fun _ _ _ => rfl, fun _ _ _ => rfl⟩
  obtain ⟨told, found, ascends, range⟩ := IntColumn.find_told reads
    (View.same_of_holds reached.shared) small declines.faithful test needle start
    { run := r, last := start }
  have offered := feed_offeredTo ranging inside i limit (l := { run := r, last := start })
    ⟨⟨start, Nat.le_succ _, reached⟩, some⟩ ascends fun e there =>
      ⟨⟨start, (range e there).1, reached⟩, (range e there).2⟩
  rw [← found] at offered
  generalize values.find r.shared.memory (LeafRun.receiver p i limit) test needle start
    (Option.some stop) { run := r, last := start } = answer at offered ⊢
  obtain ⟨l, more⟩ := answer
  obtain ⟨⟨n, low, reached⟩, before⟩ := offered
  refine Ensures.bind (Q := fun _ => RunTo w b size n) (fun _ _ => reached) fun _ => ?_
  have recorded (rows found : Nat) (spare : Float) :
      Ensures (RunTo w b size n) (p.recordDistance i rows found spare) fun _ => RunTo w b size n :=
    Scheduler.updateStats_reached ranging i _
  split
  next => exact .pure fun r reached => reached.stopped
  next =>
    split
    next =>
      exact (recorded _ _ _).bind fun _ => .pure fun r reached => reached.cameTo low before
    next =>
      refine (recorded _ _ _).bind fun _ => .pure fun r reached => ?_
      exact reached.cameTo (Nat.le_trans low before) (Nat.le_refl _)

/-- Fed from the leaves, the tally takes the same rows. -/
theorem leadDirectly_within (i : Nat) (some : start < stop) :
    Ensures (RunTo w b size start)
      (leadDirectly p Tally.receiver values test needle i start stop) (RunsOn w b size stop) := by
  rw [leadDirectly]
  refine .get fun r reached => ?_
  obtain ⟨told, found, ascends, range⟩ := IntColumn.find_told reads
    (View.same_of_holds reached.shared) small Tally.faithful_receiver test needle start r.sink.tally
  have taken := reached.sink.tally.feed ascends inside (Nat.le_of_lt some) range
  rw [← found] at taken
  generalize values.find r.shared.memory Tally.receiver test needle start (Option.some stop)
    r.sink.tally = answer at taken ⊢
  obtain ⟨tally, more⟩ := answer
  refine Ensures.bind (Q := fun _ => RunTo w b size stop)
    (fun _ _ => ⟨reached.chain, reached.shared, reached.sink.rows, taken⟩) fun _ => ?_
  refine (Scheduler.updateStats_reached ranging i _).bind fun _ => .pure fun r reached => ?_
  split
  next => exact reached.cameTo (Nat.le_refl _) (Nat.le_refl _)
  next => exact reached.stopped

theorem leadInts_within (stats : Stats) (col : Nat) (leafTime : LeafTime) (i limit : Nat)
    (lower : start ≤ stop) : Ensures (RunTo w b size start)
      (leadInts p stats col values test needle leafTime cursor i start stop limit)
      (RunsOn w b size stop) := by
  rw [leadInts]
  split
  next => exact .pure fun r reached => reached.cameTo lower (Nat.le_refl _)
  next more =>
    have some : start < stop := Nat.lt_of_not_le more
    refine .get fun r reached => ?_
    obtain ⟨vs, sees, rfl, valid⟩ := id reads
    obtain ⟨leaf, first, cursor', found, valid, -⟩ := Cursor.leafFor_valid sees
      (View.same_of_holds reached.shared) small valid (Nat.lt_of_lt_of_le some inside)
    simp only [found]
    refine Ensures.bind (Q := fun _ => RunTo w b vs.length start) ?_ fun _ => ?_
    · refine fun _ _ => ⟨fun probe member => ?_, reached.shared, reached.sink⟩
      rcases List.mem_or_eq_of_mem_set member with old | rfl
      · exact reached.chain probe old
      · exact .int ⟨vs, sees, rfl, valid⟩
    · split
      next receiver direct =>
        split
        next =>
          rw [direct?_eq direct]
          exact leadDirectly_within ranging inside small reads test needle i some
        next => exact leadByLeaves_within ranging inside small reads test needle i limit some
      next => exact leadByLeaves_within ranging inside small reads test needle i limit some

omit inside reads in
theorem lead_within : LeadsWithin (·.Holds (w.frame * 1)) (fun p => Probe.Ranges w b size p.scan)
    (Collects size) size (lead p) := by
  intro i start stop limit lower inside
  rw [lead]
  refine .get fun r reached => ?_
  cases here : r.chain[i]? with
  | none => exact Scheduler.lead_within ranging i start stop limit lower inside
  | some probe =>
      obtain ⟨stats, scan⟩ := probe
      have ranges := reached.chain _ (List.mem_of_getElem? here)
      cases scan with
      | int col values test needle leafTime cursor =>
          cases ranges with
          | int reads =>
              exact leadInts_within ranging inside small reads test needle stats col leafTime i
                limit lower
      | _ => exact Scheduler.lead_within ranging i start stop limit lower inside

end

end Sink

/-! ### Queries -/

theorem StoreM.Keeps.lift_state {α : Type} {I : Store → Prop} {x : StateM Store α} {Q : α → Prop}
    (ensured : Ensures I x fun a s => I s ∧ Q a) : StoreM.Keeps I (ExceptT.lift x) Q :=
  fun s inv => ⟨(ensured s inv).1, fun _ ok => Except.ok.inj ok ▸ (ensured s inv).2⟩

/-- What a view shows is still held where all of the view is there. -/
theorem View.Sees.held {w : View} {A R : Assertion} {s : Store} (sees : w.Sees A)
    (h : s.Holds (w.frame * R)) : s.Holds A := by
  obtain ⟨sound, own, owns, base, rfl, same⟩ := h.left
  obtain ⟨part, inside, here⟩ := sees.holds same
  exact ⟨sound, part, owns.mono inside, base ▸ here⟩

namespace Query

variable {q : Query} {w : View} {t : Table} {b : Nat} {x : Sheet} (sees : w.Sees (t.holds b x))
  (small : b < Slot.countBound) (start : Nat) (stop limit : Option Nat)
include sees small

theorem runRows_keeps {tally : Tally Int64} (ascending : tally.Ascending t.size 0) :
    (q.runRows t tally start stop).Keeps (·.Holds (w.frame * 1)) fun tally =>
      ∃ n, tally.Ascending t.size n := by
  have bound : (q.bind t).Keeps (·.Holds (w.frame * 1)) fun chain =>
      ∀ p ∈ chain, Probe.Ranges w b t.size p.scan := by
    refine StoreM.Keeps.lift.bind fun _ _ => ?_
    exact (Probe.bindChain_keeps q.settings t q.chain).post fun chain columns p inside =>
      columns p inside w b x sees
  refine bound.bind fun chain ranges => ?_
  split
  next => exact .pure ⟨0, ascending⟩
  next =>
    have few := Table.size_le_of_sees sees
    have ranging := Sink.scheduler_ranging
      (Probe.searchChain_within (w := w) small (q.depth - 1)) small few
    have inside : Node.stopOf t.size stop ≤ t.size := Nat.min_le_right _ _
    have run := Scheduler.aggregate_reached ranging
      (Sink.lead_within ranging (Nat.lt_of_le_of_lt few small)) q.settings
      (min start (Node.stopOf t.size stop)) inside
    refine StoreM.Keeps.bind (Q := fun r => ∃ n, r.2.tally.Ascending t.size n)
      (StoreM.Keeps.lift_state fun s h => ?_) fun r found => .pure found
    obtain ⟨n, reached⟩ := run ⟨chain, { tally, source := none }, s⟩
      ⟨ranges, h, rfl, ascending.later (Nat.zero_le _)⟩
    exact ⟨reached.shared, n, reached.sink.tally⟩

/-- In a view of a table, what is found are rows of it, each once. -/
theorem findAll_keeps : (q.findAll t start stop limit).Keeps (·.Holds (w.frame * 1)) fun rows =>
    rows.Pairwise (· < ·) ∧ ∀ row ∈ rows, row < t.size := by
  have none : (Tally.mk .findAll 0 0 limit none [] [] fun _ => true : Tally Int64).Ascending
      t.size 0 := ⟨rfl, .nil, List.forall_mem_nil _⟩
  refine (runRows_keeps sees small start stop none).bind fun tally found => .pure ?_
  obtain ⟨n, ascending⟩ := found
  refine ⟨List.pairwise_reverse.mpr ascending.sorted, fun row inside => ?_⟩
  exact (ascending.before row (List.mem_reverse.mp inside)).2

end Query

end ColumnStore
