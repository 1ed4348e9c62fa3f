import ColumnStore.Proofs.Turns

set_option autoImplicit false

/-!
Runs of a chain into a sink. Which condition leads, how far and how the statistics change has no
part in what the sink is told: every row of the range that all conditions match, in ascending order,
until the sink stops.
-/
namespace ColumnStore

/-! ### Sinks -/

/-- The rows of a range that pass. -/
def matching (q : Nat → Bool) (start stop : Nat) : List Nat :=
  (List.range' start (stop - start)).filter q

section Matching

variable {q q' : Nat → Bool} {start mid stop size row : Nat}

theorem matching_append (lower : start ≤ mid) (upper : mid ≤ stop) :
    matching q start stop = matching q start mid ++ matching q mid stop := by
  have parts : stop - start = (mid - start) + (stop - mid) := by omega
  have place : start + (mid - start) = mid := by omega
  rw [matching, parts, ← List.range'_append_1, place, List.filter_append, ← matching, ← matching]

theorem matching_empty (none : stop ≤ start) : matching q start stop = [] := by
  rw [matching, Nat.sub_eq_zero_of_le none]
  rfl

theorem matching_none (fails : ∀ row, start ≤ row → row < stop → q row = false) :
    matching q start stop = [] := by
  refine List.filter_eq_nil_iff.mpr fun row inside => ?_
  have := List.mem_range'_1.mp inside
  simp [fails row this.1 (by omega)]

/-- A row after rows that fail. -/
theorem matching_succ (low : start ≤ row)
    (before : ∀ row', start ≤ row' → row' < row → q row' = false) :
    matching q start (row + 1) = if q row then [row] else [] := by
  rw [matching_append low (Nat.le_succ row), matching_none before, List.nil_append, matching,
    Nat.succ_sub (Nat.le_refl row), Nat.sub_self]
  cases passes : q row <;> simp [passes]

end Matching

section Feed

variable {τ : Type} {tell : Nat → τ → Bool × τ} {t t' t'' : τ} {rows rows' : List Nat}

/-- Tells rows one after the other; the flag says that the sink did not stop. -/
def feedRows (tell : Nat → τ → Bool × τ) : List Nat → τ → τ × Bool
  | [], t => (t, true)
  | row :: rows, t => if (tell row t).1 then feedRows tell rows (tell row t).2 else ((tell row t).2, false)

theorem feedRows_append (fed : feedRows tell rows t = (t', true)) :
    feedRows tell (rows ++ rows') t = feedRows tell rows' t' := by
  induction rows generalizing t with
  | nil =>
      cases fed
      rfl
  | cons row rows ih =>
      rw [feedRows] at fed
      rw [List.cons_append, feedRows]
      split
      next more => exact ih (by rwa [if_pos more] at fed)
      next stop =>
        rw [if_neg stop] at fed
        cases fed

theorem feedRows_stopped (fed : feedRows tell rows t = (t', false)) :
    feedRows tell (rows ++ rows') t = (t', false) := by
  induction rows generalizing t with
  | nil => cases fed
  | cons row rows ih =>
      rw [feedRows] at fed
      rw [List.cons_append, feedRows]
      split
      next more => exact ih (by rwa [if_pos more] at fed)
      next stop => rwa [if_neg stop] at fed

theorem feedRows_one (row : Nat) (t : τ) :
    feedRows tell [row] t = ((tell row t).2, (tell row t).1) := by
  rw [feedRows]
  split
  next more => rw [more, feedRows]
  next stop => rw [Bool.eq_false_iff.mpr stop]

/-- How far a run came from row `start`: to a row after all matches in front of it were told, or to
the end, where the sink stopped it. -/
inductive Advances (q : Nat → Bool) (tell : Nat → τ → Bool × τ) (start stop : Nat) (t : τ) :
    Option Nat → τ → Prop where
  | on {next : Nat} {t' : τ} (low : start ≤ next) (high : next ≤ stop)
      (fed : feedRows tell (matching q start next) t = (t', true)) :
      Advances q tell start stop t (some next) t'
  | stopped {t' : τ} (fed : feedRows tell (matching q start stop) t = (t', false)) :
      Advances q tell start stop t none t'

namespace Advances

variable {q : Nat → Bool} {start mid stop stop' next row : Nat} {r : Option Nat}

theorem refl (inside : start ≤ stop) : Advances q tell start stop t (some start) t :=
  .on (Nat.le_refl _) inside (by rw [matching_empty (Nat.le_refl _), feedRows])

theorem trans (first : Advances q tell start stop t (some mid) t')
    (second : Advances q tell mid stop t' r t'') : Advances q tell start stop t r t'' := by
  cases first with
  | on low high fed =>
      cases second with
      | on low' high' fed' =>
          refine .on (Nat.le_trans low low') high' ?_
          rw [matching_append low low', feedRows_append fed, fed']
      | stopped fed' =>
          refine .stopped ?_
          rw [matching_append low high, feedRows_append fed, fed']

theorem widen (advances : Advances q tell start stop t r t') (lower : start ≤ stop)
    (more : stop ≤ stop') : Advances q tell start stop' t r t' := by
  cases advances with
  | on low high fed => exact .on low (Nat.le_trans high more) fed
  | stopped fed =>
      refine .stopped ?_
      rw [matching_append lower more, feedRows_stopped fed]

/-- No row from `start` on is a match. -/
theorem skip (inside : start ≤ stop) (fails : ∀ row, start ≤ row → row < stop → q row = false) :
    Advances q tell start stop t (some stop) t :=
  .on inside (Nat.le_refl _) (by rw [matching_none fails, feedRows])

/-- The rows up to `row` are done, of which only the last one can be a match. -/
theorem step {more : Bool} (low : start ≤ row) (high : row < stop)
    (before : ∀ row', start ≤ row' → row' < row → q row' = false)
    (fed : feedRows tell (if q row then [row] else []) t = (t', more)) :
    Advances q tell start stop t (if more then some (row + 1) else none) t' := by
  rw [← matching_succ low before] at fed
  cases more with
  | true => exact .on (Nat.le_succ_of_le low) high fed
  | false =>
      refine .stopped ?_
      rw [matching_append (Nat.le_succ_of_le low) high, feedRows_stopped fed]

/-- A run to the end told every match that the sink took. -/
theorem whole (advances : Advances q tell start stop t (some next) t') (past : stop ≤ next) :
    t' = (feedRows tell (matching q start stop) t).1 := by
  cases advances with
  | on _ high fed => rw [Nat.le_antisymm past high, fed]

end Advances

end Feed

/-! ### Rounds -/

/-- A round always looks at some row. -/
structure QuerySettings.Positive (c : QuerySettings) : Prop where
  findLocals : 0 < c.findLocals
  probeMatches : 0 < c.probeMatches
  aggregateWindow : 0 < c.aggregateWindow

theorem QuerySettings.positive_of_check {c : QuerySettings} (legal : c.check = .ok ()) :
    c.Positive := by
  rw [QuerySettings.check] at legal
  split at legal
  · cases legal
  next locals =>
  split at legal
  · cases legal
  next distance =>
  split at legal
  · cases legal
  next probes =>
  split at legal
  · cases legal
  next unit =>
  split at legal
  · cases legal
  next weight =>
  split at legal
  · cases legal
  next window => exact ⟨by omega, by omega, by omega⟩

namespace Scheduler

variable {ν τ σ : Type} {p : Scheduler ν τ σ} {I : σ → Prop} {M : (Nat → Bool) → ν → Prop}
  {tell : Nat → τ → Bool × τ} {qs : List (Nat → Bool)} {q : Nat → Bool} {t : τ}
  {i size start stop row limit : Nat}

/-- What a sink makes of a row depends on nothing but what it was told before. -/
structure Lawful (p : Scheduler ν τ σ) (I : σ → Prop) (M : (Nat → Bool) → ν → Prop) (size : Nat)
    (tell : Nat → τ → Bool × τ) : Prop where
  prober : p.toProber.Lawful I M size
  report : ∀ row t s, I s → p.report row t s = tell row t

/-- The conditions are known, and the sink is `t`. -/
structure Running (I : σ → Prop) (M : (Nat → Bool) → ν → Prop) (qs : List (Nat → Bool)) (t : τ)
    (r : Run ν τ σ) : Prop where
  shared : I r.shared
  chain : List.Forall₂ M qs r.chain
  sink : r.sink = t

/-! #### Steps of the loops -/

/-- A lead has found so many rows and goes on at a row. -/
structure Collected where
  found : Nat
  row : Nat

def leadStep (p : Scheduler ν τ σ) (i start stop limit : Nat) (a : Collected) :
    StateM (Run ν τ σ) (Collected ⊕ Option Nat) := do
  if a.found = limit then
    p.recordDistance i (a.row - start) a.found 1.1
    return .inr (some a.row)
  match ← onChain (p.findAt i a.row stop) with
  | none =>
      p.recordDistance i (stop - start) a.found 1.1
      return .inr (some stop)
  | some next =>
      if ← p.offer i next then return .inl ⟨a.found + 1, next + 1⟩ else return .inr none

theorem leadFrom_eq (fuel : Nat) (a : Collected) :
    p.leadFrom i start stop limit fuel a.found a.row =
      repeated (p.leadStep i start stop limit) (some stop) fuel a := by
  induction fuel generalizing a with
  | zero => rfl
  | succ fuel ih =>
      rw [leadFrom, repeated, leadStep]
      split
      next => rfl
      next =>
        rw [bind_assoc]
        refine bind_congr fun r => ?_
        cases r with
        | none => rfl
        | some next =>
            dsimp only
            rw [bind_assoc]
            refine bind_congr fun more => ?_
            cases more with
            | false => rfl
            | true => exact ih ⟨a.found + 1, next + 1⟩

def roundStep (p : Scheduler ν τ σ) (lead : Lead ν τ σ) (c : QuerySettings) (stop start : Nat) :
    StateM (Run ν τ σ) (Nat ⊕ Unit) := do
  if stop ≤ start then return .inr ()
  match ← p.round lead c start stop with
  | none => return .inr ()
  | some next => return .inl next

theorem rounds_eq (lead : Lead ν τ σ) (c : QuerySettings) (fuel start : Nat) :
    p.rounds lead c stop fuel start = repeated (p.roundStep lead c stop) () fuel start := by
  induction fuel generalizing start with
  | zero => rfl
  | succ fuel ih =>
      rw [rounds, repeated, roundStep]
      split
      next => rfl
      next =>
        rw [bind_assoc]
        refine bind_congr fun r => ?_
        cases r with
        | none => rfl
        | some next => exact ih next

/-- The rows in front of the next one are done, and that one is not the first any more once
something was found. -/
structure Leading (qs : List (Nat → Bool)) (tell : Nat → τ → Bool × τ) (start stop : Nat)
    (t : τ) (a : Collected) (t' : τ) : Prop where
  low : start ≤ a.row
  high : a.row ≤ stop
  advanced : Advances (passes qs) tell start stop t (some a.row) t'
  progress : a.found = 0 ∨ start < a.row

/-- What a lead of at most `limit` matches has come to. -/
def Led (I : σ → Prop) (M : (Nat → Bool) → ν → Prop) (qs : List (Nat → Bool))
    (tell : Nat → τ → Bool × τ) (start stop limit : Nat) (t : τ) (next : Option Nat)
    (r : Run ν τ σ) : Prop :=
  ∃ t', Running I M qs t' r ∧ Advances (passes qs) tell start stop t next t' ∧
    ∀ row, next = some row → 0 < limit → start < stop → start < row

theorem onChain_ensures {α : Type} {x : StateM (List ν × σ) α} {Q : α → Prop}
    (ensured : Ensures (Prober.Knows I M qs) x fun a c => Prober.Knows I M qs c ∧ Q a) :
    Ensures (Running I M qs t) (onChain x) fun a r => Running I M qs t r ∧ Q a := by
  rintro ⟨chain, sink, shared⟩ ⟨inv, each, same⟩
  obtain ⟨⟨inv, each⟩, result⟩ := ensured (chain, shared) ⟨inv, each⟩
  exact ⟨⟨inv, each, same⟩, result⟩

section

variable (lawful : p.Lawful I M size tell)
include lawful

theorem updateStats_ensures (i : Nat) (f : Stats → Stats) :
    Ensures (Running I M qs t) (p.updateStats i f) fun _ r => Running I M qs t r := by
  rintro r ⟨inv, each, same⟩
  exact ⟨inv, forall₂_modify each (fun q node => lawful.prober.setStats q node _) i, same⟩

theorem recordDistance_ensures (i rows found : Nat) (spare : Float) :
    Ensures (Running I M qs t) (p.recordDistance i rows found spare) fun _ r =>
      Running I M qs t r :=
  updateStats_ensures lawful i _

theorem reportRow_ensures (row : Nat) : Ensures (Running I M qs t) (p.reportRow row) fun more r =>
    Running I M qs (tell row t).2 r ∧ more = (tell row t).1 := by
  rintro r ⟨inv, each, rfl⟩
  rw [reportRow, lawful.report _ _ _ inv]
  exact ⟨⟨inv, each, rfl⟩, rfl⟩

/-- A row that one condition matches is told if all do. -/
theorem offer_ensures (known : qs[i]? = some q) (inside : row < size) (here : q row = true) :
    Ensures (Running I M qs t) (p.offer i row) fun more r => ∃ t', Running I M qs t' r ∧
      feedRows tell (if passes qs row then [row] else []) t = (t', more) := by
  rw [offer]
  refine .get_bind fun r running => ?_
  have low : ∀ j ∈ siblings i r, j < qs.length := by
    intro j inside
    rw [running.chain.length_eq]
    exact List.mem_range.mp (List.mem_of_mem_filter inside)
  have others (all : ∀ j ∈ siblings i r, ∀ q, qs[j]? = some q → q row = true) :
      passes qs row = true := by
    refine passes_iff.mpr fun j q' at_ => ?_
    by_cases same : j = i
    · rw [same, known] at at_
      cases at_
      exact here
    · refine all j (List.mem_filter.mpr ⟨List.mem_range.mpr ?_, by simpa using same⟩) q' at_
      rw [← running.chain.length_eq]
      exact (List.getElem?_eq_some_iff.mp at_).1
  refine (onChain_ensures (Prober.confirm_ensures lawful.prober inside low)).weaken
    (fun r' same => same ▸ running) (fun _ _ => id) |>.bind fun b => ?_
  split
  next yes =>
    intro r' confirmed
    have all := passes_iff.mp (others (confirmed.2.mp yes))
    obtain ⟨running, more⟩ := reportRow_ensures lawful row r' confirmed.1
    exact ⟨_, running, by rw [if_pos (passes_iff.mpr all), feedRows_one, more]⟩
  next no =>
    refine .pure fun r' confirmed => ⟨t, confirmed.1, ?_⟩
    rw [if_neg, feedRows]
    exact fun all => no (confirmed.2.mpr fun j _ q => passes_iff.mp all j q)

theorem reportRows_ensures (count start : Nat) :
    Ensures (Running I M qs t) (p.reportRows count start) fun _ r =>
      Running I M qs (feedRows tell (List.range' start count) t).1 r := by
  induction count generalizing start t with
  | zero => exact .pure fun _ running => running
  | succ count ih =>
    rw [reportRows]
    refine (reportRow_ensures lawful start).bind fun more => ?_
    rintro r ⟨running, rfl⟩
    rw [List.range'_succ, feedRows]
    split
    next more => exact ih (start + 1) r running
    next => exact running

end

/-- What is asked of a lead: it tells what it passes, and passes something. -/
def LeadsOn (I : σ → Prop) (M : (Nat → Bool) → ν → Prop) (qs : List (Nat → Bool)) (size : Nat)
    (tell : Nat → τ → Bool × τ) (lead : Lead ν τ σ) : Prop :=
  ∀ i start stop limit t, i < qs.length → start ≤ stop → stop ≤ size → 0 < limit →
    Ensures (Running I M qs t) (lead i start stop limit) fun r run =>
      ∃ t', Running I M qs t' run ∧ Advances (passes qs) tell start stop t r t' ∧
        ∀ next, r = some next → start < stop → start < next

section

variable (lawful : p.Lawful I M size tell)
include lawful

/-- A step of a lead moves on or gives the row to go on at, as `Led` says. -/
theorem leadStep_ensures (known : qs[i]? = some q) (inside : stop ≤ size) (n : Nat)
    (a : Collected) : Ensures (fun r => ∃ t', Running I M qs t' r ∧
        Leading qs tell start stop t a t' ∧ stop - a.row ≤ n)
      (p.leadStep i start stop limit a)
      (Closer (fun n a r => ∃ t', Running I M qs t' r ∧
        Leading qs tell start stop t a t' ∧ stop - a.row ≤ n)
        (Led I M qs tell start stop limit t) n) := by
  rintro r ⟨t', running, leading, bound⟩
  suffices each : Ensures (Running I M qs t') (p.leadStep i start stop limit a) _ from
    each r running
  have advanced := leading.advanced
  rw [leadStep]
  split
  next enough =>
    refine (recordDistance_ensures lawful i _ _ _).bind fun _ => .pure fun r running => ?_
    refine .ended ⟨t', running, advanced, fun next same positive _ => ?_⟩
    have := leading.progress
    cases same
    omega
  next =>
    refine (onChain_ensures (Prober.findAt_ensures lawful.prober known inside)).bind fun found => ?_
    cases found with
    | none =>
        refine .of_result fun first => ?_
        refine (recordDistance_ensures lawful i _ _ _).bind fun _ => .pure fun r running => ?_
        cases first with
        | missing fails =>
            have rest : Advances (passes qs) tell a.row stop t' (some stop) t' :=
              .skip leading.high fun row low high => not_passes known (fails row low high)
            refine .ended ⟨t', running, advanced.trans rest, fun next same _ some => ?_⟩
            cases same
            exact some
    | some next =>
        refine .of_result fun first => ?_
        cases first with
        | found low high here before =>
            refine (offer_ensures lawful known (Nat.lt_of_lt_of_le high inside) here).bind
              fun more => ?_
            rintro r ⟨t'', running, fed⟩
            have stepped := advanced.trans (.step low high
              (fun row' low' less => not_passes known (before row' low' less)) fed)
            have lower := leading.low
            cases more with
            | true =>
                have fewer : stop - (next + 1) < n := by omega
                refine .on fewer ⟨t'', running, ?_, Nat.le_refl _⟩
                exact {
                  low := Nat.le_trans lower (Nat.le_succ_of_le low)
                  high := high
                  advanced := stepped
                  progress := .inr (Nat.lt_succ_of_le (Nat.le_trans lower low)) }
            | false => exact .ended ⟨t'', running, stepped, nofun⟩

/-- A lead ends, having told what it passed. -/
theorem lead_ends (limit : Nat) (known : qs[i]? = some q) (inside : stop ≤ size)
    (lower : start ≤ stop) {r : Run ν τ σ} (running : Running I M qs t r) :
    Ends (p.leadStep i start stop limit) ⟨0, start⟩ r (p.lead i start stop limit r) ∧
      Led I M qs tell start stop limit t (p.lead i start stop limit r).1
        (p.lead i start stop limit r).2 := by
  have leading : Leading qs tell start stop t ⟨0, start⟩ t := {
    low := Nat.le_refl _
    high := lower
    advanced := .refl lower
    progress := .inl rfl }
  have fueled : stop - start < stop - start + 2 := Nat.lt_add_of_pos_right Nat.two_pos
  rw [lead, leadFrom_eq _ ⟨0, start⟩]
  exact repeated_ends (leadStep_ensures lawful known inside) (some stop) fueled
    ⟨t, running, leading, Nat.le_refl _⟩

theorem lead_leadsOn : LeadsOn I M qs size tell p.lead := by
  intro i start stop limit t low lower inside positive r running
  obtain ⟨-, t', running', advances, progress⟩ :=
    lead_ends lawful limit (List.getElem?_eq_getElem low) inside lower running
  exact ⟨t', running', advances, fun next same some => progress next same positive some⟩

variable {lead : Lead ν τ σ} (leads : LeadsOn I M qs size tell lead)
include leads

theorem turn_leadsOn : LeadsOn I M qs size tell (p.turn lead) := by
  intro i start stop limit t low lower inside positive
  rw [turn]
  refine .get_bind fun before running => ?_
  refine Ensures.weaken (Ensures.bind (leads i start stop limit t low lower inside positive)
    fun r => ?_) (fun r' same => same ▸ running) fun _ _ => id
  refine .get_bind fun after ⟨t', running', advanced⟩ => ?_
  refine Ensures.bind ((updateStats_ensures lawful i _).weaken (fun r' same => same ▸ running')
    fun _ _ => id) fun _ => ?_
  exact .pure fun run running'' => ⟨t', running'', advanced⟩

omit lawful leads in
theorem window_bounds (s : Stats) (rows start stop : Nat) (lower : start ≤ stop) :
    start ≤ window s rows start stop ∧ window s rows start stop ≤ stop := by
  rw [window]
  split <;> omega

omit lawful leads in
theorem lt_window (s : Stats) {rows start stop : Nat} (positive : 0 < rows) (some : start < stop) :
    start < window s rows start stop := by
  rw [window]
  split <;> omega

theorem probe_ensures {c : QuerySettings} (settings : c.Positive) (best : Nat) (is : List Nat)
    (each : ∀ i ∈ is, i < qs.length) (start : Nat) (lower : start ≤ stop) (inside : stop ≤ size) :
    Ensures (Running I M qs t) (p.probe lead c best stop is start) fun r run =>
      ∃ t', Running I M qs t' run ∧ Advances (passes qs) tell start stop t r t' := by
  induction is generalizing start t with
  | nil => exact .pure fun _ running => ⟨t, running, .refl lower⟩
  | cons i is ih =>
    obtain ⟨low, rest⟩ := List.forall_mem_cons.mp each
    rw [probe]
    split
    next => exact .pure fun _ running => ⟨t, running, .refl lower⟩
    next more =>
      refine .get_bind fun r running => ?_
      refine Ensures.weaken (P := Running I M qs t) ?_ (fun r' same => same ▸ running)
        fun _ _ => id
      dsimp only
      split
      next => exact ih rest start lower
      next =>
        obtain ⟨first, last⟩ := window_bounds (p.statsAt i r) c.bestDistance start stop lower
        refine Ensures.bind (turn_leadsOn lawful leads i start _ c.probeMatches t low first
          (Nat.le_trans last inside) settings.probeMatches) fun r => ?_
        rintro run ⟨t', running, advances, -⟩
        have advanced := advances.widen first last
        cases r with
        | none => exact ⟨t', running, advanced⟩
        | some next =>
            obtain ⟨t'', running, advances⟩ := ih rest next
              (by cases advanced with | on _ high => exact high) run running
            exact ⟨t'', running, advanced.trans advances⟩

omit lawful leads in
theorem cheapestFrom_lt {costs : List Float} {low : Float} {best i count : Nat} (few : best < count)
    (next : i + costs.length ≤ count) : cheapestFrom low best i costs < count := by
  induction costs generalizing low best i with
  | nil => exact few
  | cons cost costs ih =>
    rw [List.length_cons] at next
    rw [cheapestFrom]
    split
    · exact ih (by omega) (by omega)
    · exact ih few (by omega)

theorem round_ensures {c : QuerySettings} (settings : c.Positive) (conditions : qs ≠ [])
    (some : start < stop) (inside : stop ≤ size) :
    Ensures (Running I M qs t) (p.round lead c start stop) fun r run =>
      ∃ t', Running I M qs t' run ∧ Advances (passes qs) tell start stop t r t' ∧
        ∀ next, r = Option.some next → start < next := by
  rw [round]
  refine .get_bind fun r running => ?_
  refine Ensures.weaken (P := Running I M qs t) ?_ (fun r' same => same ▸ running) fun _ _ => id
  have count := running.chain.length_eq
  have low : p.cheapest c r.chain < qs.length := by
    have := List.length_pos_iff.mpr conditions
    rw [cheapest]
    exact cheapestFrom_lt this (by rw [List.length_map]; omega)
  dsimp only
  generalize p.cheapest c r.chain = best at low
  obtain ⟨first, last⟩ :=
    window_bounds (p.statsAt best r) c.aggregateWindow start stop (Nat.le_of_lt some)
  have ahead := lt_window (p.statsAt best r) settings.aggregateWindow some
  refine Ensures.bind (turn_leadsOn lawful leads best start _ c.findLocals t low first
    (Nat.le_trans last inside) settings.findLocals) fun r' => ?_
  rintro run ⟨t', running', advances, progress⟩
  have advanced := advances.widen first last
  cases r' with
  | none => exact ⟨t', running', advanced, fun _ stop => nomatch stop⟩
  | some next =>
      have siblings : ∀ i ∈ List.range r.chain.length, i < qs.length := by
        rw [← count]
        exact fun i => List.mem_range.mp
      obtain ⟨t'', running'', more⟩ := probe_ensures lawful leads settings best _ siblings next
        (by cases advanced with | on _ high => exact high) inside run running'
      refine ⟨t'', running'', advanced.trans more, fun last same => ?_⟩
      have := progress next rfl ahead
      rw [same] at more
      cases more with
      | on low => omega

theorem roundStep_ensures {c : QuerySettings} (settings : c.Positive) (conditions : qs ≠ [])
    (inside : stop ≤ size) (n row : Nat) :
    Ensures (fun r => ∃ t', Running I M qs t' r ∧
        Advances (passes qs) tell start stop t (some row) t' ∧ stop - row ≤ n)
      (p.roundStep lead c stop row)
      (Closer (fun n row r => ∃ t', Running I M qs t' r ∧
        Advances (passes qs) tell start stop t (some row) t' ∧ stop - row ≤ n)
        (fun _ r => Running I M qs (feedRows tell (matching (passes qs) start stop) t).1 r) n) := by
  rintro r ⟨t', running, advanced, bound⟩
  suffices each : Ensures (Running I M qs t') (p.roundStep lead c stop row) _ from each r running
  rw [roundStep]
  split
  next past =>
    refine .pure fun r running => .ended ?_
    rwa [advanced.whole past] at running
  next more =>
    refine (round_ensures lawful leads settings conditions (Nat.lt_of_not_le more) inside).bind
      fun next => ?_
    refine fun r led => ?_
    obtain ⟨t'', running, further, progress⟩ := led
    have advanced := advanced.trans further
    cases next with
    | none =>
        refine .ended ?_
        cases advanced with
        | stopped fed => rwa [fed]
    | some next =>
        have fewer : stop - next < n := by
          have := progress next rfl
          omega
        exact .on fewer ⟨t'', running, advanced, Nat.le_refl _⟩

/-- The rounds of a run end, whoever leads, and the sink was told the rows that all conditions
match. -/
theorem rounds_ends {c : QuerySettings} (settings : c.Positive) (conditions : qs ≠ [])
    (inside : stop ≤ size) (lower : start ≤ stop) {fuel : Nat} (fueled : stop - start < fuel)
    {r : Run ν τ σ} (running : Running I M qs t r) :
    Ends (p.roundStep lead c stop) start r (p.rounds lead c stop fuel start r) ∧
      Running I M qs (feedRows tell (matching (passes qs) start stop) t).1
        (p.rounds lead c stop fuel start r).2 := by
  rw [rounds_eq]
  exact repeated_ends (roundStep_ensures lawful leads settings conditions inside) () fueled
    ⟨t, running, .refl lower, Nat.le_refl _⟩

theorem aggregate_ends {c : QuerySettings} (settings : c.Positive) (conditions : qs ≠ [])
    (inside : stop ≤ size) {r : Run ν τ σ} (running : Running I M qs t r) :
    Ends (p.roundStep lead c stop) start r (p.aggregate lead c start stop r) ∧
      Running I M qs (feedRows tell (matching (passes qs) start stop) t).1
        (p.aggregate lead c start stop r).2 := by
  have many : r.chain.length ≠ 0 := by
    rw [← running.chain.length_eq]
    exact Nat.ne_of_gt (List.length_pos_iff.mpr conditions)
  have run : p.aggregate lead c start stop r =
      p.rounds lead c stop (roundBound r.chain.length (stop - start)) start r := by
    simp only [aggregate, get_bind_apply, if_neg many]
  have fueled : stop - start < roundBound r.chain.length (stop - start) := by
    rw [roundBound]
    exact Nat.lt_of_lt_of_le (Nat.lt_succ_self _) (Nat.le_mul_of_pos_right _ (Nat.succ_pos _))
  rw [run]
  by_cases lower : start ≤ stop
  · exact rounds_ends lawful leads settings conditions inside lower fueled running
  · -- Nothing lies between the bounds, so the first step is the last.
    have past : stop ≤ start := Nat.le_of_lt (Nat.lt_of_not_le lower)
    have stops : p.roundStep lead c stop start r = (.inr (), r) := by
      rw [roundStep, if_pos past]
      rfl
    obtain ⟨fuel, same⟩ := Nat.exists_eq_add_one.mpr (Nat.zero_lt_of_lt fueled)
    have nothing : p.rounds lead c stop (fuel + 1) start r = ((), r) := by
      rw [rounds, if_pos past]
      rfl
    rw [same, nothing, matching_empty past]
    exact ⟨.now stops, running⟩

/-- Whoever leads, the sink is told the rows that all conditions match. -/
theorem aggregate_ensures {c : QuerySettings} (settings : c.Positive) (inside : stop ≤ size) :
    Ensures (Running I M qs t) (p.aggregate lead c start stop) fun _ run =>
      Running I M qs (feedRows tell (matching (passes qs) start stop) t).1 run := by
  intro r running
  by_cases conditions : qs = []
  · subst conditions
    have none : r.chain.length = 0 := running.chain.length_eq.symm
    have all : matching (passes []) start stop = List.range' start (stop - start) :=
      List.filter_eq_self.mpr fun _ _ => rfl
    simp only [aggregate, get_bind_apply, if_pos none]
    rw [all]
    exact reportRows_ensures lawful _ _ r running
  · exact (aggregate_ends lawful leads settings conditions inside running).2

end

/-! #### Leads that may collect nothing -/

section Stall

variable {n : Nat}

theorem updateStats_length (i : Nat) (f : Stats → Stats) :
    Ensures (fun r : Run ν τ σ => r.chain.length = n) (p.updateStats i f) fun _ r =>
      r.chain.length = n :=
  fun _ same => (List.length_modify ..).trans same

theorem turn_nothing (i start stop : Nat) :
    Ensures (fun r : Run ν τ σ => r.chain.length = n) (p.turn p.lead i start stop 0) fun next r =>
      next = some start ∧ r.chain.length = n := by
  have kept (f : Stats → Stats) := updateStats_length (p := p) (n := n) i f
  have led : Ensures (fun r : Run ν τ σ => r.chain.length = n) (p.lead i start stop 0)
      fun next r => next = some start ∧ r.chain.length = n := by
    rw [lead, leadFrom, if_pos rfl]
    exact (kept _).bind fun _ => .pure fun r same => ⟨rfl, same⟩
  rw [turn]
  refine .get_bind fun before same => Ensures.weaken (led.bind fun next => ?_)
    (fun _ eq => eq ▸ same) fun _ _ => id
  refine .get_bind fun after ⟨here, same⟩ => Ensures.weaken ((kept _).bind fun _ => ?_)
    (fun _ eq => eq ▸ same) fun _ _ => id
  exact .pure fun r same => ⟨here, same⟩

/-- The only condition leads, and there is no other to be probed. -/
theorem round_nothing {c : QuerySettings} (none : c.findLocals = 0) (some : start < stop) :
    Ensures (fun r : Run ν τ σ => r.chain.length = 1) (p.round p.lead c start stop) fun next r =>
      next = Option.some start ∧ r.chain.length = 1 := by
  rw [round, none]
  refine .get_bind fun r alone => ?_
  have first : p.cheapest c r.chain = 0 :=
    Nat.lt_one_iff.mp (cheapestFrom_lt Nat.one_pos (by simp [alone]))
  have only : List.range r.chain.length = [0] := by rw [alone, List.range_one]
  rw [first, only]
  refine ((turn_nothing 0 start _).bind fun next => ?_).weaken (fun _ eq => eq ▸ alone)
    fun _ _ => id
  rintro r ⟨rfl, alone⟩
  have skipped : p.probe p.lead c 0 stop [0] start r = (Option.some start, r) := by
    rw [probe, if_neg (Nat.not_le_of_lt some), get_bind_apply, if_pos (.inl rfl)]
    rfl
  simp only [skipped]
  exact ⟨trivial, alone⟩

theorem roundStep_nothing {c : QuerySettings} (none : c.findLocals = 0) (some : start < stop) :
    Ensures (fun r : Run ν τ σ => r.chain.length = 1) (p.roundStep p.lead c stop start)
      fun next r => next = .inl start ∧ r.chain.length = 1 := by
  rw [roundStep, if_neg (Nat.not_le_of_lt some)]
  refine (round_nothing none some).bind fun next => ?_
  rintro r ⟨rfl, alone⟩
  exact ⟨rfl, alone⟩

/-- The rounds of one condition that may collect nothing go on forever; such settings are not
legal. -/
theorem rounds_stall {c : QuerySettings} (none : c.findLocals = 0) (some : start < stop)
    {r : Run ν τ σ} (alone : r.chain.length = 1) (out : Unit × Run ν τ σ) :
    ¬ Ends (p.roundStep p.lead c stop) start r out := by
  refine not_ends (I := fun row r => row = start ∧ r.chain.length = 1) (fun row => ?_)
    ⟨rfl, alone⟩
  rintro r ⟨rfl, alone⟩
  obtain ⟨stays, alone⟩ := roundStep_nothing none some r alone
  exact ⟨row, stays, rfl, alone⟩

end Stall

/-- Whatever the statistics and legal settings say, the rounds of a run, the leads in them and the
turns of a search come to an end. The sink is told the rows that all conditions match, one after the
other, until it stops; the search finds the first of them. -/
theorem reports_matching {c : QuerySettings} (lawful : p.Lawful I M size tell)
    (legal : c.check = .ok ()) (conditions : qs ≠ []) (start : Nat) (inside : stop ≤ size)
    {r : Run ν τ σ} (running : Running I M qs t r) :
    (Ends (p.roundStep p.lead c stop) start r (p.aggregate p.lead c start stop r) ∧
      Running I M qs (feedRows tell (matching (passes qs) start stop) t).1
        (p.aggregate p.lead c start stop r).2) ∧
    (∀ i first last limit t' r', i < qs.length → first ≤ last → last ≤ size →
      Running I M qs t' r' →
      Ends (p.leadStep i first last limit) ⟨0, first⟩ r' (p.lead i first last limit r')) ∧
    (Ends (p.turnStep qs.length stop) ⟨start, 0, 0⟩ (r.chain, r.shared)
        (p.findFirst start stop (r.chain, r.shared)) ∧
      First (passes qs) start stop (p.findFirst start stop (r.chain, r.shared)).1) := by
  have settings := QuerySettings.positive_of_check legal
  refine ⟨aggregate_ends lawful (lead_leadsOn lawful) settings conditions inside running, ?_, ?_⟩
  · intro i first last limit t' r' low lower inside' running'
    have known := List.getElem?_eq_getElem low
    exact (lead_ends lawful limit known inside' lower running').1
  · obtain ⟨ends, -, first⟩ := Prober.findFirst_ends lawful.prober start inside
      conditions (c := (r.chain, r.shared)) ⟨running.shared, running.chain⟩
    exact ⟨ends, first⟩

/-- Conditions that look at one row after the other, and a sink that stops after `limit` rows. -/
def sieve (limit : Nat) : Scheduler ((Nat → Bool) × Stats) (List Nat) Unit where
  find start stop node := return (firstWhere node.1 (stop - start) start, node)
  stats := Prod.snd
  setStats stats node := (node.1, stats)
  report row rows _ := (decide (rows.length + 1 < limit), rows ++ [row])
  reported := List.length

theorem sieve_lawful (limit size : Nat) : (sieve limit).Lawful (fun _ => True)
    (fun q node => node.1 = q) size
    fun row rows => (decide (rows.length + 1 < limit), rows ++ [row]) where
  prober := {
    find := fun q node start stop _ same _ _ => by
      subst same
      exact ⟨trivial, rfl, firstWhere_between node.1 start stop⟩
    setStats := fun _ _ _ same => same }
  report := fun _ _ _ _ => rfl

/-- Even rows with statistics that are no numbers, and every third row, which costs no time. -/
def evenThird : Run ((Nat → Bool) × Stats) (List Nat) Unit where
  chain := [((· % 2 == 0), ⟨0.0 / 0.0, 1.0 / 0.0, 0, 0⟩), ((· % 3 == 0), ⟨0.0, 0.0, 0, 0⟩)]
  sink := []
  shared := ()

theorem reports_matching_evenThird : QuerySettings.check {} = .ok () ∧
    ((sieve 2).aggregate (sieve 2).lead {} 1 20 evenThird).2.sink = [6, 12] ∧
    ((sieve 2).findFirst 1 20 (evenThird.chain, evenThird.shared)).1 = some 6 := by
  have legal : QuerySettings.check {} = .ok () := rfl
  have running : Running (fun _ => True) (fun q node => node.1 = q) [(· % 2 == 0), (· % 3 == 0)] []
      evenThird := ⟨trivial, .cons rfl (.cons rfl .nil), rfl⟩
  obtain ⟨⟨-, reported⟩, -, -, first⟩ := reports_matching (sieve_lawful 2 20) legal
    (List.cons_ne_nil _ _) 1 (Nat.le_refl 20) running
  have before : ∀ row < 6, 1 ≤ row → passes [(· % 2 == 0), (· % 3 == 0)] row = false := by decide
  exact ⟨legal, reported.sink.trans (by decide), first.unique (.found (by decide) (by decide)
    (by decide) fun row low less => before row less low)⟩

end Scheduler

end ColumnStore
