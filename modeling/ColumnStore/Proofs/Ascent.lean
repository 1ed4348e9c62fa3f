import ColumnStore.Proofs.Rounds

set_option autoImplicit false

/-!
Ranges of rows. Whatever conditions remember and however they take turns, a search finds rows of its
range alone, and a run reports rows in ascending order.
-/
namespace ColumnStore

/-- What was found lies in the range. -/
def Within (start stop : Nat) (r : Option Nat) : Prop := ∀ row, r = some row → start ≤ row ∧ row < stop

namespace Within

variable {q : Nat → Bool} {start mid stop row : Nat} {r : Option Nat}

theorem none : Within start stop .none := nofun

theorem some (low : start ≤ row) (high : row < stop) : Within start stop (.some row) := by
  rintro row ⟨⟩
  exact ⟨low, high⟩

theorem of_first (first : First q start stop r) : Within start stop r := by
  cases first with
  | missing => exact none
  | found low high => exact some low high

theorem widen (within : Within mid stop r) (lower : start ≤ mid) : Within start stop r :=
  fun row found => ⟨Nat.le_trans lower (within row found).1, (within row found).2⟩

end Within

/-- The state may be looked at, and is as before. -/
theorem Ensures.get {S β : Type} {P : S → Prop} {R : β → S → Prop} {f : S → StateM S β}
    (next : ∀ s, P s → Ensures P (f s) R) : Ensures P (get >>= f) R :=
  fun s pre => next s pre s pre

/-! ### Searches of a chain -/

namespace Prober

variable {ν σ : Type} {p : Prober ν σ} {I : σ → Prop} {M : ν → Prop} {size start stop : Nat}

/-- A condition of which `M` is known finds rows of the range it searches, and stays so. -/
structure Ranging (p : Prober ν σ) (I : σ → Prop) (M : ν → Prop) (size : Nat) : Prop where
  find : ∀ node start stop, stop ≤ size → M node → Ensures I (p.find start stop node)
    fun r s => I s ∧ M r.2 ∧ Within start stop r.1
  setStats : ∀ node stats, M node → M (p.setStats stats node)

/-- All conditions of a chain are so, and the state they share. -/
structure Kept (I : σ → Prop) (M : ν → Prop) (c : List ν × σ) : Prop where
  chain : ∀ node ∈ c.1, M node
  shared : I c.2

section

variable (ranging : p.Ranging I M size)
include ranging

theorem findAt_within (i start : Nat) (inside : stop ≤ size) :
    Ensures (Kept I M) (p.findAt i start stop) fun r c => Kept I M c ∧ Within start stop r := by
  rintro ⟨chain, s⟩ kept
  rw [findAt]
  cases here : chain[i]? with
  | none => exact ⟨kept, .none⟩
  | some node =>
      have known := kept.chain node (List.mem_of_getElem? here)
      obtain ⟨inv, means, within⟩ := ranging.find node start stop inside known s kept.shared
      refine ⟨⟨fun other member => ?_, inv⟩, within⟩
      rcases List.mem_or_eq_of_mem_set member with old | rfl
      · exact kept.chain other old
      · exact means

theorem takeTurns_within (count fuel start next first : Nat) (inside : stop ≤ size) :
    Ensures (Kept I M) (p.takeTurns count stop fuel start next first) fun r c =>
      Kept I M c ∧ Within start stop r := by
  induction fuel generalizing start next first with
  | zero => exact .pure fun _ kept => ⟨kept, .none⟩
  | succ fuel ih =>
      rw [takeTurns]
      split
      next => exact .pure fun _ kept => ⟨kept, .none⟩
      next =>
        refine (findAt_within ranging next start inside).bind fun r => ?_
        cases r with
        | none => exact .pure fun _ kept => ⟨kept.1, .none⟩
        | some row =>
            refine .of_result fun within => ?_
            dsimp only
            split
            next =>
              refine (ih row _ _).post fun r c later => ⟨later.1, ?_⟩
              exact later.2.widen (within row rfl).1
            next =>
              split
              next => exact .pure fun _ kept => ⟨kept, within⟩
              next => exact ih start _ first

theorem findFirst_within (start : Nat) (inside : stop ≤ size) :
    Ensures (Kept I M) (p.findFirst start stop) fun r c => Kept I M c ∧ Within start stop r := by
  rw [findFirst]
  refine .get fun c kept => ?_
  dsimp only
  split
  next =>
    refine .pure fun _ kept => ⟨kept, ?_⟩
    split
    next more => exact .some (Nat.le_refl _) more
    next => exact .none
  next => exact takeTurns_within ranging _ _ _ _ _ inside

theorem confirm_kept {row : Nat} (inside : row < size) (is : List Nat) :
    Ensures (Kept I M) (p.confirm row is) fun _ => Kept I M := by
  induction is with
  | nil => exact .pure fun _ kept => kept
  | cons i is ih =>
      rw [confirm]
      refine (findAt_within ranging i row inside).bind fun r => .of_result fun _ => ?_
      split
      next => exact ih
      next => exact .pure fun _ kept => kept

end

end Prober

/-! ### Runs -/

namespace Scheduler

variable {ν τ σ : Type} {p : Scheduler ν τ σ} {I : σ → Prop} {M : ν → Prop} {J : Nat → τ → Prop}
  {n size start stop row : Nat}

/-- A sink that is ready for row `n` and those behind it, as `J n` says, is ready for those behind a
row that it was told. -/
structure Ranging (p : Scheduler ν τ σ) (I : σ → Prop) (M : ν → Prop) (J : Nat → τ → Prop)
    (size : Nat) : Prop where
  prober : p.toProber.Ranging I M size
  report : ∀ row t s, I s → row < size → J row t → J (row + 1) (p.report row t s).2
  later : ∀ n n' t, n ≤ n' → J n t → J n' t

/-- No row from `n` on was reported yet. -/
structure Reached (I : σ → Prop) (M : ν → Prop) (J : Nat → τ → Prop) (n : Nat) (r : Run ν τ σ) :
    Prop where
  chain : ∀ node ∈ r.chain, M node
  shared : I r.shared
  sink : J n r.sink

/-- A run is to go on at a row in front of which all that was reported lies. -/
def CameTo (I : σ → Prop) (M : ν → Prop) (J : Nat → τ → Prop) (stop : Nat) (next : Option Nat)
    (r : Run ν τ σ) : Prop :=
  ∃ n, Reached I M J n r ∧ ∀ row, next = some row → n ≤ row ∧ row ≤ stop

/-- What is asked of a lead. -/
def LeadsWithin (I : σ → Prop) (M : ν → Prop) (J : Nat → τ → Prop) (size : Nat)
    (lead : Lead ν τ σ) : Prop :=
  ∀ i start stop limit, start ≤ stop → stop ≤ size →
    Ensures (Reached I M J start) (lead i start stop limit) (CameTo I M J stop)

theorem Reached.cameTo {r : Run ν τ σ} (reached : Reached I M J n r) (lower : n ≤ row)
    (upper : row ≤ stop) : CameTo I M J stop (some row) r := by
  refine ⟨n, reached, ?_⟩
  rintro _ ⟨⟩
  exact ⟨lower, upper⟩

theorem Reached.stopped {r : Run ν τ σ} (reached : Reached I M J n r) :
    CameTo I M J stop none r := by
  refine ⟨n, reached, ?_⟩
  rintro _ ⟨⟩

theorem CameTo.reached {next : Option Nat} {r : Run ν τ σ} (came : CameTo I M J stop next r) :
    ∃ n, Reached I M J n r := by
  obtain ⟨n, reached, -⟩ := came
  exact ⟨n, reached⟩

/-- There is no bound on where a run that stopped is to go on. -/
theorem CameTo.stopped {r : Run ν τ σ} (came : CameTo I M J stop none r) (stop' : Nat) :
    CameTo I M J stop' none r := by
  obtain ⟨n, reached⟩ := came.reached
  exact reached.stopped

theorem onChain_reached {α : Type} {x : StateM (List ν × σ) α} {Q : α → Prop}
    (kept : Ensures (Prober.Kept I M) x fun a c => Prober.Kept I M c ∧ Q a) :
    Ensures (Reached I M J n) (onChain x) fun a r => Reached I M J n r ∧ Q a := by
  rintro ⟨chain, sink, shared⟩ ⟨each, inv, ready⟩
  obtain ⟨⟨each, inv⟩, result⟩ := kept (chain, shared) ⟨each, inv⟩
  exact ⟨⟨each, inv, ready⟩, result⟩

section

variable (ranging : p.Ranging I M J size)
include ranging

theorem Reached.later {r : Run ν τ σ} (reached : Reached I M J n r) {n' : Nat} (le : n ≤ n') :
    Reached I M J n' r :=
  ⟨reached.chain, reached.shared, ranging.later n n' _ le reached.sink⟩

theorem updateStats_reached (i : Nat) (f : Stats → Stats) :
    Ensures (Reached I M J n) (p.updateStats i f) fun _ => Reached I M J n := by
  rintro r ⟨each, inv, ready⟩
  refine ⟨fun node member => ?_, inv, ready⟩
  have member : node ∈ r.chain.modify i fun node => p.setStats (f (p.stats node)) node := member
  obtain ⟨j, here⟩ := List.getElem?_of_mem member
  rw [List.getElem?_modify, Option.map_eq_map, Option.map_eq_some_iff] at here
  obtain ⟨old, at_, rfl⟩ := here
  have old := each old (List.mem_of_getElem? at_)
  split
  · exact ranging.prober.setStats _ _ old
  · exact old

theorem reportRow_reached (inside : row < size) : Ensures (Reached I M J row) (p.reportRow row)
    fun _ => Reached I M J (row + 1) :=
  fun r reached =>
    ⟨reached.chain, reached.shared, ranging.report row r.sink r.shared reached.shared inside reached.sink⟩

theorem reportRows_reached (count start : Nat) (inside : start + count ≤ size) :
    Ensures (Reached I M J start) (p.reportRows count start) fun _ r => ∃ n, Reached I M J n r := by
  induction count generalizing start with
  | zero => exact .pure fun r reached => ⟨start, reached⟩
  | succ count ih =>
      rw [reportRows]
      refine (reportRow_reached ranging (by omega)).bind fun more => ?_
      split
      next => exact ih (start + 1) (by omega)
      next => exact .pure fun r reached => ⟨start + 1, reached⟩

theorem offer_reached (i : Nat) (inside : row < size) :
    Ensures (Reached I M J row) (p.offer i row) fun _ => Reached I M J (row + 1) := by
  rw [offer]
  refine .get fun r _ => ?_
  have confirmed := (Prober.confirm_kept ranging.prober inside (siblings i r)).post
    fun b c kept => And.intro kept (trivial : (fun _ => True) b)
  refine (onChain_reached confirmed).bind fun b => .of_result fun _ => ?_
  split
  next => exact reportRow_reached ranging inside
  next => exact .pure fun r reached => reached.later ranging (Nat.le_succ row)

/-- A lead looks at one row after the other. -/
theorem leadFrom_cameTo (i start limit fuel found : Nat) (inside : stop ≤ size) (lower : row ≤ stop) :
    Ensures (Reached I M J row) (p.leadFrom i start stop limit fuel found row)
      (CameTo I M J stop) := by
  induction fuel generalizing found row with
  | zero => exact .pure fun r reached => reached.cameTo lower (Nat.le_refl _)
  | succ fuel ih =>
      rw [leadFrom]
      split
      next =>
        refine (updateStats_reached ranging i _).bind fun _ => .pure fun r reached => ?_
        exact reached.cameTo (Nat.le_refl _) lower
      next =>
        have searched := onChain_reached (J := J) (n := row)
          (Prober.findAt_within ranging.prober i row inside)
        refine searched.bind fun next => .of_result fun within => ?_
        cases next with
        | none =>
            refine (updateStats_reached ranging i _).bind fun _ => .pure fun r reached => ?_
            exact reached.cameTo lower (Nat.le_refl _)
        | some next =>
            obtain ⟨low, high⟩ := within next rfl
            refine (Ensures.bind (Q := fun _ => Reached I M J (next + 1)) ?_ fun more => ?_)
            · exact (offer_reached ranging i (Nat.lt_of_lt_of_le high inside)).weaken
                (fun r reached => reached.later ranging low) fun _ _ => id
            · split
              next =>
                exact ih _ high
              next => exact .pure fun r reached => reached.stopped

theorem lead_within : LeadsWithin I M J size p.lead :=
  fun i start _ limit lower inside => leadFrom_cameTo ranging i start limit _ _ inside lower

variable {lead : Lead ν τ σ} (leads : LeadsWithin I M J size lead)
include leads

theorem turn_within : LeadsWithin I M J size (p.turn lead) := by
  intro i start stop limit lower inside
  rw [turn]
  refine .get fun before _ => (leads i start stop limit lower inside).bind fun next => ?_
  refine .get fun after _ => ?_
  dsimp only
  rintro r ⟨n, reached, further⟩
  have counted := updateStats_reached (n := n) ranging i fun s => { s with
    turns := s.turns + 1, matched := s.matched + (p.reported after.sink - p.reported before.sink) }
  exact ⟨n, counted r reached, further⟩

omit ranging leads in
/-- What comes next starts where the run came to. -/
theorem CameTo.next {β : Type} {x : StateM (Run ν τ σ) β} {Q : β → Run ν τ σ → Prop}
    (ranging : p.Ranging I M J size) {row : Nat}
    (rest : row ≤ stop → Ensures (Reached I M J row) x Q) :
    Ensures (CameTo I M J stop (some row)) x Q := by
  rintro r ⟨n, reached, further⟩
  obtain ⟨le, upper⟩ := further row rfl
  exact rest upper r (reached.later ranging le)

theorem probe_cameTo (c : QuerySettings) (best start : Nat) (is : List Nat) (lower : start ≤ stop)
    (inside : stop ≤ size) : Ensures (Reached I M J start) (p.probe lead c best stop is start)
      (CameTo I M J stop) := by
  induction is generalizing start with
  | nil => exact .pure fun r reached => reached.cameTo (Nat.le_refl _) lower
  | cons i is ih =>
      rw [probe]
      split
      next => exact .pure fun r reached => reached.cameTo (Nat.le_refl _) lower
      next =>
        refine .get fun r _ => ?_
        dsimp only
        split
        next => exact ih start lower
        next =>
          obtain ⟨first, last⟩ := window_bounds (p.statsAt i r) c.bestDistance start stop lower
          refine (turn_within ranging leads i start _ c.probeMatches first
            (Nat.le_trans last inside)).bind fun next => ?_
          cases next with
          | none => exact .pure fun r came => came.stopped stop
          | some next =>
              exact CameTo.next ranging fun upper => ih next (Nat.le_trans upper last)

theorem round_cameTo (c : QuerySettings) (lower : start ≤ stop) (inside : stop ≤ size) :
    Ensures (Reached I M J start) (p.round lead c start stop) (CameTo I M J stop) := by
  rw [round]
  refine .get fun r _ => ?_
  dsimp only
  obtain ⟨first, last⟩ :=
    window_bounds (p.statsAt (p.cheapest c r.chain) r) c.aggregateWindow start stop lower
  refine (turn_within ranging leads _ start _ c.findLocals first (Nat.le_trans last inside)).bind
    fun next => ?_
  cases next with
  | none => exact .pure fun r came => came.stopped stop
  | some next =>
      refine CameTo.next ranging fun upper => ?_
      exact probe_cameTo ranging leads c _ next _ (Nat.le_trans upper last) inside

theorem rounds_reached (c : QuerySettings) (fuel start : Nat) (inside : stop ≤ size) :
    Ensures (Reached I M J start) (p.rounds lead c stop fuel start) fun _ r =>
      ∃ n, Reached I M J n r := by
  induction fuel generalizing start with
  | zero => exact .pure fun r reached => ⟨start, reached⟩
  | succ fuel ih =>
      rw [rounds]
      split
      next => exact .pure fun r reached => ⟨start, reached⟩
      next more =>
        refine (round_cameTo ranging leads c (Nat.le_of_not_le more) inside).bind fun next => ?_
        cases next with
        | none => exact .pure fun r came => came.reached
        | some next => exact CameTo.next ranging fun _ => ih next

/-- Whoever leads, and whatever a condition takes for a match, rows are reported in ascending
order. -/
theorem aggregate_reached (c : QuerySettings) (start : Nat) (inside : stop ≤ size) :
    Ensures (Reached I M J start) (p.aggregate lead c start stop) fun _ r =>
      ∃ n, Reached I M J n r := by
  rw [aggregate]
  refine .get fun r _ => ?_
  dsimp only
  split
  next =>
    by_cases lower : start ≤ stop
    · exact reportRows_reached ranging _ _ (by omega)
    · rw [Nat.sub_eq_zero_of_le (Nat.le_of_not_le lower)]
      exact .pure fun r reached => ⟨start, reached⟩
  next => exact rounds_reached ranging leads c _ start inside

end

end Scheduler

end ColumnStore
