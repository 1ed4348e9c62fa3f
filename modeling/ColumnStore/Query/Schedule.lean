import ColumnStore.Settings

set_option autoImplicit false

/-!
How the conditions of a chain work together. A search for one row lets them take turns from the
last candidate on. A run over many rows lets the cheapest condition lead: its matches are confirmed
by the others row by row, the others are probed for a while so that their statistics stay current,
and then the leader is chosen again.
-/
namespace ColumnStore

/-- Running statistics of a condition. -/
structure Stats where
  /-- Rows between matches of the condition alone. -/
  distance : Float
  /-- Time to test one more row; zero if rows are looked up. -/
  time : Float
  /-- Turns it has led. -/
  turns : Nat := 0
  /-- Confirmed matches of those turns. -/
  matched : Nat := 0
  deriving Inhabited

def Stats.cost (s : Stats) (c : QuerySettings) : Float :=
  c.distanceWeight * c.bitwidthTimeUnit / s.distance + s.time

/-- What a chain needs of its conditions, of type `ν`; they share a `σ`. -/
structure Prober (ν σ : Type) where
  /-- The first row of a range that a condition matches alone. -/
  find : Nat → Nat → ν → StateM σ (Option Nat × ν)
  stats : ν → Stats
  setStats : Stats → ν → ν

namespace Prober

variable {ν σ : Type}

/-- Lets condition `i` search a range. -/
def findAt (p : Prober ν σ) (i start stop : Nat) : StateM (List ν × σ) (Option Nat) :=
  fun (chain, s) =>
    match chain[i]? with
    | none => (none, (chain, s))
    | some node =>
        match p.find start stop node s with
        | ((r, node), s) => (r, (chain.set i node, s))

/-- Turns from condition `next` on; all from `first` up to it have found row `start`. -/
def takeTurns (p : Prober ν σ) (count stop : Nat) :
    Nat → Nat → Nat → Nat → StateM (List ν × σ) (Option Nat)
  | 0, _, _, _ => return none
  | fuel + 1, start, next, first => do
      if stop ≤ start then return none
      match ← p.findAt next start stop with
      | none => return none
      | some row =>
          let next := (next + 1) % count
          if row ≠ start then takeTurns p count stop fuel row next next
          else if next = first then return some row
          else takeTurns p count stop fuel start next first

/-- The first row of a range that all conditions match. -/
def findFirst (p : Prober ν σ) (start stop : Nat) : StateM (List ν × σ) (Option Nat) := do
  let count := (← get).1.length
  if count = 0 then return if start < stop then some start else none
  takeTurns p count stop ((stop - start + 1) * (count + 1)) start 0 0

/-- Whether the conditions with the given numbers match a row. -/
def confirm (p : Prober ν σ) (row : Nat) : List Nat → StateM (List ν × σ) Bool
  | [] => return true
  | i :: is => do
      if (← p.findAt i row (row + 1)) = some row then confirm p row is else return false

end Prober

/-- A run of a chain into a sink. -/
structure Run (ν τ σ : Type) where
  chain : List ν
  sink : τ
  shared : σ

/-- Conditions together with a sink for matches, of type `τ`. -/
structure Scheduler (ν τ σ : Type) extends Prober ν σ where
  /-- Tells the sink about a row; `false` stops the run. -/
  report : Nat → τ → σ → Bool × τ
  /-- Rows the sink was told about. -/
  reported : τ → Nat

namespace Scheduler

variable {ν τ σ α : Type}

def onChain (x : StateM (List ν × σ) α) : StateM (Run ν τ σ) α := fun ⟨chain, sink, shared⟩ =>
  match x (chain, shared) with
  | (a, (chain, shared)) => (a, ⟨chain, sink, shared⟩)

def reportRow (p : Scheduler ν τ σ) (row : Nat) : StateM (Run ν τ σ) Bool := fun r =>
  match p.report row r.sink r.shared with
  | (more, sink) => (more, { r with sink })

/-- Rows from `start` on without any condition. -/
def reportRows (p : Scheduler ν τ σ) : Nat → Nat → StateM (Run ν τ σ) Unit
  | 0, _ => return
  | count + 1, start => do if ← p.reportRow start then reportRows p count (start + 1)

def statsAt (p : Scheduler ν τ σ) (i : Nat) (r : Run ν τ σ) : Stats :=
  match r.chain[i]? with
  | some node => p.stats node
  | none => default

def updateStats (p : Scheduler ν τ σ) (i : Nat) (f : Stats → Stats) : StateM (Run ν τ σ) Unit :=
  modify fun r => { r with chain := r.chain.modify i fun node => p.setStats (f (p.stats node)) node }

/-- Records the distance of `found` matches in `rows` rows; `spare` keeps it finite. -/
def recordDistance (p : Scheduler ν τ σ) (i rows found : Nat) (spare : Float) :
    StateM (Run ν τ σ) Unit :=
  p.updateStats i fun s => { s with distance := Float.ofNat rows / (Float.ofNat found + spare) }

/-- The numbers of the other conditions. -/
def siblings (i : Nat) (r : Run ν τ σ) : List Nat := (List.range r.chain.length).filter (· ≠ i)

/-- Reports a row that the others confirm; `false` only when the sink stopped. -/
def offer (p : Scheduler ν τ σ) (i row : Nat) : StateM (Run ν τ σ) Bool := do
  if ← onChain (p.confirm row (siblings i (← get))) then p.reportRow row else return true

/-- How a condition leads: from its number, a range and the most matches of its own it collects to
the row to go on at, or none when the sink stopped. -/
abbrev Lead (ν τ σ : Type) := Nat → Nat → Nat → Nat → StateM (Run ν τ σ) (Option Nat)

def leadFrom (p : Scheduler ν τ σ) (i start stop limit : Nat) :
    Nat → Nat → Nat → StateM (Run ν τ σ) (Option Nat)
  | 0, _, _ => return some stop
  | fuel + 1, found, row => do
      if found = limit then
        p.recordDistance i (row - start) found 1.1
        return some row
      match ← onChain (p.findAt i row stop) with
      | none =>
          p.recordDistance i (stop - start) found 1.1
          return some stop
      | some next =>
          if ← p.offer i next then leadFrom p i start stop limit fuel (found + 1) (next + 1)
          else return none

/-- Leads by searching for one match after the other. -/
def lead (p : Scheduler ν τ σ) : Lead ν τ σ := fun i start stop limit =>
  p.leadFrom i start stop limit (stop - start + 2) 0 start

/-- Lets a condition lead and counts what came of it. -/
def turn (p : Scheduler ν τ σ) (lead : Lead ν τ σ) : Lead ν τ σ := fun i start stop limit => do
  let before := p.reported (← get).sink
  let next ← lead i start stop limit
  let after := p.reported (← get).sink
  p.updateStats i fun s => { s with turns := s.turns + 1, matched := s.matched + (after - before) }
  return next

/-- The number of the first cost that is below `low` and below all before it. -/
def cheapestFrom (low : Float) (best : Nat) : Nat → List Float → Nat
  | _, [] => best
  | i, cost :: costs =>
      if cost < low then cheapestFrom cost i (i + 1) costs else cheapestFrom low best (i + 1) costs

/-- The first of the cheapest conditions. -/
def cheapest (p : Scheduler ν τ σ) (c : QuerySettings) (chain : List ν) : Nat :=
  cheapestFrom (1.0 / 0.0) 0 0 (chain.map fun node => (p.stats node).cost c)

/-- The end of the rows that a condition may look at; lookups take all of them. -/
def window (s : Stats) (rows start stop : Nat) : Nat :=
  if s.time == 0.0 then stop else min stop (start + rows)

/-- Probes the other conditions, unless all their cost is time, which no match could lower. -/
def probe (p : Scheduler ν τ σ) (lead : Lead ν τ σ) (c : QuerySettings) (best stop : Nat) :
    List Nat → Nat → StateM (Run ν τ σ) (Option Nat)
  | [], start => return some start
  | i :: is, start => do
      if stop ≤ start then return some start
      let s := p.statsAt i (← get)
      if i = best ∨ s.time >= s.cost c then probe p lead c best stop is start
      else
        match ← p.turn lead i start (window s c.bestDistance start stop) c.probeMatches with
        | none => return none
        | some next => probe p lead c best stop is next

/-- The cheapest condition leads, then the others are probed. -/
def round (p : Scheduler ν τ σ) (lead : Lead ν τ σ) (c : QuerySettings) (start stop : Nat) :
    StateM (Run ν τ σ) (Option Nat) := do
  let r ← get
  let best := p.cheapest c r.chain
  let window := window (p.statsAt best r) c.aggregateWindow start stop
  match ← p.turn lead best start window c.findLocals with
  | none => return none
  | some next => p.probe lead c best stop (List.range r.chain.length) next

/-- Rounds until the range ends or the sink stops. -/
def rounds (p : Scheduler ν τ σ) (lead : Lead ν τ σ) (c : QuerySettings) (stop : Nat) :
    Nat → Nat → StateM (Run ν τ σ) Unit
  | 0, _ => return
  | fuel + 1, start => do
      if stop ≤ start then return
      match ← p.round lead c start stop with
      | none => return
      | some next => rounds p lead c stop fuel next

/-- More rounds than a run takes that ends: a round without progress only takes its leader out of
the choice, so after one for each condition nothing changes any more. -/
def roundBound (count rows : Nat) : Nat := (rows + 1) * (count + 2)

/-- Reports every row of a range that all conditions match, until the sink stops. -/
def aggregate (p : Scheduler ν τ σ) (lead : Lead ν τ σ) (c : QuerySettings) (start stop : Nat) :
    StateM (Run ν τ σ) Unit := do
  let count := (← get).chain.length
  if count = 0 then p.reportRows (stop - start) start
  else p.rounds lead c stop (roundBound count (stop - start)) start

end Scheduler

end ColumnStore
