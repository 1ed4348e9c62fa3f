import ColumnStore.Query.Probe
import ColumnStore.Query.Tally

set_option autoImplicit false

/-!
Sinks take rows and feed a tally with the values of a source column. Conditions on integers lead
leaf by leaf; alone in their chain they feed the tally directly if it wants no value or the value
they search.
-/
namespace ColumnStore

/-- Columns with leaves of type `L` are sources of values of type `R`. -/
class Payload (L : Type) (R : outParam Type) where
  get : Memory → Tree L → Nat → Cursor L → R × Cursor L
  /-- Whether leaves of integers may feed a tally without the sink. -/
  direct : Option (Receiver (Tally R))

instance : Payload Node Int64 where
  get m t row c := c.get m t row
  direct := some Tally.receiver

instance {α : Type} [Scalar α] : Payload (ScalarLeaf α) Float where
  get m t row c :=
    let (v, c) := c.get m t row
    (Scalar.toFloat v, c)
  direct := none

structure Sink (L R : Type) where
  tally : Tally R
  /-- The number and the values of the source column. -/
  source : Option (Nat × Tree L)
  cursor : Cursor L := {}

namespace Sink

variable {L R : Type} [Tallied R] [Payload L R]

/-- The value for a row; zero where no value is wanted. -/
def read (m : Memory) (row : Nat) (s : Sink L R) : R × Sink L R :=
  match s.source with
  | some (_, t) =>
      if s.tally.action.usesValue then
        let (v, cursor) := Payload.get m t row s.cursor
        (v, { s with cursor })
      else (Tallied.zero, s)
  | none => (Tallied.zero, s)

def report (row : Nat) (s : Sink L R) (m : Memory) : Bool × Sink L R :=
  let (v, s) := s.read m row
  let (tally, more) := s.tally.take row v
  (more, { s with tally })

/-- The receiver for matches of a condition on a column. -/
def direct? (col : Nat) (s : Sink L R) : Option (Receiver (Tally R)) :=
  match s.source with
  | some (source, _) =>
      if s.tally.action.usesValue && source != col then none else Payload.direct L
  | none => Payload.direct L

def scheduler (search : Probe.ChainSearch) : Scheduler Probe (Sink L R) Store where
  toProber := Probe.prober search
  report row s store := s.report row store.memory
  reported s := s.tally.matched

end Sink

/-- A run in which a condition on integers leads. -/
structure LeafRun (τ : Type) where
  run : Run Probe τ Store
  found : Nat := 0
  last : Nat
  stopped : Bool := false

namespace LeafRun

variable {τ : Type}

/-- Every match is offered to the others, until the sink stops or there are enough. -/
def receiver (p : Scheduler Probe τ Store) (i limit : Nat) : Receiver (LeafRun τ) where
  onMatch r row _ :=
    match p.offer i row r.run with
    | (more, run) =>
        ({ run, found := r.found + 1, last := row, stopped := !more },
          more && r.found + 1 < limit)

end LeafRun

namespace Sink

variable {L R : Type} [Tallied R] [Payload L R]

/-- Feeds all matches of a condition to the tally. -/
def leadDirectly (p : Scheduler Probe (Sink L R) Store) (receiver : Receiver (Tally R))
    (values : IntColumn) (test : Comparison) (needle : Int64) (i start stop : Nat) :
    StateM (Run Probe (Sink L R) Store) (Option Nat) := do
  let r ← get
  let (tally, more) :=
    values.find r.shared.memory receiver test needle start (some stop) r.sink.tally
  set { r with sink := { r.sink with tally } }
  p.recordDistance i (stop - start) (tally.matched - r.sink.tally.matched) 1.0
  return if more then some stop else none

/-- Offers the matches of a condition to the others. -/
def leadByLeaves (p : Scheduler Probe (Sink L R) Store) (values : IntColumn) (test : Comparison)
    (needle : Int64) (i start stop limit : Nat) :
    StateM (Run Probe (Sink L R) Store) (Option Nat) := do
  let r ← get
  let (l, _) := values.find r.shared.memory (LeafRun.receiver p i limit) test needle start
    (some stop) { run := r, last := start }
  set l.run
  if l.stopped then return none
  else if limit ≤ l.found then
    p.recordDistance i (l.last + 1 - start) l.found 1.0
    return some (l.last + 1)
  else
    p.recordDistance i (stop - start) l.found 1.0
    return some stop

/-- Leads with a condition on integers. -/
def leadInts (p : Scheduler Probe (Sink L R) Store) (stats : Stats) (col : Nat)
    (values : IntColumn) (test : Comparison) (needle : Int64) (leafTime : LeafTime)
    (cursor : Cursor Node) : Scheduler.Lead Probe (Sink L R) Store := fun i start stop limit => do
  if stop ≤ start then return some stop
  let r ← get
  let ((leaf, _), cursor) := cursor.leafFor r.shared.memory values start
  let probe : Probe := ⟨{ stats with time := leafTime.time leaf.width },
    .int col values test needle leafTime cursor⟩
  set { r with chain := r.chain.set i probe }
  match r.sink.direct? col with
  | some receiver =>
      if r.chain.length = 1 then leadDirectly p receiver values test needle i start stop
      else leadByLeaves p values test needle i start stop limit
  | none => leadByLeaves p values test needle i start stop limit

def lead (p : Scheduler Probe (Sink L R) Store) : Scheduler.Lead Probe (Sink L R) Store :=
  fun i start stop limit => do
    match (← get).chain[i]? with
    | some ⟨stats, .int col values test needle leafTime cursor⟩ =>
        leadInts p stats col values test needle leafTime cursor i start stop limit
    | _ => p.lead i start stop limit

/-- Runs a chain, nested as deep as the number says, into the sink. -/
def aggregate (s : Sink L R) (settings : QuerySettings) (depth : Nat) (chain : List Probe)
    (start stop : Nat) : StateM Store (List Probe × Sink L R) := fun store =>
  let p := scheduler (Probe.searchChain (depth - 1))
  match p.aggregate (lead p) settings start stop ⟨chain, s, store⟩ with
  | (_, r) => ((r.chain, r.sink), r.shared)

end Sink

end ColumnStore
