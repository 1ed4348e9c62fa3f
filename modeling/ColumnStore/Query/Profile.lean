import ColumnStore.Query.Run

set_option autoImplicit false

/-!
What a search does to the statistics of its conditions, and searches that go on with the conditions
as earlier ones have left them.
-/
namespace ColumnStore

/-- The statistics of the conditions of a chain, each with its cost. -/
abbrev Profile := List (Stats × Float)

namespace Query

def profile (q : Query) (chain : List Probe) : Profile :=
  chain.map fun p => (p.stats, p.stats.cost q.settings)

/-- Tallies the matches of a bound chain in a range, with the values of a column if one is given. -/
def profileRun {L R : Type} [Tallied R] [Payload L R] (q : Query) (t : Table) (chain : List Probe)
    (source : Option (Nat × Tree L)) (action : Action) (start : Nat) (stop limit : Option Nat) :
    StoreM (Tally R × Profile) := do
  let s : Sink L R := { tally := ← Tally.new action limit, source }
  let stop := Node.stopOf t.size stop
  let (chain, s) ← ExceptT.lift (s.aggregate q.settings q.depth chain start stop)
  return (s.tally, q.profile chain)

/-- The first match in each range, one search after the other. -/
def findInRanges {σ : Type} (find : Nat → Nat → StateM σ (Option Nat)) (size : Nat) :
    List (Nat × Option Nat) → StateM σ (List (Option Nat))
  | [] => return []
  | (start, stop) :: rest => do
      let r ← find start (Node.stopOf size stop)
      return r :: (← findInRanges find size rest)

/-- The first match of the query in each range. -/
def findEach (q : Query) (t : Table) (ranges : List (Nat × Option Nat)) :
    StoreM (List (Option Nat) × Profile) := do
  let chain ← q.bind t
  fun s =>
    match findInRanges (Probe.searchChain q.depth) t.size ranges (chain, s) with
    | (rows, (chain, s)) => (.ok (rows, q.profile chain), s)

/-- The first match of the query's condition `i` alone in each range. -/
def findEachLocal (q : Query) (t : Table) (i : Nat) (ranges : List (Nat × Option Nat)) :
    StoreM (List (Option Nat)) := do
  q.check
  let chain ← Probe.bindChain q.settings t (q.chain[i]?).toList
  let p := Probe.prober (Probe.searchChain (q.depth - 1))
  fun s =>
    match findInRanges (p.findAt 0) t.size ranges (chain, s) with
    | (rows, (_, s)) => (.ok rows, s)

end Query

end ColumnStore
