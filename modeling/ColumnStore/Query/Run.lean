import ColumnStore.Query.Basic
import ColumnStore.Query.Sink

set_option autoImplicit false

/-!
Running queries. A query is checked and bound to the table before any row is looked at; matches come
in ascending order.
-/
namespace ColumnStore.Query

/-- The conditions of a valid query, bound to a table. -/
def bind (q : Query) (t : Table) : StoreM (List Probe) := do
  q.check
  Probe.bindChain q.settings t q.chain

def depth (q : Query) : Nat := Condition.chainDepth q.chain

section

variable {L R : Type} [Tallied R] [Payload L R]

/-- Feeds the matches in a range of rows to a sink and returns its tally. -/
def runInto (q : Query) (t : Table) (s : Sink L R) (start : Nat) (stop : Option Nat) :
    StoreM (Tally R) := do
  let chain ← q.bind t
  if s.tally.limit = some 0 then return s.tally
  let stop := Node.stopOf t.size stop
  let (_, s) ← ExceptT.lift (s.aggregate q.settings q.depth chain (min start stop) stop)
  return s.tally

/-- Tallies the values of a column of a given type. -/
def runColumn (L : Type) {R : Type} [Tallied R] [Payload L R] [ColumnType (Tree L)] (q : Query)
    (t : Table) (action : Action) (col start : Nat) (stop limit : Option Nat) :
    StoreM (Tally R) := do
  let values ← t.columnOf (Tree L) col
  let tally ← Tally.new action limit
  q.runInto t { tally, source := some (col, values) : Sink L R } start stop

end

/-- Tallies rows. -/
def runRows (q : Query) (t : Table) (tally : Tally Int64) (start : Nat) (stop : Option Nat) :
    StoreM (Tally Int64) :=
  q.runInto t { tally, source := none : Sink Node Int64 } start stop

/-- The first match from a row on. -/
def find (q : Query) (t : Table) (start : Nat) : StoreM (Option Nat) := do
  return (← q.runRows t (← Tally.new .returnFirst none) start none).row

def findAll (q : Query) (t : Table) (start : Nat) (stop limit : Option Nat) :
    StoreM (List Nat) := do
  return (← q.runRows t (← Tally.new .findAll limit) start stop).rows

def count (q : Query) (t : Table) (start : Nat) (stop limit : Option Nat) : StoreM Nat := do
  return (← q.runRows t (← Tally.new .count limit) start stop).matched

/-- Passes matches to a callback as long as it wants more; the rows passed. The callback is told all
rows so far, the newest first. -/
def forEach (q : Query) (t : Table) (start : Nat) (stop limit : Option Nat)
    (callback : List Nat → Bool) : StoreM (List Nat) := do
  return (← q.runRows t (Tally.withCallback limit callback) start stop).passed.reverse

def mean (sum : Float) (count : Nat) : Float := if count = 0 then 0.0 else sum / Float.ofNat count

/-- The extreme of the matches with its row, if there are any. -/
def extremeOf {R : Type} (t : Tally R) : Option (R × Option Nat) :=
  if 0 < t.matched then some (t.value, t.row) else none

section

variable (L : Type) {R : Type} [Tallied R] [Payload L R] [ColumnType (Tree L)]

def sum (q : Query) (t : Table) (col start : Nat) (stop limit : Option Nat) : StoreM R := do
  return (← q.runColumn L t .sum col start stop limit).value

def maximum (q : Query) (t : Table) (col start : Nat) (stop limit : Option Nat) :
    StoreM (Option (R × Option Nat)) := do
  return extremeOf (← q.runColumn L t .max col start stop limit)

def minimum (q : Query) (t : Table) (col start : Nat) (stop limit : Option Nat) :
    StoreM (Option (R × Option Nat)) := do
  return extremeOf (← q.runColumn L t .min col start stop limit)

/-- The mean over matching rows, zero if there are none. -/
def average (q : Query) (t : Table) (col start : Nat) (stop limit : Option Nat) : StoreM Float := do
  let tally ← q.runColumn L t .sum col start stop limit
  return mean (Tallied.toFloat tally.value) tally.matched

end

/-- Deletes the matching rows, the last one first, and returns how many there were. -/
def remove (q : Query) (start : Nat) (stop limit : Option Nat) : Edit Table Nat := do
  let rows ← q.findAll (← Edit.self) start stop limit
  rows.reverse.forM Table.remove
  return rows.length

end ColumnStore.Query
