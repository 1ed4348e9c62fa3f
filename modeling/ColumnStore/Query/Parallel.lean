import ColumnStore.Query.Run

set_option autoImplicit false

/-!
Scans of a table in chunks that workers share. Every worker binds the query once and keeps what its
conditions remember from chunk to chunk; the results are put in the order of the chunks.
-/
namespace ColumnStore

structure RowRange where
  start : Nat
  stop : Nat
  deriving DecidableEq, Repr, Inhabited

/-- The chunks that each worker receives, in order. -/
abbrev Workload := List (List RowRange)

namespace ParallelScan

/-- A range of rows in chunks of one size, of which the last may be smaller. Rows are counted in 64
bits, so a chunk that would end above all rows ends in front of its start, where the next begins. -/
def chunks (size stop : Nat) : Nat → Nat → List RowRange
  | 0, _ => []
  | fuel + 1, start =>
      if start < stop then
        let next := min stop ((start + size) % UInt64.size)
        ⟨start, next⟩ :: chunks size stop fuel next
      else []

/-- How many chunks there are; a chunk has at least one row. -/
def chunkCount (size rows : Nat) : Nat := (rows + size - 1) / size

/-- Deals chunks to workers one by one. -/
def deal (workers : Nat) (chunks : List RowRange) : Workload :=
  (List.range workers).map fun w =>
    (chunks.zipIdx.filter fun (_, i) => i % workers = w).map Prod.fst

/-- The matches of one worker's chunks. -/
def scanChunks (q : Query) (limit : Option Nat) (chain : List Probe) :
    List RowRange → StoreM (List (RowRange × List Nat))
  | [] => return []
  | chunk :: rest => do
      let tally ← Tally.new .findAll limit
      let (chain, s) ← ExceptT.lift
        (({ tally, source := none } : Sink Node Int64).aggregate q.settings q.depth chain
          chunk.start chunk.stop)
      return (chunk, s.tally.rows) :: (← scanChunks q limit chain rest)

def work (q : Query) (t : Table) (limit : Option Nat) (worker : Nat) (chunks : List RowRange) :
    StoreM (List (RowRange × List Nat)) :=
  tryCatch (do scanChunks q limit (← q.bind t) chunks) fun e =>
    throw (.workerFailed (s!"worker {worker}: " ++ e.message))

/-- All results of a workload, in the order of the chunks. -/
def runWorkload (q : Query) (t : Table) (limit : Option Nat) (load : Workload) :
    StoreM (List (RowRange × List Nat)) := do
  let results ← load.zipIdx.mapM fun (chunks, worker) => work q t limit worker chunks
  return results.flatten.mergeSort fun a b => a.1.start ≤ b.1.start

/-- The workload of a scan. -/
def workload (c : ParallelSettings) (start stop : Nat) : Workload :=
  deal (min c.workerThreads (chunkCount c.chunkSize (stop - start)))
    (chunks c.chunkSize stop (start + stop + 1) start)

/-- Every chunk must have been scanned, and nothing else. -/
def run (c : ParallelSettings) (q : Query) (t : Table) (start : Nat) (stop limit : Option Nat) :
    StoreM (List (RowRange × List Nat)) := do
  let stop := Node.stopOf t.size stop
  let start := min start stop
  if limit = some 0 ∨ start = stop then return []
  let results ← runWorkload q t limit (workload c start stop)
  let scanned := results.length
  let count := chunkCount c.chunkSize (stop - start)
  if scanned ≠ count then
    throw (.workerFailed s!"{scanned} of {count} chunks were scanned")
  return results

/-- A scan needs legal settings and a valid query. -/
def check (c : ParallelSettings) (q : Query) : Except Error Unit := do
  c.check
  q.check

def cutTo {α : Type} (limit : Option Nat) (l : List α) : List α :=
  match limit with
  | none => l
  | some n => l.take n

/-- Matching rows in ascending order, as many as the limit allows. -/
def findAll (c : ParallelSettings) (q : Query) (t : Table) (start : Nat) (stop limit : Option Nat) :
    StoreM (List Nat) := do
  check c q
  return cutTo limit ((← run c q t start stop limit).flatMap Prod.snd)

def count (c : ParallelSettings) (q : Query) (t : Table) (start : Nat) (stop limit : Option Nat) :
    StoreM Nat := do
  check c q
  let found := (← run c q t start stop limit).foldl (fun found (_, rows) => found + rows.length) 0
  return min found (limit.getD found)

end ParallelScan

end ColumnStore
