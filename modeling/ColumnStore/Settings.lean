import ColumnStore.Decimal.Shortest
import ColumnStore.Error

set_option autoImplicit false

/-!
Settings of the store, of the query scheduler and of parallel scans, with their legal ranges.
-/
namespace ColumnStore

def Error.badParameter (name : String) (value : Nat) : Error :=
  .invalidParameter name (toString value)

def Error.badWeight (name : String) (value : Float) : Error :=
  .invalidParameter name (Decimal.ofBits value.toBits)

structure StoreSettings where
  /-- Most elements of a leaf and most children of an inner node. -/
  maxNodeSize : Nat := 1000
  /-- Fewest bytes of a new slab. -/
  minSlabSize : Nat := 65536
  /-- Most bytes of all slabs together. -/
  memoryLimit : Option Nat := none
  deriving DecidableEq, Repr, Inhabited

def StoreSettings.check (c : StoreSettings) : Except Error Unit :=
  if c.maxNodeSize < 2 then throw (.badParameter "max_node_size" c.maxNodeSize)
  else if c.minSlabSize = 0 ∨ c.minSlabSize % 8 ≠ 0 then
    throw (.badParameter "min_slab_size" c.minSlabSize)
  else pure ()

/--
The expected cost per match of a condition is
`distanceWeight * bitwidthTimeUnit / distance + time`.
-/
structure QuerySettings where
  /-- Local matches the cheapest condition collects in a round. -/
  findLocals : Nat := 64
  /-- Rows a probing condition may look at in a round. -/
  bestDistance : Nat := 512
  /-- Local matches a probing condition collects in a round. -/
  probeMatches : Nat := 4
  /-- The bit width that costs one unit of time. -/
  bitwidthTimeUnit : Float := 64.0
  /-- Weight of the distance between matches against the time per row. -/
  distanceWeight : Float := 8.0
  /-- Rows the cheapest condition may look at in a round unless its rows cost nothing. -/
  aggregateWindow : Nat := 1000
  deriving Inhabited

def QuerySettings.check (c : QuerySettings) : Except Error Unit :=
  if c.findLocals = 0 then throw (.badParameter "findlocals" c.findLocals)
  else if c.bestDistance = 0 then throw (.badParameter "bestdist" c.bestDistance)
  else if c.probeMatches = 0 then throw (.badParameter "probe_matches" c.probeMatches)
  else if !(c.bitwidthTimeUnit > 0.0) then
    throw (.badWeight "bitwidth_time_unit" c.bitwidthTimeUnit)
  else if !(c.distanceWeight >= 0.0) then throw (.badWeight "distance_weight" c.distanceWeight)
  else if c.aggregateWindow = 0 then throw (.badParameter "aggregate_window" c.aggregateWindow)
  else pure ()

structure ParallelSettings where
  workerThreads : Nat := 1
  /-- Rows of one work item. -/
  chunkSize : Nat := 65536
  /-- Work items that may wait for a worker. -/
  queueDepth : Nat := 16
  deriving DecidableEq, Repr, Inhabited

def ParallelSettings.check (c : ParallelSettings) : Except Error Unit :=
  if c.workerThreads = 0 then throw (.configError "worker_threads must be positive")
  else if c.chunkSize = 0 then throw (.badParameter "chunk_size" c.chunkSize)
  else if c.queueDepth = 0 then throw (.badParameter "queue_depth" c.queueDepth)
  else pure ()

end ColumnStore
