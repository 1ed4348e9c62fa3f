import ColumnStore.Settings
import ColumnStore.Text.JsonNumber

set_option autoImplicit false

/-!
Settings as JSON text: an object with each field once (others are skipped), or an array of all
fields in order. Only the memory limit may be missing or null.
-/
namespace ColumnStore

open Text (Json)

namespace Text.Json

def nat? : Json → Option Nat
  | .number n => n.nat?
  | _ => none

def float? : Json → Option Float
  | .number n => n.float?
  | _ => none

/-- The names of an object's fields must be readable text, whether or not they are known. -/
def named? : List (List JsonUnit × Json) → Option (List (String × Json))
  | [] => some []
  | (key, v) :: rest => do
      let key ← text? key
      let rest ← named? rest
      return (String.ofList key, v) :: rest

/-- The values of the named fields, in the order of `names`; no known field may come twice. -/
def record? (names : List String) : Json → Option (List (Option Json))
  | .array items => if items.length = names.length then some (items.map some) else none
  | .object fields => do
      let fields ← named? fields
      names.mapM fun name =>
        match fields.filter (·.1 == name) with
        | [] => some none
        | [(_, v)] => some (some v)
        | _ => none
  | _ => none

end Text.Json

namespace StoreSettings

def ofJson? (text : String) : Option StoreSettings := do
  match ← (← Json.parse? text).record? ["max_node_size", "min_slab_size", "memory_limit"] with
  | [some node, some slab, limit] =>
      let memoryLimit ←
        match limit with
        | none | some .null => pure none
        | some v => v.nat?.map some
      return { maxNodeSize := ← node.nat?, minSlabSize := ← slab.nat?, memoryLimit }
  | _ => none

def toJson (c : StoreSettings) : String :=
  let limit := match c.memoryLimit with
    | none => "null"
    | some n => toString n
  "\x7b\"max_node_size\":" ++ toString c.maxNodeSize ++ ",\"min_slab_size\":" ++
    toString c.minSlabSize ++ ",\"memory_limit\":" ++ limit ++ "\x7d"

end StoreSettings

def QuerySettings.ofJson? (text : String) : Option QuerySettings := do
  match ← (← Json.parse? text).record?
      ["findlocals", "bestdist", "probe_matches", "bitwidth_time_unit", "distance_weight",
        "aggregate_window"] with
  | [some findLocals, some bestDistance, some probeMatches, some timeUnit, some weight,
      some window] =>
      return {
        findLocals := ← findLocals.nat?
        bestDistance := ← bestDistance.nat?
        probeMatches := ← probeMatches.nat?
        bitwidthTimeUnit := ← timeUnit.float?
        distanceWeight := ← weight.float?
        aggregateWindow := ← window.nat? }
  | _ => none

namespace ParallelSettings

def ofJson? (text : String) : Option ParallelSettings := do
  match ← (← Json.parse? text).record? ["worker_threads", "chunk_size", "queue_depth"] with
  | [some workers, some chunk, some depth] =>
      return {
        workerThreads := ← workers.nat?
        chunkSize := ← chunk.nat?
        queueDepth := ← depth.nat? }
  | _ => none

def toJson (c : ParallelSettings) : String :=
  "\x7b\"worker_threads\":" ++ toString c.workerThreads ++ ",\"chunk_size\":" ++
    toString c.chunkSize ++ ",\"queue_depth\":" ++ toString c.queueDepth ++ "\x7d"

end ParallelSettings

end ColumnStore
