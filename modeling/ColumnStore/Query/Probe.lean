import ColumnStore.Query.Condition
import ColumnStore.Query.LeafSearch
import ColumnStore.Query.Schedule

set_option autoImplicit false

/-!
Conditions bound to a table, with what they remember between searches.
-/
namespace ColumnStore

/-- The time to test a row depends on the width of the leaf it is in. -/
structure LeafTime where
  maxNodeSize : Nat
  bitwidthTimeUnit : Float

def LeafTime.time (t : LeafTime) (width : Nat) : Float :=
  if width = 0 then 1.0 / Float.ofNat t.maxNodeSize else Float.ofNat width / t.bitwidthTimeUnit

/-- The last search of a chain: where it started, and the row it found or the end it reached. -/
structure Memo where
  start : Nat := 0
  row : Nat := 0
  found : Bool := false
  deriving Inhabited

structure Timed (α : Type) where
  stats : Stats
  scan : α

inductive Scan where
  | int (column : Nat) (values : IntColumn) (test : Comparison) (needle : Int64)
      (leafTime : LeafTime) (cursor : Cursor Node)
  | single (values : ScalarColumn Single) (test : Comparison) (needle : Single)
      (cursor : Cursor (ScalarLeaf Single))
  | double (values : ScalarColumn Double) (test : Comparison) (needle : Double)
      (cursor : Cursor (ScalarLeaf Double))
  | bytes (values : BytesColumn) (test : ByteArray → Bool) (cursor : Cursor BytesLeaf)
  /-- Enumerated text; one flag for each key. -/
  | keys (values : IntColumn) (accepted : Array Bool) (cursor : Cursor Node)
  /-- Stored words equal to a given one. -/
  | word (values : IntColumn) (needle : Int64) (cursor : Cursor Node)
  /-- Rows known from a search index, ascending. -/
  | rows (rows : List Nat)
  | lists (values : LinkListColumn) (target : Nat)
  | intPair (test : Comparison) (left right : IntColumn) (cursors : Cursor Node × Cursor Node)
  | singlePair (test : Comparison) (left right : ScalarColumn Single)
      (cursors : Cursor (ScalarLeaf Single) × Cursor (ScalarLeaf Single))
  | doublePair (test : Comparison) (left right : ScalarColumn Double)
      (cursors : Cursor (ScalarLeaf Double) × Cursor (ScalarLeaf Double))
  | compare (test : Comparison) (operands : BoundOperand × BoundOperand)
  | negation (chain : List (Timed Scan)) (memo : Memo)
  | disjunction (branches : List (List (Timed Scan) × Memo))
  /-- The chain is bound anew to every subtable. -/
  | subtable (cells : List (Option Table)) (settings : QuerySettings) (chain : List Condition)

abbrev Probe := Timed Scan

namespace Probe

/-- A probe that has not searched yet. -/
def fresh (distance time : Float) (scan : Scan) : Probe := ⟨{ distance, time }, scan⟩

def bindText (t : Table) (col : Nat) (test : ByteArray → Bool) : StoreM Probe := do
  match ← t.columnOf TextColumn col with
  | .plain c => return fresh 100.0 10.0 (.bytes c.tree test {})
  | .enum c =>
      let keys ← StoreM.read c.keys.toList
      return fresh 100.0 10.0 (.keys c.values (keys.map (test ∘ Text.encode)).toArray {})

/-- Equality is looked up in an index or turned into a key if the column has them. -/
def bindExactText (t : Table) (col : Nat) (needle : ByteArray) : StoreM Probe := do
  let c ← t.columnOf TextColumn col
  let text := (Needle.new needle).text?
  match c.index?, c with
  | some index, _ => return fresh 10.0 0.0 (.rows ((text.map index.rows).getD []))
  | none, .plain c => return fresh 10.0 10.0 (.bytes c.tree (· == needle) {})
  | none, .enum c =>
      match ← StoreM.read fun m => text.bind (c.findKey m) with
      | some key => return fresh 10.0 1.0 (.word c.values (Int64.ofNat key) {})
      | none => return fresh 10.0 1.0 (.rows [])

def bindLinks (t : Table) (col : Nat) (target : Option Nat) : StoreM Probe := do
  match ← t.column col with
  | .link c => return fresh 10.0 50.0 (.word c.values (LinkColumn.encode target) {})
  | .linkList c => return fresh 10.0 50.0 (.lists c (target.getD Link.nowhere))
  | _ => throw (t.mismatch col Kind.link.name)

def bindColumns (t : Table) (type : NumberType) (test : Comparison) (left right : Nat) :
    Except Error Probe := do
  match type with
  | .int =>
      let left ← t.columnOf IntColumn left
      return fresh 100.0 100.0 (.intPair test left (← t.columnOf IntColumn right) ({}, {}))
  | .single =>
      let left ← t.columnOf (ScalarColumn Single) left
      return fresh 100.0 100.0
        (.singlePair test left (← t.columnOf (ScalarColumn Single) right) ({}, {}))
  | .double =>
      let left ← t.columnOf (ScalarColumn Double) left
      return fresh 100.0 100.0
        (.doublePair test left (← t.columnOf (ScalarColumn Double) right) ({}, {}))

/-- Runs `check` on an empty table with a schema, which is freed again. -/
def withPrototype {α : Type} (settings : StoreSettings) (schema : List ColumnSpec)
    (check : Table → StoreM α) : StoreM α := do
  let prototype ← Table.ofSchema settings schema
  let checked : Except Error α ← ExceptT.lift (check prototype).run
  prototype.destroy
  checked

mutual

/-- Binds a condition to a table. -/
def bind (settings : QuerySettings) (t : Table) : Condition → StoreM Probe
  | .int col test needle => do
      let c ← t.columnOf IntColumn col
      let leafTime := ⟨t.settings.maxNodeSize, settings.bitwidthTimeUnit⟩
      return fresh 100.0 0.25 (.int col c test needle leafTime {})
  | .single col test needle => do
      return fresh 100.0 1.0 (.single (← t.columnOf (ScalarColumn Single) col) test needle {})
  | .double col test needle => do
      return fresh 100.0 1.0 (.double (← t.columnOf (ScalarColumn Double) col) test needle {})
  | .exactText col needle => bindExactText t col needle
  | .text col test caseSensitive needle =>
      bindText t col ((Needle.new needle).test test caseSensitive)
  | .bytes col test needle => do
      let c ← t.columnOf BytesColumn col
      return fresh 100.0 100.0 (.bytes c ((Needle.new needle).test test true) {})
  | .columns type test left right => do return ← bindColumns t type test left right
  | .linksTo col target => bindLinks t col target
  | .compare test left right => do
      let left ← left.bind t
      return fresh 10.0 50.0 (.compare test (left, ← right.bind t))
  | .negation chain => do return fresh 10.0 50.0 (.negation (← bindChain settings t chain) {})
  | .disjunction branches => do
      return fresh 10.0 50.0 (.disjunction (← bindBranches settings t branches))
  | .subtable col chain => do
      let c ← t.columnOf (SubtableColumn Table) col
      let _ ← withPrototype t.settings c.schema fun t => bindChain settings t chain
      return fresh 10.0 100.0 (.subtable c.cells settings chain)

def bindChain (settings : QuerySettings) (t : Table) : List Condition → StoreM (List Probe)
  | [] => return []
  | c :: cs => do
      let p ← bind settings t c
      return p :: (← bindChain settings t cs)

def bindBranches (settings : QuerySettings) (t : Table) :
    List (List Condition) → StoreM (List (List Probe × Memo))
  | [] => return []
  | chain :: rest => do
      let probes ← bindChain settings t chain
      return (probes, {}) :: (← bindBranches settings t rest)

end

/-- How a chain is searched. -/
abbrev ChainSearch := Nat → Nat → StateM (List Probe × Store) (Option Nat)

/-- The first row of a range that the chain does not match. -/
def firstUnmatched (search : ChainSearch) : Nat → Nat → StateM (List Probe × Store) (Option Nat)
  | 0, _ => return none
  | count + 1, row => do
      if (← search row (row + 1)).isNone then return some row
      firstUnmatched search count (row + 1)

/-- What is known when a search begins at `start`: the chain matches from there up to the memo's
row, which it does not match if the memo says found. -/
def Memo.resume (memo : Memo) (start : Nat) : Memo :=
  if start < memo.start ∨ memo.row < start then { start, row := start } else memo

/-- The first row of a range that a chain does not match. -/
def findNegated (search : ChainSearch) (start stop : Nat) (chain : List Probe) (memo : Memo) :
    StateM Store (Option Nat × Scan) := fun s =>
  if stop ≤ start then ((none, .negation chain memo), s)
  else
    let memo := Memo.resume memo start
    if memo.found then ((if memo.row < stop then some memo.row else none, .negation chain memo), s)
    else if stop ≤ memo.row then ((none, .negation chain memo), s)
    else
      match firstUnmatched search (stop - memo.row) memo.row (chain, s) with
      | (r, (chain, s)) =>
          ((r, .negation chain { memo with row := r.getD stop, found := r.isSome }), s)

/-- The first row of a range that a branch matches, if the answer was not known before. -/
def findInBranch (search : ChainSearch) (start stop : Nat) (chain : List Probe) (memo : Memo) :
    StateM Store (Option Nat × List Probe × Memo) := fun s =>
  let memo := if start < memo.start then { memo with row := 0, found := false } else memo
  if stop ≤ memo.row then ((none, chain, memo), s)
  else if memo.found ∧ start ≤ memo.row then ((some memo.row, chain, memo), s)
  else
    match search (max memo.row start) stop (chain, s) with
    | (r, (chain, s)) => ((r, chain, { start, row := r.getD stop, found := r.isSome }), s)

def earlier : Option Nat → Option Nat → Option Nat
  | some a, some b => some (min a b)
  | some a, none => some a
  | none, b => b

/-- The first row of a range that some branch matches. -/
def findInBranches (search : ChainSearch) (start stop : Nat) :
    List (List Probe × Memo) → StateM Store (Option Nat × List (List Probe × Memo))
  | [] => return (none, [])
  | (chain, memo) :: rest => do
      let (r, branch) ← findInBranch search start stop chain memo
      let (later, rest) ← findInBranches search start stop rest
      return (earlier r later, branch :: rest)

/-- Whether some row of a subtable satisfies the chain; a subtable that cannot be bound has none. -/
def matchesSubtable (search : ChainSearch) (settings : QuerySettings) (chain : List Condition)
    (t : Table) : StateM Store Bool := fun s =>
  if t.size = 0 then (false, s)
  else
    match bindChain settings t chain s with
    | (.error _, s) => (false, s)
    | (.ok probes, s) =>
        match search 0 t.size (probes, s) with
        | (r, (_, s)) => (r.isSome, s)

def findSubtable (search : ChainSearch) (settings : QuerySettings) (chain : List Condition) :
    List (Option Table) → Nat → StateM Store (Option Nat)
  | [], _ => return none
  | none :: cells, row => findSubtable search settings chain cells (row + 1)
  | some t :: cells, row => do
      if ← matchesSubtable search settings chain t then return some row
      findSubtable search settings chain cells (row + 1)

/-- The first row that a scan finds in a range. -/
def findScan (search : ChainSearch) (start stop : Nat) : Scan → StateM Store (Option Nat × Scan)
  | .int col t test needle leafTime c => fun s =>
      let (r, c) := c.findInt s.memory t test needle start stop
      ((r, .int col t test needle leafTime c), s)
  | .single t test needle c => fun s =>
      let (r, c) := c.findWhere s.memory t (Scalar.holds test · needle) start stop
      ((r, .single t test needle c), s)
  | .double t test needle c => fun s =>
      let (r, c) := c.findWhere s.memory t (Scalar.holds test · needle) start stop
      ((r, .double t test needle c), s)
  | .bytes t test c => fun s =>
      let (r, c) := c.findWhere s.memory t test start stop
      ((r, .bytes t test c), s)
  | .keys t accepted c => fun s =>
      let accepts := fun (v : Int64) => accepted.getD v.toUInt64.toNat false
      let (r, c) := c.findWhere s.memory t accepts start stop
      ((r, .keys t accepted c), s)
  | .word t needle c => fun s =>
      let (r, c) := c.findInt s.memory t .equal needle start stop
      ((r, .word t needle c), s)
  | .rows rows => fun s =>
      (((rows.find? (start ≤ ·)).filter (· < stop), .rows rows), s)
  | .lists t target => fun s =>
      ((firstWhere (fun row => t.contains s.memory row target) (stop - start) start,
        .lists t target), s)
  | .intPair test t u cs => fun s =>
      let (r, cs) := Cursor.findIntPair s.memory t u test stop (stop - start) start cs
      ((r, .intPair test t u cs), s)
  | .singlePair test t u cs => fun s =>
      let (r, cs) := Cursor.findPair s.memory t u (Scalar.holds test) (stop - start) start cs
      ((r, .singlePair test t u cs), s)
  | .doublePair test t u cs => fun s =>
      let (r, cs) := Cursor.findPair s.memory t u (Scalar.holds test) (stop - start) start cs
      ((r, .doublePair test t u cs), s)
  | .compare test operands => fun s =>
      let (r, operands) := findCompared s.memory test stop (stop - start) start operands
      ((r, .compare test operands), s)
  | .negation chain memo => findNegated search start stop chain memo
  | .disjunction branches => do
      if stop ≤ start then return (none, .disjunction branches)
      let (r, branches) ← findInBranches search start stop branches
      return (r, .disjunction branches)
  | .subtable cells settings chain => do
      let r ← findSubtable search settings chain ((cells.drop start).take (stop - start)) start
      return (r, .subtable cells settings chain)

/-- The time for the leaf that a cursor is in. -/
def leafTimeOf (leafTime : LeafTime) (c : Cursor Node) : Option Float :=
  c.cached.map fun (leaf, _) => leafTime.time leaf.width

/-- A search over integers keeps the time of the last leaf it looked at. -/
def timeAfter (start stop : Nat) (scan : Scan) (time : Float) : Float :=
  match scan with
  | .int _ _ _ _ leafTime c => if start < stop then (leafTimeOf leafTime c).getD time else time
  | _ => time

def find (search : ChainSearch) (start stop : Nat) (p : Probe) :
    StateM Store (Option Nat × Probe) := do
  let (r, scan) ← findScan search start stop p.scan
  return (r, ⟨{ p.stats with time := timeAfter start stop scan p.stats.time }, scan⟩)

def prober (search : ChainSearch) : Prober Probe Store where
  find := find search
  stats := Timed.stats
  setStats stats p := { p with stats }

/-- Searches chains nested at most as deep as the number. -/
def searchChain : Nat → ChainSearch
  | 0 => fun _ _ => return none
  | depth + 1 => (prober (searchChain depth)).findFirst

end Probe

end ColumnStore
