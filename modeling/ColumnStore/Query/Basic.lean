import ColumnStore.Query.Condition

set_option autoImplicit false

/-!
Queries are built call by call. Conditions that follow each other must all hold; `or` splits a scope
into branches, `not` negates the next condition or group, and groups and subtables open scopes of
their own. Building never fails: the first fault is kept and found by `Query.check`.
-/
namespace ColumnStore

inductive QueryCall where
  | test (c : Condition)
  | atLeast (column : Nat) (v : Int64)
  | atMost (column : Nat) (v : Int64)
  | between (column : Nat) (low high : Int64)
  | betweenSingles (column : Nat) (low high : Single)
  | betweenDoubles (column : Nat) (low high : Double)
  | group
  | endGroup
  | subtable (column : Nat)
  | endSubtable
  | or
  | not

inductive ScopeKind where
  | root
  | group
  | subtable (column : Nat)
  deriving DecidableEq, Repr

/-- An open scope. -/
structure Scope where
  kind : ScopeKind
  /-- The branches to the left of the last `or`. -/
  branches : List (List Condition) := []
  conditions : List Condition := []
  /-- The next condition is to be negated. -/
  negate : Bool := false

/-- The conditions of a scope as a chain. -/
def Scope.chain (s : Scope) : List Condition :=
  if s.branches.isEmpty then s.conditions else [.disjunction (s.branches ++ [s.conditions])]

/-- Adds conditions that hold together. -/
def Scope.attach (s : Scope) (chain : List Condition) : Scope :=
  if s.negate then { s with conditions := s.conditions ++ [.negation chain], negate := false }
  else { s with conditions := s.conditions ++ chain }

structure Query where
  settings : QuerySettings := {}
  /-- The innermost open scope. -/
  scope : Scope := { kind := .root }
  /-- The scopes around it, from the inside out. -/
  outer : List Scope := []
  fault : Option QueryFault := none

namespace Query

def fail (q : Query) (f : QueryFault) : Query := { q with fault := q.fault.or (some f) }

def attach (q : Query) (chain : List Condition) : Query :=
  { q with scope := q.scope.attach chain }

/-- The lower bound as a chain; the least integer is no bound. -/
def above (column : Nat) (v : Int64) : List Condition :=
  if v = Int64.minValue then [] else [.int column .greater (v - 1)]

def below (column : Nat) (v : Int64) : List Condition :=
  if v = Int64.maxValue then [] else [.int column .less (v + 1)]

/-- Adds bounds of a column. Where there are none, only their negation needs a condition. -/
def attachBounds (q : Query) (column : Nat) (bounds : List Condition) : Query :=
  if !bounds.isEmpty then q.attach bounds
  else if q.scope.negate then q.attach [.int column .always 0]
  else q

def openScope (q : Query) (kind : ScopeKind) : Query :=
  { q with scope := { kind }, outer := q.scope :: q.outer }

/-- Closes the innermost scope and adds what `wrap` makes of its chain to the one around it. -/
def closeScope (q : Query) (wrap : List Condition → List Condition) : Query :=
  match q.outer with
  | [] => q
  | scope :: outer =>
      let failed := if q.scope.negate then q.fail .nothingToNegate else q
      let chain := wrap q.scope.chain
      let q := { failed with scope, outer }
      if chain.isEmpty && !scope.negate then q else q.attach chain

def startBranch (q : Query) : Query :=
  if q.scope.negate then { q with scope := { q.scope with negate := false } }.fail .nothingToNegate
  else
    { q with scope := { q.scope with
        branches := q.scope.branches ++ [q.scope.conditions], conditions := [] } }

def call (q : Query) : QueryCall → Query
  | .test c => q.attach [c]
  | .atLeast col v => q.attachBounds col (above col v)
  | .atMost col v => q.attachBounds col (below col v)
  | .between col low high => q.attachBounds col (above col low ++ below col high)
  | .betweenSingles col low high =>
      q.attach [.single col .greaterEqual low, .single col .lessEqual high]
  | .betweenDoubles col low high =>
      q.attach [.double col .greaterEqual low, .double col .lessEqual high]
  | .group => q.openScope .group
  | .endGroup => if q.scope.kind = .group then q.closeScope id else q.fail .unbalancedGroup
  | .subtable col => q.openScope (.subtable col)
  | .endSubtable =>
      match q.scope.kind with
      | .subtable col => q.closeScope fun chain => [.subtable col chain]
      | _ => q.fail .unbalancedSubtable
  | .or => q.startBranch
  | .not => { q with scope := { q.scope with negate := !q.scope.negate } }

def ofCalls (settings : QuerySettings) (calls : List QueryCall) : Query :=
  calls.foldl call { settings }

/-- The conditions of the whole query. -/
def chain (q : Query) : List Condition := q.scope.chain

/-- The fault to report: that of a call first, then an open scope, then those of conditions. -/
def fault? (q : Query) : Option QueryFault :=
  q.fault.or <|
    match q.scope.kind with
    | .group => some .unbalancedGroup
    | .subtable _ => some .unbalancedSubtable
    | .root => if q.scope.negate then some .nothingToNegate else Condition.chainFault? q.chain

def check (q : Query) : Except Error Unit :=
  match q.fault? with
  | some f => throw f.error
  | none => pure ()

end Query

end ColumnStore
