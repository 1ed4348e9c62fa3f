import ColumnStore.Query.Basic

set_option autoImplicit false

/-!
The calls that build a valid query are those that spell one: conditions, groups and subtables, each
negated or not, in branches that `or` separates. Of the branches of a scope that is split, only the
first and the last must have conditions, and bounds that hold anyway are none.
-/
namespace ColumnStore

theorem Condition.chainFault?_append (chain chain' : List Condition) :
    chainFault? (chain ++ chain') = (chainFault? chain).or (chainFault? chain') := by
  induction chain with
  | nil => rfl
  | cons c chain ih => rw [List.cons_append, chainFault?, chainFault?, ih, Option.or_assoc]

/-- Branches as one chain. -/
def joined : List (List Condition) → List Condition
  | [chain] => chain
  | branches => [.disjunction branches]

theorem Scope.chain_eq_joined (s : Scope) : s.chain = joined (s.branches ++ [s.conditions]) := by
  rw [Scope.chain]
  cases s.branches with
  | nil => rfl
  | cons chain branches => cases branches <;> rfl

namespace QueryCall

def isTest : QueryCall → Bool
  | group | endGroup | subtable _ | endSubtable | or | not => false
  | _ => true

/-- The conditions that a test adds. To negate bounds that hold anyway takes a condition. -/
def adds (negate : Bool) : QueryCall → List Condition
  | test c => [c]
  | atLeast col v => bounds col (Query.above col v)
  | atMost col v => bounds col (Query.below col v)
  | between col low high => bounds col (Query.above col low ++ Query.below col high)
  | betweenSingles col low high => [.single col .greaterEqual low, .single col .lessEqual high]
  | betweenDoubles col low high => [.double col .greaterEqual low, .double col .lessEqual high]
  | group | endGroup | subtable _ | endSubtable | or | not => []
where
  bounds (col : Nat) (chain : List Condition) : List Condition :=
    if chain.isEmpty && negate then [.int col .always 0] else chain

end QueryCall

namespace Query

/-! ### Spelling -/

mutual

/-- What may be negated. -/
inductive Clause where
  | test (c : QueryCall) (tests : c.isTest = true)
  | group (body : Alternatives)
  | subtable (column : Nat) (body : Alternatives)

/-- Clauses that must hold together. -/
inductive Conjunction where
  | done
  | plain (c : Clause) (rest : Conjunction)
  | negated (c : Clause) (rest : Conjunction)
  /-- Two calls of `not` cancel each other. -/
  | notNot (rest : Conjunction)

/-- What a scope is filled with. -/
inductive Alternatives where
  | last (c : Conjunction)
  | or (c : Conjunction) (rest : Alternatives)

end

mutual

def Clause.calls : Clause → List QueryCall
  | .test c _ => [c]
  | .group body => .group :: (body.calls ++ [.endGroup])
  | .subtable col body => .subtable col :: (body.calls ++ [.endSubtable])

def Conjunction.calls : Conjunction → List QueryCall
  | .done => []
  | .plain c rest => c.calls ++ rest.calls
  | .negated c rest => .not :: (c.calls ++ rest.calls)
  | .notNot rest => .not :: .not :: rest.calls

def Alternatives.calls : Alternatives → List QueryCall
  | .last c => c.calls
  | .or c rest => c.calls ++ .or :: rest.calls

end

/-! ### Meaning -/

mutual

/-- The conditions of a clause, to be negated or not. -/
def Clause.chain (negate : Bool) : Clause → List Condition
  | .test c _ => c.adds negate
  | .group body => joined body.branches
  | .subtable col body => [.subtable col (joined body.branches)]

def Conjunction.chain : Conjunction → List Condition
  | .done => []
  | .plain c rest => c.chain false ++ rest.chain
  | .negated c rest => .negation (c.chain true) :: rest.chain
  | .notNot rest => rest.chain

def Alternatives.branches : Alternatives → List (List Condition)
  | .last c => [c.chain]
  | .or c rest => c.chain :: rest.branches

end

/-- If there are several branches, the first and the last have conditions. -/
def Alternatives.ended : Alternatives → Bool
  | .last _ => true
  | .or c rest => !c.chain.isEmpty && !(rest.branches.getLastD []).isEmpty

mutual

/-- Needles are text, what is negated has conditions, and branches are ended, in every scope. -/
def Clause.sound : Clause → Bool
  | .test c _ => (Condition.chainFault? (c.adds false)).isNone
  | .group body => body.ended && body.sound
  | .subtable _ body => body.ended && body.sound

def Conjunction.sound : Conjunction → Bool
  | .done => true
  | .plain c rest => c.sound && rest.sound
  | .negated c rest => !(c.chain true).isEmpty && c.sound && rest.sound
  | .notNot rest => rest.sound

def Alternatives.sound : Alternatives → Bool
  | .last c => c.sound
  | .or c rest => c.sound && rest.sound

end

/-! ### Faults of conditions -/

theorem Alternatives.branches_ne_nil (b : Alternatives) : b.branches ≠ [] := by
  cases b <;> exact List.cons_ne_nil _ _

/-- Negating needs a condition more at most, which has no fault. -/
theorem adds_fault (c : QueryCall) (negate : Bool) :
    Condition.chainFault? (c.adds negate) = Condition.chainFault? (c.adds false) := by
  have bounds (col : Nat) (chain : List Condition) :
      Condition.chainFault? (QueryCall.adds.bounds negate col chain) =
        Condition.chainFault? (QueryCall.adds.bounds false col chain) := by
    rw [QueryCall.adds.bounds, QueryCall.adds.bounds, Bool.and_false, if_neg Bool.false_ne_true]
    split
    next none =>
      rw [List.isEmpty_iff.mp (Bool.and_eq_true_iff.mp none).1]
      rfl
    next => rfl
  cases c with
  | atLeast | atMost | between => exact bounds ..
  | _ => rfl

theorem emptyEnd_branches (c : Conjunction) (rest : Alternatives) :
    (Condition.emptyEnd? (Alternatives.or c rest).branches).isNone =
      (Alternatives.or c rest).ended := by
  rw [Alternatives.branches, Alternatives.ended, Condition.emptyEnd?, List.head?_cons,
    List.getLast?_cons_of_ne_nil rest.branches_ne_nil, Option.getD_some,
    ← List.getLastD_eq_getLast?]
  cases c.chain.isEmpty <;> cases (rest.branches.getLastD []).isEmpty <;> rfl

/-- In the chain of branches that are joined, the ends are looked at first. -/
theorem fault_joined (b : Alternatives)
    (each : (Condition.branchFault? b.branches).isNone = b.sound) :
    (Condition.chainFault? (joined b.branches)).isNone = (b.ended && b.sound) := by
  cases b with
  | last c =>
      rw [← each, Alternatives.ended, Bool.true_and, Alternatives.branches, joined,
        Condition.branchFault?, Condition.branchFault?, Option.or_none]
  | or c rest =>
      have split : joined (Alternatives.or c rest).branches =
          [.disjunction (Alternatives.or c rest).branches] := by
        cases rest <;> rfl
      rw [split, Condition.chainFault?, Condition.chainFault?, Condition.fault?, Option.or_none,
        Option.isNone_or, emptyEnd_branches, each]

mutual

theorem Clause.fault_chain (negate : Bool) : ∀ c : Clause,
    (Condition.chainFault? (c.chain negate)).isNone = c.sound
  | .test c _ => congrArg Option.isNone (adds_fault c negate)
  | .group body => fault_joined body body.fault_branches
  | .subtable col body => by
      rw [Clause.chain, Clause.sound, Condition.chainFault?, Condition.chainFault?,
        Condition.fault?, Option.or_none, fault_joined body body.fault_branches]

theorem Conjunction.fault_chain : ∀ c : Conjunction,
    (Condition.chainFault? c.chain).isNone = c.sound
  | .done => rfl
  | .plain c rest => by
      rw [Conjunction.chain, Conjunction.sound, Condition.chainFault?_append, Option.isNone_or,
        c.fault_chain, rest.fault_chain]
  | .negated c rest => by
      rw [Conjunction.chain, Conjunction.sound, Condition.chainFault?, Condition.fault?,
        Option.isNone_or, rest.fault_chain, ← c.fault_chain true]
      cases (c.chain true).isEmpty <;> rfl
  | .notNot rest => rest.fault_chain

theorem Alternatives.fault_branches : ∀ b : Alternatives,
    (Condition.branchFault? b.branches).isNone = b.sound
  | .last c => by
      rw [Alternatives.branches, Alternatives.sound, Condition.branchFault?,
        Condition.branchFault?, Option.or_none, c.fault_chain]
  | .or c rest => by
      rw [Alternatives.branches, Alternatives.sound, Condition.branchFault?, Option.isNone_or,
        c.fault_chain, rest.fault_branches]

end

/-! ### Building what is spelled -/

section Building

variable {q : Query}

theorem attach_nil (plain : q.scope.negate = false) : q.attach [] = q := by
  obtain ⟨_, ⟨_, _, _, negate⟩, _, _⟩ := q
  cases plain
  simp [attach, Scope.attach]

theorem attachBounds_eq (q : Query) (col : Nat) (chain : List Condition) :
    q.attachBounds col chain = q.attach (QueryCall.adds.bounds q.scope.negate col chain) := by
  rw [attachBounds, QueryCall.adds.bounds]
  cases chain with
  | cons c chain => rfl
  | nil =>
      cases negated : q.scope.negate with
      | true => rfl
      | false => exact (attach_nil negated).symm

theorem call_test {c : QueryCall} (tests : c.isTest = true) (q : Query) :
    q.call c = q.attach (c.adds q.scope.negate) := by
  cases c with
  | atLeast | atMost | between => exact attachBounds_eq ..
  | test | betweenSingles | betweenDoubles => rfl
  | group | endGroup | subtable | endSubtable | or | not => cases tests

theorem attach_attach (plain : q.scope.negate = false) (chain chain' : List Condition) :
    (q.attach chain).attach chain' = q.attach (chain ++ chain') := by
  simp [attach, Scope.attach, plain]

theorem attach_plain (q : Query) (chain : List Condition) :
    (q.attach chain).scope.negate = false := by
  cases negated : q.scope.negate <;> simp [attach, Scope.attach, negated]

theorem attach_not (plain : q.scope.negate = false) (chain : List Condition) :
    (q.call .not).attach chain = q.attach [.negation chain] := by
  simp [call, attach, Scope.attach, plain]

/-- A scope that is closed adds its branches to the one around it. -/
theorem closeScope_plain {outer : Scope} {scopes : List Scope}
    (wrap : List Condition → List Condition) (plain : q.scope.negate = false)
    (around : q.outer = outer :: scopes) :
    q.closeScope wrap = { q with scope := outer, outer := scopes }.attach (wrap q.scope.chain) := by
  rw [closeScope, around]
  simp only [plain, Bool.false_eq_true, if_false]
  split
  next nothing =>
    obtain ⟨empty, plain⟩ := Bool.and_eq_true_iff.mp nothing
    rw [List.isEmpty_iff.mp empty, attach_nil (by simpa using plain)]
  next => rfl

theorem startBranch_plain (plain : q.scope.negate = false) :
    q.startBranch = { q with scope := { q.scope with
      branches := q.scope.branches ++ [q.scope.conditions], conditions := [] } } := by
  rw [startBranch, if_neg (by rw [plain]; exact Bool.false_ne_true)]

/-- The calls add branches to a scope where no condition has been added since the last `or`. -/
def Fills (calls : List QueryCall) (branches : List (List Condition)) : Prop :=
  ∀ q : Query, q.scope.negate = false → q.scope.conditions = [] → ∃ s : Scope,
    calls.foldl call q = { q with scope := s } ∧ s.kind = q.scope.kind ∧ s.negate = false ∧
      s.branches ++ [s.conditions] = q.scope.branches ++ branches

/-- A scope that opens is filled and closes again. -/
theorem scope_calls {kind : ScopeKind} {c : QueryCall} (wrap : List Condition → List Condition)
    {calls : List QueryCall} {branches : List (List Condition)} (fills : Fills calls branches)
    (closes : ∀ q : Query, q.scope.kind = kind → q.call c = q.closeScope wrap) (q : Query) :
    (calls ++ [c]).foldl call (q.openScope kind) = q.attach (wrap (joined branches)) := by
  obtain ⟨s, filled, same, plain, parts⟩ := fills (q.openScope kind) rfl rfl
  rw [List.foldl_append, filled]
  show call _ c = _
  rw [closes _ same, closeScope_plain wrap plain rfl,
    Scope.chain_eq_joined, parts]
  rfl

mutual

theorem Clause.run_calls : ∀ (c : Clause) (q : Query),
    c.calls.foldl call q = q.attach (c.chain q.scope.negate)
  | .test c tests, q => call_test tests q
  | .group body, q =>
      scope_calls id body.run_calls (fun _ kind => by rw [call, if_pos kind]) q
  | .subtable col body, q =>
      scope_calls (fun chain => [.subtable col chain]) body.run_calls
        (fun _ kind => by rw [call, kind]) q

theorem Conjunction.run_calls : ∀ (c : Conjunction) (q : Query), q.scope.negate = false →
    c.calls.foldl call q = q.attach c.chain
  | .done, _, plain => (attach_nil plain).symm
  | .plain c rest, q, plain => by
      rw [Conjunction.calls, List.foldl_append, c.run_calls q, rest.run_calls _ (attach_plain ..),
        plain, attach_attach plain, Conjunction.chain]
  | .negated c rest, q, plain => by
      rw [Conjunction.calls, List.foldl_cons, List.foldl_append, c.run_calls (q.call .not),
        rest.run_calls _ (attach_plain ..), attach_not plain, attach_attach plain]
      simp only [call, plain]
      rfl
  | .notNot rest, q, plain => by
      have same : (q.call .not).call .not = q := by
        simp [call]
      rw [Conjunction.calls, List.foldl_cons, List.foldl_cons, same, rest.run_calls q plain]
      rfl

theorem Alternatives.run_calls : ∀ b : Alternatives, Fills b.calls b.branches
  | .last c, q, plain, fresh => by
      refine ⟨q.scope.attach c.chain, c.run_calls q plain, ?_⟩
      simp [Scope.attach, plain, fresh, Alternatives.branches]
  | .or c rest, q, plain, fresh => by
      have split : (q.attach c.chain).call .or =
          { q with scope := ⟨q.scope.kind, q.scope.branches ++ [c.chain], [], false⟩ } := by
        rw [call, startBranch_plain (attach_plain ..)]
        simp [attach, Scope.attach, plain, fresh]
      obtain ⟨s, filled, kind, plain', parts⟩ := rest.run_calls
        { q with scope := ⟨q.scope.kind, q.scope.branches ++ [c.chain], [], false⟩ } rfl rfl
      refine ⟨s, ?_, kind, plain', parts.trans (List.append_cons ..).symm⟩
      rw [Alternatives.calls, List.foldl_append, List.foldl_cons, c.run_calls q plain, split,
        filled]

end

/-- What is spelled is built, and valid if it is sound. -/
theorem ofCalls_calls (settings : QuerySettings) (b : Alternatives) :
    (ofCalls settings b.calls).chain = joined b.branches ∧
    ((ofCalls settings b.calls).check = .ok () ↔ (b.ended && b.sound) = true) := by
  obtain ⟨s, built, kind, plain, parts⟩ := b.run_calls { settings } rfl rfl
  have chain : s.chain = joined b.branches := by
    rw [Scope.chain_eq_joined, parts, List.nil_append]
  have fault : fault? { settings, scope := s } = Condition.chainFault? (joined b.branches) := by
    rw [fault?, Query.chain, chain, kind, Option.none_or]
    simp only [plain, Bool.false_eq_true, if_false]
  rw [ofCalls, built, Query.chain, check]
  refine ⟨chain, ?_⟩
  rw [← fault_joined b b.fault_branches, ← fault]
  cases fault? { settings, scope := s } with
  | none => exact ⟨fun _ => rfl, fun _ => rfl⟩
  | some f => exact ⟨nofun, nofun⟩

end Building

/-! ### Spelling what is built -/

/-- The kinds of the open scopes, from the inside out. -/
def kinds (q : Query) : List ScopeKind := q.scope.kind :: q.outer.map Scope.kind

/-- What a call without fault does to the open scopes and to whether the next clause is negated. -/
inductive Steps : List ScopeKind → Bool → QueryCall → List ScopeKind → Bool → Prop where
  | test {kinds : List ScopeKind} {negate : Bool} {c : QueryCall} (tests : c.isTest = true) :
      Steps kinds negate c kinds false
  | group {kinds : List ScopeKind} {negate : Bool} :
      Steps kinds negate .group (.group :: kinds) false
  | endGroup {kinds : List ScopeKind} : Steps (.group :: kinds) false .endGroup kinds false
  | subtable {kinds : List ScopeKind} {negate : Bool} (col : Nat) :
      Steps kinds negate (.subtable col) (.subtable col :: kinds) false
  | endSubtable {kinds : List ScopeKind} (col : Nat) :
      Steps (.subtable col :: kinds) false .endSubtable kinds false
  | or {kinds : List ScopeKind} : Steps kinds false .or kinds false
  | not {kinds : List ScopeKind} {negate : Bool} : Steps kinds negate .not kinds (!negate)

section Fault

variable {q : Query} {c : QueryCall} {f : QueryFault}

theorem fail_fault : (q.fail f).fault ≠ none := by
  rw [fail]
  cases q.fault <;> nofun

theorem attach_kinds (chain : List Condition) : (q.attach chain).kinds = q.kinds := by
  cases negated : q.scope.negate <;> simp [kinds, attach, Scope.attach, negated]

/-- What a call makes of a query. Only the root scope has none around it. -/
inductive Called (q : Query) (c : QueryCall) (q' : Query) : Prop where
  | failed (f : QueryFault) (same : q'.fault = (q.fail f).fault)
  | done (same : q'.fault = q.fault) (steps : [ScopeKind.root] <:+ q.kinds →
      Steps q.kinds q.scope.negate c q'.kinds q'.scope.negate)

theorem closeScope_called (wrap : List Condition → List Condition) (inner : q.scope.kind ≠ .root)
    (closes : ∀ ks, Steps (q.scope.kind :: ks) false c ks false) :
    Called q c (q.closeScope wrap) := by
  cases around : q.outer with
  | nil =>
      refine .done (by rw [closeScope, around]) fun rooted => ?_
      rw [kinds, around] at rooted
      have same := List.IsSuffix.eq_of_length rooted rfl
      exact absurd (List.cons.inj same).1.symm inner
  | cons scope scopes =>
      cases negated : q.scope.negate with
      | true =>
          refine .failed .nothingToNegate ?_
          rw [closeScope, around]
          simp only [negated, if_true]
          split <;> rfl
      | false =>
          rw [closeScope_plain wrap negated around]
          refine .done rfl fun _ => ?_
          rw [attach_kinds, attach_plain, negated, kinds, around]
          exact closes _

theorem call_called (q : Query) (c : QueryCall) : Called q c (q.call c) := by
  by_cases tests : c.isTest = true
  · rw [call_test tests]
    refine .done rfl fun _ => ?_
    rw [attach_kinds, attach_plain]
    exact .test tests
  cases c with
  | test | atLeast | atMost | between | betweenSingles | betweenDoubles => exact absurd rfl tests
  | group => exact .done rfl fun _ => .group
  | subtable col => exact .done rfl fun _ => .subtable col
  | not => exact .done rfl fun _ => .not
  | endGroup =>
      rw [call]
      split
      next kind => exact closeScope_called id (kind ▸ nofun) fun _ => kind ▸ .endGroup
      next => exact .failed _ rfl
  | endSubtable =>
      rw [call]
      split
      next col kind => exact closeScope_called _ (kind ▸ nofun) fun _ => kind ▸ .endSubtable col
      next => exact .failed _ rfl
  | or =>
      rw [call]
      cases negated : q.scope.negate with
      | true =>
          rw [startBranch, if_pos negated]
          exact .failed _ rfl
      | false =>
          rw [startBranch_plain negated]
          refine .done rfl fun _ => ?_
          show Steps _ _ _ q.kinds q.scope.negate
          rw [negated]
          exact .or

/-- A fault stays. -/
theorem foldl_fault (calls : List QueryCall) (q : Query)
    (fine : (calls.foldl call q).fault = none) : q.fault = none := by
  induction calls generalizing q with
  | nil => exact fine
  | cons c calls ih =>
      have fine := ih _ fine
      cases call_called q c with
      | failed f same => exact absurd (same ▸ fine) fail_fault
      | done same => exact same ▸ fine

theorem call_steps (rooted : [ScopeKind.root] <:+ q.kinds) (fine : (q.call c).fault = none) :
    Steps q.kinds q.scope.negate c (q.call c).kinds (q.call c).scope.negate := by
  cases call_called q c with
  | failed f same => exact absurd (same ▸ fine) fail_fault
  | done _ steps => exact steps rooted

theorem Steps.rooted {ks ks' : List ScopeKind} {n n' : Bool} (steps : Steps ks n c ks' n')
    (rooted : [ScopeKind.root] <:+ ks) : [ScopeKind.root] <:+ ks' := by
  cases steps with
  | test | or | not => exact rooted
  | group | subtable => exact rooted.trans (List.suffix_cons ..)
  | endGroup | endSubtable =>
      exact (List.suffix_cons_iff.mp rooted).resolve_left nofun

end Fault

/-- The calls with the negation that is due before the next clause. -/
def due (negate : Bool) (calls : List QueryCall) : List QueryCall :=
  if negate then .not :: calls else calls

/-- Calls that fill and close the open scopes. -/
inductive Completes : List ScopeKind → List QueryCall → Prop where
  | root {kinds : List ScopeKind} (b : Alternatives) : Completes (.root :: kinds) b.calls
  | group {kinds : List ScopeKind} {calls : List QueryCall} (b : Alternatives)
      (rest : Completes kinds calls) : Completes (.group :: kinds) (b.calls ++ .endGroup :: calls)
  | subtable {kinds : List ScopeKind} {calls : List QueryCall} (col : Nat) (b : Alternatives)
      (rest : Completes kinds calls) :
      Completes (.subtable col :: kinds) (b.calls ++ .endSubtable :: calls)

/-- Changes the first branch. -/
def Alternatives.first (f : Conjunction → Conjunction) : Alternatives → Alternatives
  | .last c => .last (f c)
  | .or c rest => .or (f c) rest

namespace Completes

variable {ks ks' : List ScopeKind} {calls : List QueryCall}

theorem prepend {f : Alternatives → Alternatives} (pre : List QueryCall)
    (completes : Completes ks calls) (spelled : ∀ b, (f b).calls = pre ++ b.calls) :
    Completes ks (pre ++ calls) := by
  cases completes with
  | root b => exact spelled b ▸ .root (f b)
  | group b rest =>
      rw [← List.append_assoc, ← spelled]
      exact .group (f b) rest
  | subtable col b rest =>
      rw [← List.append_assoc, ← spelled]
      exact .subtable col (f b) rest

theorem prepend_first {f : Conjunction → Conjunction} (pre : List QueryCall)
    (completes : Completes ks calls) (spelled : ∀ c, (f c).calls = pre ++ c.calls) :
    Completes ks (pre ++ calls) :=
  completes.prepend pre (f := Alternatives.first f) fun b => by
    cases b <;> simp only [Alternatives.first, Alternatives.calls, spelled, List.append_assoc]

theorem clause (negate : Bool) (c : Clause) (completes : Completes ks calls) :
    Completes ks (due negate (c.calls ++ calls)) := by
  cases negate with
  | false => exact completes.prepend_first c.calls (f := .plain c) fun _ => rfl
  | true => exact completes.prepend_first (.not :: c.calls) (f := .negated c) fun _ => rfl

theorem step {n n' : Bool} {c : QueryCall} (steps : Steps ks n c ks' n')
    (completes : Completes ks' (due n' calls)) : Completes ks (due n (c :: calls)) := by
  cases steps with
  | test tests => exact completes.clause n (.test c tests)
  | group =>
      rw [due, if_neg Bool.false_ne_true] at completes
      cases completes with
      | group b rest => simpa [Clause.calls] using rest.clause n (.group b)
  | endGroup => exact .group (.last .done) completes
  | subtable col =>
      rw [due, if_neg Bool.false_ne_true] at completes
      cases completes with
      | subtable _ b rest => simpa [Clause.calls] using rest.clause n (.subtable col b)
  | endSubtable col => exact .subtable col (.last .done) completes
  | or => exact completes.prepend [.or] (f := .or .done) fun _ => rfl
  | not =>
      cases n with
      | false => exact completes
      | true => exact completes.prepend_first [.not, .not] (f := .notNot) fun _ => rfl

/-- Without a fault, where the root scope is the innermost and nothing is left to negate, the calls
have filled and closed every scope. -/
theorem of_foldl (calls : List QueryCall) {q : Query} (rooted : [ScopeKind.root] <:+ q.kinds)
    (fine : (calls.foldl call q).fault = none) (kind : (calls.foldl call q).scope.kind = .root)
    (plain : (calls.foldl call q).scope.negate = false) :
    Completes q.kinds (due q.scope.negate calls) := by
  -- from the last call back, so that each call is put in front of a clause, branch or scope
  induction calls generalizing q with
  | nil =>
      rw [List.foldl_nil] at kind plain
      rw [kinds, kind, plain]
      exact .root (.last .done)
  | cons c calls ih =>
      have steps := call_steps rooted (foldl_fault calls _ fine)
      exact step steps (ih (steps.rooted rooted) fine kind plain)

end Completes

theorem of_check {q : Query} (valid : q.check = .ok ()) :
    q.fault = none ∧ q.scope.kind = .root ∧ q.scope.negate = false := by
  have none : q.fault? = none := by
    rw [check] at valid
    split at valid
    next => cases valid
    next none => exact none
  rw [fault?, Option.or_eq_none_iff] at none
  obtain ⟨fine, none⟩ := none
  cases kind : q.scope.kind with
  | group | subtable =>
      simp only [kind] at none
      cases none
  | root =>
      cases plain : q.scope.negate with
      | true =>
          simp only [kind, plain, if_true] at none
          cases none
      | false => exact ⟨fine, rfl, rfl⟩

/-- The calls that build a valid query are those that spell a sound one. -/
theorem check_iff (settings : QuerySettings) (calls : List QueryCall) :
    (ofCalls settings calls).check = .ok () ↔
      ∃ b : Alternatives, b.calls = calls ∧ (b.ended && b.sound) = true := by
  constructor
  · intro valid
    obtain ⟨fine, kind, plain⟩ := of_check valid
    cases Completes.of_foldl calls (q := { settings }) (List.suffix_refl _) fine kind plain with
    | root b => exact ⟨b, rfl, (ofCalls_calls settings b).2.mp valid⟩
  · rintro ⟨b, rfl, sound⟩
    exact (ofCalls_calls settings b).2.mpr sound

example : (ofCalls {} [.test (.int 0 .equal 1), .or, .or, .test (.int 0 .equal 2)]).check =
    .ok () := rfl

example : (ofCalls {} [.not, .group, .atLeast 0 Int64.minValue, .endGroup]).check =
    .error QueryFault.nothingToNegate.error := rfl

end Query

end ColumnStore
