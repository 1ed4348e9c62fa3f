import ColumnStore.Leaf.Basic
import ColumnStore.Proofs.Loop
import ColumnStore.Query.Schedule
import Mathlib.Data.List.Forall2

set_option autoImplicit false

/-!
Conditions that work together, whatever each of them remembers. A search finds the first row that
all match, and a run tells its sink every such row in ascending order until the sink stops it.
-/
namespace ColumnStore

/-! ### First rows -/

/-- The first row of a range that passes, if there is one. -/
inductive First (q : Nat → Bool) (start stop : Nat) : Option Nat → Prop where
  | missing (fails : ∀ row, start ≤ row → row < stop → q row = false) : First q start stop none
  | found {row : Nat} (low : start ≤ row) (high : row < stop) (passes : q row = true)
      (before : ∀ row', start ≤ row' → row' < row → q row' = false) : First q start stop (some row)

namespace First

variable {q q' : Nat → Bool} {start mid stop size row : Nat} {r r' : Option Nat}

theorem unique (first : First q start stop r) (first' : First q start stop r') : r = r' := by
  cases first with
  | missing fails =>
      cases first' with
      | missing => rfl
      | found low high passes => exact absurd passes (by simp [fails _ low high])
  | @found row low high passes before =>
      cases first' with
      | missing fails => exact absurd passes (by simp [fails _ low high])
      | @found row' low' high' passes' before' =>
          rcases Nat.lt_trichotomy row row' with less | same | more
          · exact absurd passes (by simp [before' _ low less])
          · rw [same]
          · exact absurd passes' (by simp [before _ low' more])

theorem congr (first : First q start stop r) (inside : stop ≤ size)
    (same : ∀ row < size, q' row = q row) : First q' start stop r := by
  cases first with
  | missing fails =>
      refine .missing fun row low high => ?_
      rw [same row (by omega), fails row low high]
  | found low high passes before =>
      refine .found low high ?_ fun row' low' less => ?_
      · rw [same _ (by omega), passes]
      · rw [same _ (by omega), before row' low' less]

/-- Rows in front of the range that fail may be looked at too. -/
theorem extend (first : First q mid stop r) (lower : start ≤ mid)
    (fails : ∀ row, start ≤ row → row < mid → q row = false) : First q start stop r := by
  cases first with
  | missing fails' =>
      refine .missing fun row low high => ?_
      by_cases late : mid ≤ row
      · exact fails' row late high
      · exact fails row low (Nat.lt_of_not_le late)
  | found low high passes before =>
      refine .found (Nat.le_trans lower low) high passes fun row' low' less => ?_
      by_cases late : mid ≤ row'
      · exact before row' late less
      · exact fails row' low' (Nat.lt_of_not_le late)

theorem widen (first : First q start mid (some row)) (more : mid ≤ stop) :
    First q start stop (some row) := by
  cases first with
  | found low high passes before => exact .found low (Nat.lt_of_lt_of_le high more) passes before

/-- Rows counted from row `n` on. -/
theorem shift {n : Nat} (first : First (fun i => q (n + i)) start stop r) :
    First q (n + start) (n + stop) (r.map (n + ·)) := by
  have inner {row bound : Nat} (low : n + start ≤ row) (high : row < n + bound) :
      start ≤ row - n ∧ row - n < bound ∧ n + (row - n) = row := by omega
  cases first with
  | missing fails =>
      refine .missing fun row low high => ?_
      obtain ⟨low, high, same⟩ := inner low high
      exact same ▸ fails (row - n) low high
  | found low high passes before =>
      refine .found (Nat.add_le_add_left low n) (Nat.add_lt_add_left high n) passes ?_
      intro row low high
      obtain ⟨low, high, same⟩ := inner low high
      exact same ▸ before (row - n) low high

/-- Nothing was found up to `mid`, where the range may have ended before. -/
theorem after (rest : First q mid stop r) (lower : start ≤ mid)
    (before : First q start (min mid stop) none) : First q start stop r := by
  cases before with
  | missing fails =>
      cases rest with
      | missing fails' =>
          refine .missing fun row low high => ?_
          by_cases late : mid ≤ row
          · exact fails' row late high
          · exact fails row low (by omega)
      | found low high passes before =>
          refine .found (Nat.le_trans lower low) high passes fun row' low' less => ?_
          by_cases late : mid ≤ row'
          · exact before row' late less
          · exact fails row' low' (by omega)

theorem empty (none : stop ≤ start) : First q start stop .none :=
  .missing fun _ low high => absurd (Nat.lt_of_le_of_lt low high) (Nat.not_lt_of_le none)

theorem one (passes : q start = true) : First q start (start + 1) (some start) :=
  .found (Nat.le_refl _) (Nat.lt_succ_self _) passes fun _ low less =>
    absurd less (Nat.not_lt_of_le low)

theorem one_iff (first : First q start (start + 1) r) : r = some start ↔ q start = true := by
  constructor
  · rintro rfl
    cases first with
    | found _ _ passes => exact passes
  · intro passes
    exact first.unique (one passes)

end First

theorem firstWhere_first (q : Nat → Bool) (count start : Nat) :
    First q start (start + count) (firstWhere q count start) := by
  induction count generalizing start with
  | zero => exact .empty (Nat.le_refl _)
  | succ count ih =>
      rw [firstWhere]
      cases here : q start with
      | true =>
          exact .found (Nat.le_refl _) (by omega) here fun _ low less => by omega
      | false =>
          have later := ih (start + 1)
          rw [Nat.add_right_comm] at later
          refine later.extend (Nat.le_succ _) fun row low less => ?_
          rwa [Nat.le_antisymm (Nat.le_of_lt_succ less) low]

theorem firstWhere_between (q : Nat → Bool) (start stop : Nat) :
    First q start stop (firstWhere q (stop - start) start) := by
  by_cases lower : start ≤ stop
  · have first := firstWhere_first q (stop - start) start
    rwa [Nat.add_sub_cancel' lower] at first
  · rw [Nat.sub_eq_zero_of_le (Nat.le_of_not_le lower)]
    exact .empty (Nat.le_of_not_le lower)

/-! ### Searches of a chain -/

/-- All conditions of a chain pass. -/
def passes (qs : List (Nat → Bool)) (row : Nat) : Bool := qs.all (· row)

theorem passes_iff {qs : List (Nat → Bool)} {row : Nat} :
    passes qs row = true ↔ ∀ (i : Nat) (q : Nat → Bool), qs[i]? = some q → q row = true := by
  rw [passes, List.all_eq_true]
  constructor
  · exact fun all i q here => all q (List.mem_of_getElem? here)
  · intro all q inside
    obtain ⟨i, here⟩ := List.getElem?_of_mem inside
    exact all i q here

theorem not_passes {qs : List (Nat → Bool)} {row i : Nat} {q : Nat → Bool} (here : qs[i]? = some q)
    (fails : q row = false) : passes qs row = false := by
  rw [← Bool.not_eq_true, passes_iff]
  exact fun all => by simp [all i q here] at fails

section Chain

variable {ν : Type} {M : (Nat → Bool) → ν → Prop} {qs : List (Nat → Bool)} {chain : List ν}
  {q : Nat → Bool} {i : Nat} {node : ν}

theorem forall₂_get (each : List.Forall₂ M qs chain) (known : qs[i]? = some q) :
    ∃ node, chain[i]? = some node ∧ M q node := by
  induction each generalizing i with
  | nil => cases known
  | cons first rest ih =>
      cases i with
      | zero =>
          cases known
          exact ⟨_, rfl, first⟩
      | succ i => exact ih known

theorem forall₂_set (each : List.Forall₂ M qs chain) (known : qs[i]? = some q) (means : M q node) :
    List.Forall₂ M qs (chain.set i node) := by
  induction each generalizing i with
  | nil => exact .nil
  | cons first rest ih =>
      cases i with
      | zero =>
          cases known
          exact .cons means rest
      | succ i => exact .cons first (ih known)

theorem forall₂_modify {f : ν → ν} (each : List.Forall₂ M qs chain)
    (kept : ∀ q node, M q node → M q (f node)) (i : Nat) :
    List.Forall₂ M qs (chain.modify i f) := by
  induction each generalizing i with
  | nil => simp
  | cons first rest ih =>
      cases i with
      | zero => exact .cons (kept _ _ first) rest
      | succ i => exact .cons first (ih i)

end Chain

namespace Prober

variable {ν σ : Type} {p : Prober ν σ} {I : σ → Prop} {M : (Nat → Bool) → ν → Prop}
  {qs : List (Nat → Bool)} {q : Nat → Bool} {i size start stop : Nat}

/-- What a condition finds does not depend on what it remembers, and statistics are no part of
that. -/
structure Lawful (p : Prober ν σ) (I : σ → Prop) (M : (Nat → Bool) → ν → Prop) (size : Nat) :
    Prop where
  find : ∀ q node start stop, stop ≤ size → M q node → Ensures I (p.find start stop node)
    fun r s => I s ∧ M q r.2 ∧ First q start stop r.1
  setStats : ∀ q node stats, M q node → M q (p.setStats stats node)

/-- The conditions of a chain are known, and so is the state they share. -/
def Knows (I : σ → Prop) (M : (Nat → Bool) → ν → Prop) (qs : List (Nat → Bool))
    (c : List ν × σ) : Prop :=
  I c.2 ∧ List.Forall₂ M qs c.1

theorem findAt_ensures (lawful : p.Lawful I M size) (known : qs[i]? = some q)
    (inside : stop ≤ size) : Ensures (Knows I M qs) (p.findAt i start stop) fun r c =>
      Knows I M qs c ∧ First q start stop r := by
  rintro ⟨chain, s⟩ ⟨inv, each⟩
  obtain ⟨node, here, means⟩ := forall₂_get each known
  obtain ⟨inv, means, first⟩ := lawful.find q node start stop inside means s inv
  simp only [findAt, here]
  exact ⟨⟨inv, forall₂_set each known means⟩, first⟩

/-- Two conditions in turn from `first` on are the same one only after all were asked. -/
theorem turn_ne {count first k : Nat} (low : first < count) (more : k + 1 < count) :
    (first + k + 1) % count ≠ first := by
  by_cases around : first + k + 1 < count
  · rw [Nat.mod_eq_of_lt around]
    omega
  · rw [Nat.mod_eq_sub_mod (by omega), Nat.mod_eq_of_lt (by omega)]
    omega

theorem exists_turn {count first i : Nat} (low : first < count) (inside : i < count) :
    ∃ j < count, (first + j) % count = i := by
  by_cases later : first ≤ i
  · exact ⟨i - first, by omega, by rw [Nat.add_sub_cancel' later, Nat.mod_eq_of_lt inside]⟩
  · refine ⟨count - first + i, by omega, ?_⟩
    rw [show first + (count - first + i) = i + count by omega, Nat.add_mod_right,
      Nat.mod_eq_of_lt inside]

/-- Whose turn it is with which candidate, and who had the first turn with it. -/
structure Turn where
  row : Nat
  next : Nat
  first : Nat

/-- One turn. -/
def turnStep (p : Prober ν σ) (count stop : Nat) (t : Turn) :
    StateM (List ν × σ) (Turn ⊕ Option Nat) := do
  if stop ≤ t.row then return .inr none
  match ← p.findAt t.next t.row stop with
  | none => return .inr none
  | some row =>
      let next := (t.next + 1) % count
      if row ≠ t.row then return .inl ⟨row, next, next⟩
      else if next = t.first then return .inr (some row)
      else return .inl { t with next }

theorem takeTurns_eq (count fuel : Nat) (t : Turn) :
    p.takeTurns count stop fuel t.row t.next t.first =
      repeated (p.turnStep count stop) none fuel t := by
  induction fuel generalizing t with
  | zero => rfl
  | succ fuel ih =>
      rw [takeTurns, repeated, turnStep]
      split
      next => rfl
      next =>
        rw [bind_assoc]
        refine bind_congr fun r => ?_
        cases r with
        | none => rfl
        | some row =>
            dsimp only
            split
            next => exact ih ⟨row, _, _⟩
            next stayed =>
              rw [not_not] at stayed
              split
              next => rfl
              next => exact ih { t with next := (t.next + 1) % count }

/-- No row in front of the candidate passes, and the `k` conditions that had a turn confirmed it. -/
structure Turning (qs : List (Nat → Bool)) (start k : Nat) (t : Turn) : Prop where
  first : t.first < qs.length
  few : k < qs.length
  next : t.next = (t.first + k) % qs.length
  low : start ≤ t.row
  failed : ∀ row, start ≤ row → row < t.row → passes qs row = false
  confirmed : ∀ j < k, ∀ q, qs[(t.first + j) % qs.length]? = some q → q t.row = true

namespace Turning

variable {k row : Nat} {t : Turn}

theorem next_lt (turning : Turning qs start k t) : t.next < qs.length := by
  rw [turning.next]
  exact Nat.mod_lt _ (Nat.zero_lt_of_lt turning.few)

theorem later (turning : Turning qs start k t) :
    (t.next + 1) % qs.length = (t.first + (k + 1)) % qs.length := by
  rw [turning.next, Nat.mod_add_mod, Nat.add_assoc]

/-- Rows that the condition in turn fails do not pass. -/
theorem failed_before (turning : Turning qs start k t) (here : qs[t.next]? = some q)
    (before : ∀ row', t.row ≤ row' → row' < row → q row' = false) :
    ∀ row', start ≤ row' → row' < row → passes qs row' = false := by
  intro row' low less
  by_cases late : t.row ≤ row'
  · exact not_passes here (before row' late less)
  · exact turning.failed row' low (Nat.lt_of_not_le late)

theorem moved (turning : Turning qs start k t) (here : qs[t.next]? = some q)
    (first : First q t.row stop (some row)) :
    Turning qs start 0 ⟨row, (t.next + 1) % qs.length, (t.next + 1) % qs.length⟩ := by
  have some := Nat.zero_lt_of_lt turning.few
  have next := Nat.mod_lt (t.next + 1) some
  cases first with
  | found low _ _ before =>
      exact {
        first := next
        few := some
        next := (Nat.mod_eq_of_lt next).symm
        low := Nat.le_trans turning.low low
        failed := turning.failed_before here before
        confirmed := fun _ few => absurd few (Nat.not_lt_zero _) }

theorem confirmed_succ (turning : Turning qs start k t) (here : qs[t.next]? = some q)
    (passes : q t.row = true) :
    ∀ j < k + 1, ∀ q, qs[(t.first + j) % qs.length]? = some q → q t.row = true := by
  intro j few q' at_
  rcases Nat.lt_succ_iff_lt_or_eq.mp few with earlier | rfl
  · exact turning.confirmed j earlier q' at_
  · rw [← turning.next, here] at at_
    cases at_
    exact passes

/-- The turn comes back to the first condition when all have confirmed the candidate. -/
theorem around (turning : Turning qs start k t) (here : qs[t.next]? = some q)
    (passes : q t.row = true) (same : (t.next + 1) % qs.length = t.first) :
    ColumnStore.passes qs t.row = true := by
  have all : k + 1 = qs.length := by
    by_contra other
    have few := turning.few
    rw [turning.later] at same
    exact turn_ne turning.first (by omega) same
  refine passes_iff.mpr fun i q at_ => ?_
  obtain ⟨j, few, place⟩ := exists_turn turning.first (List.getElem?_eq_some_iff.mp at_).1
  exact turning.confirmed_succ here passes j (all ▸ few) q (place ▸ at_)

theorem again (turning : Turning qs start k t) (here : qs[t.next]? = some q)
    (passes : q t.row = true) (other : (t.next + 1) % qs.length ≠ t.first) :
    Turning qs start (k + 1) { t with next := (t.next + 1) % qs.length } where
  first := turning.first
  few := by
    by_contra all
    have few := turning.few
    rw [turning.later, show k + 1 = qs.length by omega, Nat.add_mod_right,
      Nat.mod_eq_of_lt turning.first] at other
    exact other rfl
  next := turning.later
  low := turning.low
  failed := turning.failed
  confirmed := turning.confirmed_succ here passes

end Turning

/-- A later candidate is worth more turns than all conditions can take with one. -/
def turnsLeft (count stop k row : Nat) : Nat := (stop - row) * (count + 1) + (count - k)

theorem turnStep_ensures (lawful : p.Lawful I M size) (inside : stop ≤ size) (n : Nat) (t : Turn) :
    Ensures (fun c => Knows I M qs c ∧ ∃ k, Turning qs start k t ∧ turnsLeft qs.length stop k t.row ≤ n)
      (p.turnStep qs.length stop t)
      (Closer (fun n t c => Knows I M qs c ∧
        ∃ k, Turning qs start k t ∧ turnsLeft qs.length stop k t.row ≤ n)
        (fun r c => Knows I M qs c ∧ First (passes qs) start stop r) n) := by
  rintro c ⟨known, k, turning, bound⟩
  suffices each : Ensures (Knows I M qs) (p.turnStep qs.length stop t) _ from each c known
  obtain ⟨q, here⟩ : ∃ q, qs[t.next]? = some q := ⟨_, List.getElem?_eq_getElem turning.next_lt⟩
  have few := turning.few
  rw [turnsLeft] at bound
  rw [turnStep]
  split
  next past =>
    refine .pure fun c known => .ended ⟨known, ?_⟩
    exact (First.empty past).extend turning.low turning.failed
  next more =>
    refine (findAt_ensures lawful here inside).bind fun r => ?_
    cases r with
    | none =>
        refine .pure fun c known => .ended ⟨known.1, ?_⟩
        cases known.2 with
        | missing fails =>
            refine First.extend (.missing fun row low high => ?_) turning.low turning.failed
            exact not_passes here (fails row low high)
    | some row =>
        dsimp only
        split
        next moved =>
          refine .pure fun c known => ?_
          have ahead : t.row < row ∧ row < stop := by
            cases known.2 with
            | found low high => exact ⟨Nat.lt_of_le_of_ne low (Ne.symm moved), high⟩
          have less := Nat.mul_le_mul_right (qs.length + 1)
            (show stop - row + 1 ≤ stop - t.row by omega)
          rw [Nat.add_one_mul] at less
          have fewer : turnsLeft qs.length stop 0 row < n := by
            rw [turnsLeft]
            omega
          exact .on fewer ⟨known.1, 0, turning.moved here known.2, Nat.le_refl _⟩
        next stayed =>
          rw [not_not] at stayed
          subst stayed
          have passes (first : First q t.row stop (some t.row)) : q t.row = true := by
            cases first with
            | found _ _ passes => exact passes
          split
          next around =>
            refine .pure fun c known => .ended ⟨known.1, ?_⟩
            have found : First (ColumnStore.passes qs) t.row stop (some t.row) :=
              (First.one (turning.around here (passes known.2) around)).widen
                (Nat.lt_of_not_le more)
            exact found.extend turning.low turning.failed
          next other =>
            refine .pure fun c known => ?_
            have fewer : turnsLeft qs.length stop (k + 1) t.row < n := by
              rw [turnsLeft]
              omega
            exact .on fewer
              ⟨known.1, k + 1, turning.again here (passes known.2) other, Nat.le_refl _⟩

/-- The turns of a search end with the first row that all conditions match. -/
theorem findFirst_ends (lawful : p.Lawful I M size) (start : Nat) (inside : stop ≤ size)
    (conditions : qs ≠ []) {c : List ν × σ} (known : Knows I M qs c) :
    Ends (p.turnStep qs.length stop) ⟨start, 0, 0⟩ c (p.findFirst start stop c) ∧
      Knows I M qs (p.findFirst start stop c).2 ∧
      First (passes qs) start stop (p.findFirst start stop c).1 := by
  have some : 0 < qs.length := List.length_pos_iff.mpr conditions
  have turning : Turning qs start 0 ⟨start, 0, 0⟩ := {
    first := some
    few := some
    next := (Nat.zero_mod _).symm
    low := Nat.le_refl _
    failed := fun _ low less => absurd less (Nat.not_lt_of_le low)
    confirmed := fun _ few => absurd few (Nat.not_lt_zero _) }
  have fueled : turnsLeft qs.length stop 0 start < (stop - start + 1) * (qs.length + 1) := by
    rw [turnsLeft, Nat.add_one_mul]
    omega
  have run : p.findFirst start stop c =
      p.takeTurns qs.length stop ((stop - start + 1) * (qs.length + 1)) start 0 0 c := by
    have many : c.1.length ≠ 0 := by
      rw [← known.2.length_eq]
      exact Nat.ne_of_gt some
    simp only [findFirst, get_bind_apply, if_neg many, known.2.length_eq]
  rw [run, takeTurns_eq _ _ ⟨start, 0, 0⟩]
  exact repeated_ends (turnStep_ensures lawful inside) none fueled
    ⟨known, 0, turning, Nat.le_refl _⟩

theorem findFirst_ensures (lawful : p.Lawful I M size) (inside : stop ≤ size) :
    Ensures (Knows I M qs) (p.findFirst start stop) fun r c =>
      Knows I M qs c ∧ First (passes qs) start stop r := by
  intro c known
  by_cases conditions : qs = []
  · subst conditions
    have none : c.1.length = 0 := known.2.length_eq.symm
    simp only [findFirst, get_bind_apply, if_pos none]
    refine ⟨known, ?_⟩
    split
    next some => exact (First.one rfl).widen some
    next nothing => exact .empty (Nat.not_lt.mp nothing)
  · exact (findFirst_ends lawful start inside conditions known).2

theorem confirm_ensures (lawful : p.Lawful I M size) {row : Nat} (inside : row < size) {is : List Nat}
    (each : ∀ i ∈ is, i < qs.length) : Ensures (Knows I M qs) (p.confirm row is) fun b c =>
      Knows I M qs c ∧ (b = true ↔ ∀ i ∈ is, ∀ q, qs[i]? = some q → q row = true) := by
  induction is with
  | nil => exact .pure fun _ known => ⟨known, by simp⟩
  | cons i is ih =>
    obtain ⟨low, rest⟩ := List.forall_mem_cons.mp each
    have here := List.getElem?_eq_getElem low
    rw [confirm]
    refine (findAt_ensures lawful here inside).bind fun r => ?_
    split
    next found =>
      intro c known
      obtain ⟨known', confirmed⟩ := ih rest c known.1
      refine ⟨known', ?_⟩
      rw [confirmed, List.forall_mem_cons]
      refine ⟨fun all => ⟨fun q at_ => ?_, all⟩, fun all => all.2⟩
      rw [here] at at_
      cases at_
      exact (First.one_iff known.2).mp found
    next other =>
      refine .pure fun c known => ⟨known.1, ?_⟩
      refine ⟨fun yes => absurd yes Bool.false_ne_true, fun all => absurd ?_ other⟩
      exact (First.one_iff known.2).mpr (all i List.mem_cons_self _ here)

end Prober

end ColumnStore
