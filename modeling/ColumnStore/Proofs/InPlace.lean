import ColumnStore.Proofs.AnyList
import Mathlib.Order.Bounds.Defs

set_option autoImplicit false

/-!
Packed elements that are written in place. Writing one element changes the bits of that element only,
so a loop that runs from the last element to the first reads every element at its old width before
anything at the new width is written over it.
-/
namespace ColumnStore

namespace Width

theorem fits_iff_between {w : Nat} {v : Int64} : fits w v = true ↔ lower w ≤ v ∧ v ≤ upper w := by
  rw [fits, Bool.and_eq_true, decide_eq_true_eq, decide_eq_true_eq]

theorem isLeast_ofValue (v : Int64) :
    IsLeast {w | w ∈ legal ∧ lower w ≤ v ∧ v ≤ upper w} (ofValue v) := by
  refine ⟨⟨ofValue_legal v, fits_iff_between.mp (fits_ofValue v)⟩, ?_⟩
  rintro w ⟨legal, between⟩
  exact (fits_iff_ofValue_le legal).mp (fits_iff_between.mpr between)

end Width

namespace Memory

/-! ### One element -/

/-- Reading gives back what was written, nothing else changes, and the width chosen for a value is
the smallest one whose bounds hold it. -/
theorem codecs_exact :
    (∀ (m : Memory) (p i : Nat), ∀ w ∈ Width.legal, ∀ v, Width.lower w ≤ v → v ≤ Width.upper w →
      (m.setElement p w i v).element p w i = v ∧
        (∀ j, j ≠ i → (m.setElement p w i v).element p w j = m.element p w j) ∧
        SameBits m (m.setElement p w i v) (8 * p + i * w) w) ∧
      ∀ v, (∀ w ∈ Width.legal, Width.ofValue v ≤ w ↔ Width.lower w ≤ v ∧ v ≤ Width.upper w) ∧
        IsLeast {w | w ∈ Width.legal ∧ Width.lower w ≤ v ∧ v ≤ Width.upper w} (Width.ofValue v) := by
  constructor
  · intro m p i w legal v low high
    have fits := Width.fits_iff_between.mpr ⟨low, high⟩
    exact ⟨element_setElement_same m legal fits, fun j other => element_setElement_ne m legal other,
      sameBits_setElement m p w i v legal⟩
  · refine fun v => ⟨fun w legal => ?_, Width.isLeast_ofValue v⟩
    rw [← Width.fits_iff_ofValue_le legal, Width.fits_iff_between]

/-- A nibble beside another, and a width whose bounds just miss the value below it. -/
theorem codecs_exact_nibbles :
    (Memory.setElement ⟨⟨#[0xAB]⟩⟩ 0 4 1 5).element 0 4 1 = 5 ∧
      (Memory.setElement ⟨⟨#[0xAB]⟩⟩ 0 4 1 5).element 0 4 0 = 0xB ∧
      IsLeast {w | w ∈ Width.legal ∧ Width.lower w ≤ -129 ∧ -129 ≤ Width.upper w} 16 := by
  obtain ⟨codec, widths⟩ := codecs_exact
  obtain ⟨back, others, -⟩ := codec ⟨⟨#[0xAB]⟩⟩ 0 1 4 (by decide) 5 (by decide) (by decide)
  have first : Memory.element ⟨⟨#[0xAB]⟩⟩ 0 4 0 = 0xB := by decide +kernel
  have width : Width.ofValue (-129) = 16 := by decide +kernel
  exact ⟨back, (others 0 (by decide)).trans first, width ▸ (widths (-129)).2⟩

/-! ### Loops as lists of steps -/

/-- What a loop does in one turn: it moves an old element, or puts a new one in its place. -/
inductive Step where
  | move (source target : Nat)
  | put (target : Nat) (v : Int64)
  deriving DecidableEq, Repr

namespace Step

def target : Step → Nat
  | move _ target => target
  | put target _ => target

/-- Old elements are read at width `w`, new ones are written at width `w'`. -/
def run (p w w' : Nat) (m : Memory) : Step → Memory
  | move source target => m.setElement p w' target (m.element p w source)
  | put target v => m.setElement p w' target v

end Step

def runSteps (p w w' : Nat) (m : Memory) (steps : List Step) : Memory :=
  steps.foldl (Step.run p w w') m

def widenSteps : Nat → List Step
  | 0 => []
  | n + 1 => .move n n :: widenSteps n

def shiftUpSteps (i : Nat) : Nat → List Step
  | 0 => []
  | n + 1 => .move (i + n) (i + n + 1) :: shiftUpSteps i n

def insertSteps (n i : Nat) (v : Int64) : List Step :=
  shiftUpSteps i (n - i) ++ .put i v :: widenSteps i

variable {m : Memory} {p w w' n i s : Nat} {v : Int64} {steps : List Step}

theorem runSteps_append (p w w' : Nat) (m : Memory) (first steps : List Step) :
    runSteps p w w' m (first ++ steps) = runSteps p w w' (runSteps p w w' m first) steps :=
  List.foldl_append

theorem widen_eq_run (m : Memory) (p w w' n : Nat) :
    m.widen p w w' n = runSteps p w w' m (widenSteps n) := by
  induction n generalizing m with
  | zero => rfl
  | succ n ih => exact ih _

theorem shiftUp_eq_run (m : Memory) (p w w' i n : Nat) :
    m.shiftUp p w w' i n = runSteps p w w' m (shiftUpSteps i n) := by
  induction n generalizing m with
  | zero => rfl
  | succ n ih => exact ih _

theorem insertElement_eq_run (m : Memory) (p n i : Nat) (v : Int64) (wider : w ≠ w') :
    Node.insertElement m p w w' n i v = runSteps p w w' m (insertSteps n i v) := by
  rw [Node.insertElement, if_pos (.inl wider), shiftUp_eq_run, insertSteps, runSteps_append]
  simp only [if_pos wider, widen_eq_run]
  rfl

/-! ### Reading before writing -/

/-- The places of the bits of element `i`. -/
def bits (p w i : Nat) : Set Nat := block (8 * p + i * w) w

theorem element_run {step : Step} (legal : w ∈ Width.legal) (legal' : w' ∈ Width.legal)
    (apart : Disjoint (bits p w' step.target) (bits p w s)) :
    (step.run p w w' m).element p w s = m.element p w s := by
  have same : SameBits m (step.run p w w' m) (8 * p + step.target * w') w' := by
    cases step <;> exact sameBits_setElement _ _ _ _ _ legal'
  apply element_congr legal
  intro j inside
  apply same
  have here : 8 * p + s * w + j ∈ bits p w s := ⟨Nat.le_add_right _ _, Nat.add_lt_add_left inside _⟩
  have outside := Set.disjoint_right.mp apart here
  simp only [bits, mem_block] at outside
  omega

/-- Writes elsewhere leave an old element as it was. -/
theorem element_runSteps (legal : w ∈ Width.legal) (legal' : w' ∈ Width.legal)
    (apart : ∀ step ∈ steps, Disjoint (bits p w' step.target) (bits p w s)) :
    (runSteps p w w' m steps).element p w s = m.element p w s := by
  induction steps generalizing m with
  | nil => rfl
  | cons step steps ih =>
      obtain ⟨first, rest⟩ := List.forall_mem_cons.mp apart
      exact (ih rest).trans (element_run legal legal' first)

/-- Wider elements lie behind narrower ones with a smaller index. -/
theorem bits_apart {t : Nat} (wider : w ≤ w') (behind : s < t) (p : Nat) :
    Disjoint (bits p w' t) (bits p w s) := by
  refine Set.disjoint_left.mpr fun b new old => ?_
  -- The old element ends no later than element `s + 1` begins at the wider width.
  have ends := Nat.mul_le_mul (show s + 1 ≤ t from behind) wider
  rw [Nat.succ_mul s w] at ends
  simp only [bits, mem_block] at new old
  omega

theorem move_mem_widenSteps {source target : Nat} :
    .move source target ∈ widenSteps n ↔ source < n ∧ target = source := by
  induction n with
  | zero => simp [widenSteps]
  | succ n ih =>
      rw [widenSteps, List.mem_cons, ih, Step.move.injEq]
      omega

theorem move_mem_shiftUpSteps {source target : Nat} :
    .move source target ∈ shiftUpSteps i n ↔
      i ≤ source ∧ source < i + n ∧ target = source + 1 := by
  induction n with
  | zero =>
      simp only [shiftUpSteps, List.not_mem_nil, false_iff]
      omega
  | succ n ih =>
      rw [shiftUpSteps, List.mem_cons, ih, Step.move.injEq]
      omega

theorem lt_target_shiftUpSteps (i n : Nat) : ∀ step ∈ shiftUpSteps i n, i < step.target := by
  induction n with
  | zero => exact List.forall_mem_nil _
  | succ n ih => exact List.forall_mem_cons.mpr ⟨show i < i + n + 1 by omega, ih⟩

/-- The first step writes behind the element that the second one reads. -/
def Behind (first second : Step) : Prop :=
  ∀ source target, second = .move source target → source < first.target

theorem widenSteps_behind (n : Nat) : (widenSteps n).Pairwise Behind := by
  induction n with
  | zero => exact .nil
  | succ n ih =>
      refine .cons ?_ ih
      rintro _ there source target rfl
      exact (move_mem_widenSteps.mp there).1

theorem shiftUpSteps_behind (i n : Nat) : (shiftUpSteps i n).Pairwise Behind := by
  induction n with
  | zero => exact .nil
  | succ n ih =>
      refine .cons ?_ ih
      rintro _ there source target rfl
      exact Nat.lt_succ_of_lt (move_mem_shiftUpSteps.mp there).2.1

theorem insertSteps_behind (n i : Nat) (v : Int64) : (insertSteps n i v).Pairwise Behind := by
  refine List.pairwise_append.mpr ⟨shiftUpSteps_behind i (n - i), .cons ?_ (widenSteps_behind i), ?_⟩
  · rintro _ there source target rfl
    exact (move_mem_widenSteps.mp there).1
  · -- What is read after the shift lies in front of all that the shift wrote.
    rintro step shifted _ there source target rfl
    have low : source < i := by
      rcases List.mem_cons.mp there with same | there
      · cases same
      · exact (move_mem_widenSteps.mp there).1
    exact Nat.lt_trans low (lt_target_shiftUpSteps i (n - i) step shifted)

theorem exists_move_insertSteps (v : Int64) (inside : s < n) :
    ∃ target, .move s target ∈ insertSteps n i v := by
  by_cases low : i ≤ s
  · have shifted := move_mem_shiftUpSteps.mpr ⟨low, show s < i + (n - i) by omega, rfl⟩
    exact ⟨s + 1, List.mem_append_left _ shifted⟩
  · have widened := move_mem_widenSteps.mpr ⟨Nat.lt_of_not_le low, rfl⟩
    exact ⟨s, List.mem_append_right _ (List.mem_cons_of_mem _ widened)⟩

/-- The steps take `m` to `m'`. Each of the `n` old elements is read, and wherever one is read nothing
has been written over its bits. -/
structure InPlace (p w w' n : Nat) (m : Memory) (steps : List Step) (m' : Memory) : Prop where
  run : m' = runSteps p w w' m steps
  read : ∀ source < n, ∃ target, .move source target ∈ steps
  intact : ∀ before source target after, steps = before ++ .move source target :: after →
    (∀ step ∈ before, Disjoint (bits p w' step.target) (bits p w source)) ∧
      (runSteps p w w' m before).element p w source = m.element p w source

theorem intact_of_behind (legal : w ∈ Width.legal) (legal' : w' ∈ Width.legal) (wider : w ≤ w')
    (behind : steps.Pairwise Behind) (p : Nat) (m : Memory) :
    ∀ before source target after, steps = before ++ .move source target :: after →
      (∀ step ∈ before, Disjoint (bits p w' step.target) (bits p w source)) ∧
        (runSteps p w w' m before).element p w source = m.element p w source := by
  rintro before source target after rfl
  have apart : ∀ step ∈ before, Disjoint (bits p w' step.target) (bits p w source) := by
    intro step there
    have first := (List.pairwise_append.mp behind).2.2 step there _ (List.mem_cons_self ..)
    exact bits_apart wider (first source target rfl) p
  exact ⟨apart, element_runSteps legal legal' apart⟩

theorem widen_inPlace (m : Memory) (p n : Nat) (legal : w ∈ Width.legal) (legal' : w' ∈ Width.legal)
    (wider : w ≤ w') : InPlace p w w' n m (widenSteps n) (m.widen p w w' n) where
  run := widen_eq_run m p w w' n
  read := fun source inside => ⟨source, move_mem_widenSteps.mpr ⟨inside, rfl⟩⟩
  intact := intact_of_behind legal legal' wider (widenSteps_behind n) p m

theorem insertElement_inPlace (m : Memory) (p n i : Nat) (v : Int64) (legal : w ∈ Width.legal)
    (legal' : w' ∈ Width.legal) (wider : w < w') :
    InPlace p w w' n m (insertSteps n i v) (Node.insertElement m p w w' n i v) where
  run := insertElement_eq_run m p n i v (Nat.ne_of_lt wider)
  read := fun _ inside => exists_move_insertSteps v inside
  intact := intact_of_behind legal legal' (Nat.le_of_lt wider) (insertSteps_behind n i v) p m

/-- A value too wide for the elements: every one of them is read before it is written over, so they
are all there at the wider width, with or without the value among them. -/
theorem widening_in_place (legal : w ∈ Width.legal) (wider : w < Width.ofValue v) (within : i ≤ n)
    (m : Memory) (p : Nat) :
    (InPlace p w (Width.ofValue v) n m (widenSteps n) (m.widen p w (Width.ofValue v) n) ∧
      (m.widen p w (Width.ofValue v) n).elements p (Width.ofValue v) n = m.elements p w n) ∧
    InPlace p w (Width.ofValue v) n m (insertSteps n i v)
        (Node.insertElement m p w (Width.ofValue v) n i v) ∧
      (Node.insertElement m p w (Width.ofValue v) n i v).elements p (Width.ofValue v) (n + 1) =
        (m.elements p w n).insertIdx i v := by
  have legal' := Width.ofValue_legal v
  have wider' := Nat.le_of_lt wider
  exact ⟨⟨widen_inPlace m p n legal legal' wider', elements_widen m legal legal' wider' n⟩,
    insertElement_inPlace m p n i v legal legal' wider,
    (insertElement_correct m legal legal' wider' (Width.fits_ofValue v) within).2⟩

/-- Four elements of two bits in one byte. -/
theorem widening_in_place_pairs :
    Memory.elements ⟨⟨#[0xE4]⟩⟩ 0 2 4 = [0, 1, 2, 3] ∧
      (Node.insertElement ⟨⟨#[0xE4]⟩⟩ 0 2 16 4 1 300).elements 0 16 5 = [0, 300, 1, 2, 3] ∧
      (Memory.widen ⟨⟨#[0xE4]⟩⟩ 0 2 16 4).elements 0 16 4 = [0, 1, 2, 3] := by
  have old : Memory.elements ⟨⟨#[0xE4]⟩⟩ 0 2 4 = [0, 1, 2, 3] := by decide +kernel
  have width : Width.ofValue 300 = 16 := by decide +kernel
  have result := widening_in_place (w := 2) (n := 4) (i := 1) (v := 300) (by decide)
    (by rw [width]; decide) (by decide) ⟨⟨#[0xE4]⟩⟩ 0
  rw [width, old] at result
  exact ⟨old, result.2.2, result.1.2⟩

end Memory

/-! ### The edits of a node -/

namespace Node

variable {s s' : Store} {n n' : Node} {vs : List Int64} {v : Int64} {i : Nat}

/-- Once the node has room, its elements are rewritten where they are. -/
theorem ensureWidth_in_place (lists : Lists s n vs) (wider : n.width < Width.ofValue v)
    (run : ensureWidth v (n, s) = (.ok (), (n', s'))) :
    ∃ m, m.elements n'.data n.width n.size = vs ∧
      Memory.InPlace n'.data n.width (Width.ofValue v) n.size m (Memory.widenSteps n.size)
        s'.memory := by
  have outside : Width.fits n.width v = false := by
    rw [Bool.eq_false_iff, ne_eq, Width.fits_iff_ofValue_le lists.legal]
    exact Nat.not_le_of_lt wider
  obtain ⟨t, readied, rfl⟩ := ensureWidth_readied lists outside run
  exact ⟨t.memory, readied.list, Memory.widen_inPlace t.memory n'.data n.size lists.legal
    (Width.ofValue_legal v) (Nat.le_of_lt wider)⟩

theorem insert_in_place (lists : Lists s n vs) (wider : n.width < Width.ofValue v)
    (run : insert i v (n, s) = (.ok (), (n', s'))) :
    ∃ m, m.elements n'.data n.width n.size = vs ∧
      Memory.InPlace n'.data n.width (Width.ofValue v) n.size m (Memory.insertSteps n.size i v)
        s'.memory := by
  obtain ⟨t, readied, rfl⟩ := insert_readied lists run
  have raised : Width.raise n.width [v] = Width.ofValue v := by
    rw [Width.raise_cons, Width.raise_nil, Nat.max_eq_right (Nat.le_of_lt wider)]
  rw [raised]
  exact ⟨t.memory, readied.list, Memory.insertElement_inPlace t.memory n'.data n.size i v
    lists.legal (Width.ofValue_legal v) wider⟩

end Node

end ColumnStore
