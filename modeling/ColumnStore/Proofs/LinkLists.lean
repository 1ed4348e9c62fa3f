import ColumnStore.Proofs.LeafSearch
import ColumnStore.Proofs.TableContent

set_option autoImplicit false

/-!
Runs of operations on a column of lists of links. The lists go through the same operations, and the
node of a list belongs to one row only, until the row gives it up.
-/
namespace ColumnStore

namespace Link

theorem ofWord_toWord {target : Nat} (small : target < UInt64.size) :
    ofWord (toWord target) = target := Slot.toRef_ofRef small

theorem toWord_ofWord (v : Int64) : toWord (ofWord v) = v := Slot.ofRef_toRef v

/-- The targets that the words of some lists stand for. -/
def targets (words : List (List Int64)) : List (List Nat) := words.map (List.map ofWord)

theorem mem_map_ofWord {words : List Int64} {target : Nat} (small : target < UInt64.size) :
    target ∈ words.map ofWord ↔ toWord target ∈ words := by
  rw [List.mem_map]
  constructor
  · rintro ⟨v, inside, rfl⟩
    rwa [toWord_ofWord]
  · exact fun inside => ⟨_, inside, ofWord_toWord small⟩

@[simp] theorem length_targets (words : List (List Int64)) :
    (targets words).length = words.length := List.length_map _

theorem getElem_targets {words : List (List Int64)} {row : Nat} (inside : row < words.length)
    {within : row < (targets words).length} :
    (targets words)[row] = words[row].map ofWord := List.getElem_map _

theorem targets_set {words : List (List Int64)} {row : Nat} (inside : row < words.length)
    {list : List Int64} {edit : List Nat → List Nat}
    (same : list.map ofWord = edit (words[row].map ofWord)) :
    targets (words.set row list) = (targets words).modify row edit := by
  have within : row < (targets words).length := by rwa [length_targets]
  rw [List.modify_eq_set, List.getElem?_eq_getElem within, Option.getD_some,
    getElem_targets inside, ← same]
  exact List.map_set

end Link

theorem Node.Packed.findFirst_isSome {s : Store} {n : Node} {ws : List Int64} {w : Int64}
    (packed : Packed s n ws) :
    (n.findFirst s.memory .equal w 0 none).isSome = true ↔ w ∈ ws := by
  have whole : stopOf n.size none - 0 = ws.length := by
    rw [stopOf, Option.getD_none, Nat.min_self, Nat.sub_zero, packed.length]
  rw [findFirst_eq packed.live.stored.legal, List.find?_isSome, whole]
  constructor
  · rintro ⟨i, member, same⟩
    have inside : i < ws.length := by simpa using List.mem_range'_1.mp member
    rw [packed.get inside] at same
    rw [← eq_of_beq same]
    exact List.getElem_mem inside
  · intro member
    obtain ⟨i, inside, rfl⟩ := List.getElem_of_mem member
    refine ⟨i, List.mem_range'_1.mpr ⟨Nat.zero_le i, by omega⟩, ?_⟩
    rw [packed.get inside]
    exact beq_self_eq_true _

namespace LinkListColumn

open Link (targets)

/-! ### Operations -/

inductive Op where
  /-- A row with an empty list, in front of a row or at the end. -/
  | insert (row : Option Nat)
  | addLink (row target : Nat)
  | removeLink (row i : Nat)
  | erase (row : Nat)
  | clear
  deriving DecidableEq, Repr

namespace Op

def run : Op → Edit LinkListColumn Unit
  | insert row => LinkListColumn.insert row
  | addLink row target => LinkListColumn.addLink row target
  | removeLink row i => LinkListColumn.removeLink row i
  | erase row => LinkListColumn.erase row
  | clear => LinkListColumn.clear

def onLists : Op → List (List Nat) → List (List Nat)
  | insert row, lists => lists.insertIdx (row.getD lists.length) []
  | addLink row target, lists => lists.modify row (· ++ [target])
  | removeLink row i, lists => lists.modify row (·.eraseIdx i)
  | erase row, lists => lists.eraseIdx row
  | clear, _ => []

/-- A target is a row number, and a list is not too long for the header of its node. -/
def InRange : Op → List (List Nat) → Prop
  | insert row, lists => row.getD lists.length ≤ lists.length
  | addLink row target, lists =>
      row < lists.length ∧ target < UInt64.size ∧ (lists.getD row []).length + 1 < 2 ^ 24
  | removeLink row i, lists => row < lists.length ∧ i < (lists.getD row []).length
  | erase row, lists => row < lists.length
  | clear, _ => True

instance (op : Op) (lists : List (List Nat)) : Decidable (op.InRange lists) := by
  cases op <;> unfold InRange <;> infer_instance

/-- The list of this row is no more after the operation, or empty. -/
def Drops : Op → List (List Nat) → Nat → Prop
  | insert _, _, _ | addLink _ _, _, _ => False
  | removeLink row _, lists, r => r = row ∧ (lists.getD row []).length = 1
  | erase row, _, r => r = row
  | clear, _, _ => True

/-- What becomes of the slots. -/
def Moves : Op → List (List Nat) → List Int64 → List Int64 → Prop
  | insert row, lists, vs, vs' => vs' = vs.insertIdx (row.getD lists.length) 0
  | addLink row _, _, vs, vs' => Replaced row vs vs'
  | removeLink row _, lists, vs, vs' =>
      Replaced row vs vs' ∧ ((lists.getD row []).length = 1 → vs' = vs.set row 0)
  | erase row, _, vs, vs' => vs' = vs.eraseIdx row
  | clear, _, _, vs' => vs' = []

end Op

def run : List Op → Edit LinkListColumn Unit
  | [] => pure ()
  | op :: ops => do
      op.run
      run ops

def onLists (ops : List Op) (lists : List (List Nat)) : List (List Nat) :=
  ops.foldl (fun lists op => op.onLists lists) lists

def InRange : List Op → List (List Nat) → Prop
  | [], _ => True
  | op :: ops, lists => op.InRange lists ∧ InRange ops (op.onLists lists)

instance decidableInRange :
    (ops : List Op) → (lists : List (List Nat)) → Decidable (InRange ops lists)
  | [], _ => .isTrue True.intro
  | op :: ops, lists =>
      have := decidableInRange ops (op.onLists lists)
      inferInstanceAs (Decidable (_ ∧ _))

/-! ### Slots -/

/-- No two slots refer to the same node. -/
def Unshared (vs : List Int64) : Prop := vs.Pairwise fun v v' => v ≠ 0 → v ≠ v'

variable {vs vs' : List Int64} {lists : List (List Nat)} {row : Nat} {v : Int64} {op : Op}

theorem Unshared.perm (unshared : Unshared vs) (same : vs.Perm vs') : Unshared vs' := by
  refine (same.pairwise_iff ?_).mp unshared
  intro v v' differ some equal
  exact differ (equal ▸ some) equal.symm

theorem unshared_cons : Unshared (v :: vs) ↔ (v ≠ 0 → v ∉ vs) ∧ Unshared vs := by
  refine List.pairwise_cons.trans (and_congr_left' ?_)
  exact ⟨fun differ some inside => differ v inside some rfl,
    fun absent w inside some equal => absent some (equal ▸ inside)⟩

theorem Unshared.apart (unshared : Unshared vs) (here : vs[row]? = some v) (some : v ≠ 0) :
    v ∉ vs.eraseIdx row := by
  obtain ⟨inside, rfl⟩ := List.getElem?_eq_some_iff.mp here
  exact (unshared_cons.mp (unshared.perm (List.getElem_cons_eraseIdx_perm inside).symm)).1 some

theorem Unshared.eraseIdx (unshared : Unshared vs) (row : Nat) : Unshared (vs.eraseIdx row) :=
  unshared.sublist (List.eraseIdx_sublist vs row)

theorem Replaced.unshared (replaced : Replaced row vs vs') (unshared : Unshared vs) :
    Unshared vs' := by
  obtain ⟨v, rfl, fresh⟩ := replaced
  by_cases inside : row < vs.length
  · refine Unshared.perm ?_ (List.set_perm_cons_eraseIdx inside v).symm
    exact unshared_cons.mpr ⟨fresh, unshared.eraseIdx row⟩
  · rwa [List.set_eq_of_length_le (Nat.le_of_not_lt inside)]

theorem Op.Moves.unshared (moves : op.Moves lists vs vs') (unshared : Unshared vs) :
    Unshared vs' := by
  cases op with
  | insert row =>
      subst moves
      by_cases inside : row.getD lists.length ≤ vs.length
      · refine Unshared.perm ?_ (List.perm_insertIdx 0 vs inside).symm
        exact unshared_cons.mpr ⟨fun some => absurd rfl some, unshared⟩
      · rwa [List.insertIdx_of_length_lt (Nat.lt_of_not_le inside)]
  | addLink row target => exact moves.unshared unshared
  | removeLink row i => exact moves.1.unshared unshared
  | erase row =>
      subst moves
      exact unshared.eraseIdx row
  | clear =>
      subst moves
      exact List.Pairwise.nil

/-- The slot of a list that is dropped is in no row. -/
theorem Op.Moves.dropped (moves : op.Moves lists vs vs') (drops : op.Drops lists row)
    (unshared : Unshared vs) (here : vs[row]? = some v) (some : v ≠ 0) : v ∉ vs' := by
  cases op with
  | insert | addLink => exact drops.elim
  | removeLink row' i =>
      obtain ⟨rfl, last⟩ := drops
      obtain ⟨inside, -⟩ := List.getElem?_eq_some_iff.mp here
      rw [moves.2 last, (List.set_perm_cons_eraseIdx inside 0).mem_iff, List.mem_cons, not_or]
      exact ⟨some, unshared.apart here some⟩
  | erase row' =>
      obtain rfl := drops
      rw [show vs' = _ from moves]
      exact unshared.apart here some
  | clear =>
      rw [show vs' = _ from moves]
      exact List.not_mem_nil

/-! ### Steps -/

variable {c c' : LinkListColumn} {s s' : Store} {words : List (List Int64)} {R : Assertion}
  {ops : List Op}

theorem Op.length_onLists (op : Op) (lists : List (List Nat)) :
    (op.onLists lists).length ≤ lists.length + 1 := by
  cases op with
  | insert =>
      rw [onLists, List.length_insertIdx]
      split <;> omega
  | addLink => simp [onLists]
  | removeLink => simp [onLists]
  | erase =>
      rw [onLists, List.length_eraseIdx]
      split <;> omega
  | clear => simp [onLists]

theorem getD_targets (inside : row < words.length) :
    ((targets words).getD row []).length = words[row].length := by
  simp [targets, inside]

theorem Op.run_slots (h : s.Holds (c.slots vs words * R))
    (small : words.length + 1 < Slot.countBound) (inRange : op.InRange (targets words))
    (ok : op.run (c, s) = (.ok (), (c', s'))) :
    ∃ vs' words', op.Moves (targets words) vs vs' ∧ op.onLists (targets words) = targets words' ∧
      s'.Holds (c'.slots vs' words' * R) := by
  have short := Nat.lt_of_succ_lt small
  cases op with
  | insert row =>
      rw [InRange, Link.length_targets] at inRange
      refine ⟨_, _, ?_, ?_, insert_slots h inRange small ok⟩
      · rw [Moves, Link.length_targets]
      · rw [onLists, Link.length_targets, targets, targets, List.map_insertIdx]
        rfl
  | addLink row target =>
      obtain ⟨inside, bound, few⟩ := inRange
      rw [Link.length_targets] at inside
      rw [getD_targets inside] at few
      obtain ⟨vs', replaced, h⟩ := addLink_slots h inside short few ok
      refine ⟨vs', _, replaced, ?_, h⟩
      refine (Link.targets_set inside ?_).symm
      rw [List.map_append, List.map_singleton, Link.ofWord_toWord bound]
  | removeLink row i =>
      obtain ⟨inside, entry⟩ := inRange
      rw [Link.length_targets] at inside
      rw [getD_targets inside] at entry
      obtain ⟨vs', replaced, last, h⟩ := removeLink_slots h inside short entry ok
      refine ⟨vs', _, ⟨replaced, ?_⟩, ?_, h⟩
      · rwa [getD_targets inside]
      · exact (Link.targets_set inside (List.eraseIdx_map ..).symm).symm
  | erase row =>
      rw [InRange, Link.length_targets] at inRange
      exact ⟨_, _, rfl, List.eraseIdx_map .., erase_slots h inRange short ok⟩
  | clear => exact ⟨_, _, rfl, rfl, clear_slots h ok⟩

/-- An empty column that was just created, or one whose slots refer to nodes of their own. -/
inductive Start (s : Store) (c : LinkListColumn) : List (List Nat) → Prop where
  | created {s₀ : Store} {maxNodeSize : Nat} (sound : s₀.Sound) (room : 2 ≤ maxNodeSize)
      (max : maxNodeSize < 2 ^ 24 - 2) (run : create maxNodeSize s₀ = (.ok c, s)) : Start s c []
  | held {vs : List Int64} {words : List (List Int64)} {R : Assertion}
      (h : s.Holds (c.slots vs words * R)) (unshared : Unshared vs) : Start s c (targets words)

theorem Start.slots (start : Start s c lists) : ∃ vs words R, targets words = lists ∧
    Unshared vs ∧ s.Holds (c.slots vs words * R) := by
  cases start with
  | created sound room max run =>
      exact ⟨[], [], 1, rfl, List.Pairwise.nil,
        create_slots (Store.holds_one sound) (Nat.lt_of_succ_lt room) max run⟩
  | held h unshared => exact ⟨_, _, _, rfl, unshared, h⟩

theorem run_slots (h : s.Holds (c.slots vs words * R)) (unshared : Unshared vs)
    (small : words.length + ops.length < Slot.countBound) (inRange : InRange ops (targets words))
    (ok : run ops (c, s) = (.ok (), (c', s'))) :
    ∃ vs' words', Unshared vs' ∧ onLists ops (targets words) = targets words' ∧
      words'.length ≤ words.length + ops.length ∧ s'.Holds (c'.slots vs' words' * R) := by
  induction ops generalizing c s vs words with
  | nil =>
      obtain ⟨-, same⟩ := Edit.pure_ok.mp ok
      cases same
      exact ⟨vs, words, unshared, rfl, Nat.le_refl _, h⟩
  | cons op ops ih =>
      rw [List.length_cons] at small ⊢
      obtain ⟨_, ⟨c₁, s₁⟩, first, rest⟩ := Edit.bind_ok.mp ok
      obtain ⟨valid, inRange⟩ := inRange
      obtain ⟨vs₁, words₁, moves, lists, h⟩ := op.run_slots h (by omega) valid first
      have longer := op.length_onLists (targets words)
      rw [lists] at inRange
      rw [lists, Link.length_targets, Link.length_targets] at longer
      obtain ⟨vs', words', unshared, rest, few, h⟩ :=
        ih h (moves.unshared unshared) (by omega) inRange rest
      refine ⟨vs', words', unshared, ?_, by omega, h⟩
      rw [← rest, ← lists]
      rfl

/-! ### What is read -/

/-- What is read of the rows is what these lists say. -/
structure Shows (m : Memory) (c : LinkListColumn) (lists : List (List Nat)) : Prop where
  size : c.size m = lists.length
  get : ∀ row (inside : row < lists.length), c.get m row = lists[row]
  count : ∀ row (inside : row < lists.length), c.count m row = lists[row].length
  contains : ∀ row (inside : row < lists.length), ∀ target < UInt64.size,
    (c.contains m row target = true ↔ target ∈ lists[row])

/-- A row has a node unless its list is empty, and no other row has that node, or one whose block
overlaps with it. -/
structure Owned (s : Store) (c : LinkListColumn) (lists : List (List Nat)) : Prop where
  empty : ∀ row (inside : row < lists.length), c.list? s.memory row = none ↔ lists[row] = []
  live : ∀ row < lists.length, ∀ n, c.list? s.memory row = some n → n.Live s
  apart : ∀ row row' n n', row' < row → row < lists.length → c.list? s.memory row = some n →
    c.list? s.memory row' = some n' →
      n.ref ≠ n'.ref ∧ Disjoint (n.region s.baseline) (n'.region s.baseline)

/-- No row has its list in the node at `r`. -/
def Forgets (m : Memory) (c : LinkListColumn) (r : Ref) : Prop :=
  ∀ row < c.size m, ∀ n, c.list? m row = some n → n.ref ≠ r

/-- A row has an empty list, or the node that its slot refers to has the list. -/
theorem row_of_slots (h : s.Holds (c.slots vs words * R)) (inside : row < words.length)
    (small : words.length < Slot.countBound) :
    c.list? s.memory row = none ∧ words[row] = [] ∨
      ∃ n : Node, c.list? s.memory row = some n ∧ vs[row]? = some (Slot.ofRef n.ref) ∧
        words[row] ≠ [] ∧ Node.Packed s n words[row] := by
  obtain ⟨v, here, slot, h⟩ := opened h inside small
  rcases list?_cases h slot with ⟨absent, -, empty, -⟩ | ⟨n, found, rfl, some, h⟩
  · exact .inl ⟨absent, empty⟩
  · exact .inr ⟨n, found, here, some, Node.packed_of_holds h⟩

theorem slot_of_list? {n : Node} (h : s.Holds (c.slots vs words * R)) (inside : row < words.length)
    (small : words.length < Slot.countBound) (found : c.list? s.memory row = some n) :
    vs[row]? = some (Slot.ofRef n.ref) ∧ n.Live s := by
  rcases row_of_slots h inside small with ⟨absent, -⟩ | ⟨n', there, here, -, packed⟩
  · rw [absent] at found
    cases found
  · obtain rfl := Option.some.inj (found.symm.trans there)
    exact ⟨here, packed.live⟩

theorem region_apart {row' : Nat} {n n' : Node} (h : s.Holds (c.slots vs words * R))
    (small : words.length < Slot.countBound) (less : row' < row) (inside : row < words.length)
    (found : c.list? s.memory row = some n) (found' : c.list? s.memory row' = some n') :
    Disjoint (n.region s.baseline) (n'.region s.baseline) := by
  obtain ⟨⟨-, same⟩, h⟩ := slots_mul.mp h
  obtain ⟨_, tree⟩ := h.reads
  have within := Nat.lt_trans less inside
  have left : row' < (words.eraseIdx row).length := by
    rw [List.length_eraseIdx_of_lt inside]
    omega
  have length : (vs.eraseIdx row).length = (words.eraseIdx row).length := by
    rw [List.length_eraseIdx_of_lt inside, List.length_eraseIdx_of_lt (same ▸ inside), same]
  -- The row that comes later is taken out first, which leaves the other one where it is.
  have h := h.right
  rw [listsAt_eraseIdx (same ▸ inside) inside same, listsAt_eraseIdx (length ▸ left) left length,
    List.getElem_eraseIdx_of_lt _ less, List.getElem_eraseIdx_of_lt _ less, mul_assoc] at h
  rcases list?_cases h (Tree.get_of_holds tree (same ▸ small) (same ▸ inside)) with
    ⟨absent, -⟩ | ⟨k, there, -, -, h⟩
  · rw [absent] at found
    cases found
  obtain rfl := Option.some.inj (found.symm.trans there)
  rw [mul_assoc, mul_left_comm] at h
  rcases list?_cases h (Tree.get_of_holds tree (same ▸ small) (same ▸ within)) with
    ⟨absent, -⟩ | ⟨k', there', -, -, h⟩
  · rw [absent] at found'
    cases found'
  obtain rfl := Option.some.inj (found'.symm.trans there')
  rw [mul_left_comm] at h
  exact Node.region_apart h

theorem shows_of_slots (h : s.Holds (c.slots vs words * R))
    (small : words.length < Slot.countBound) : Shows s.memory c (targets words) := by
  have held := holds_mul.mpr ⟨vs, h⟩
  refine ⟨by rw [size_of_holds held small, Link.length_targets], fun row inside => ?_,
    fun row inside => ?_, fun row inside target bound => ?_⟩ <;>
    rw [Link.length_targets] at inside <;> rw [Link.getElem_targets inside]
  · exact get_of_holds held inside small
  · rw [List.length_map, count]
    rcases row_of_slots h inside small with ⟨absent, empty⟩ | ⟨n, found, -, -, packed⟩
    · rw [absent, empty]
      rfl
    · rw [found, packed.length]
  · rw [Link.mem_map_ofWord bound, contains]
    rcases row_of_slots h inside small with ⟨absent, empty⟩ | ⟨n, found, -, -, packed⟩
    · rw [absent, empty]
      exact iff_of_false Bool.false_ne_true List.not_mem_nil
    · rw [found]
      exact packed.findFirst_isSome

theorem owned_of_slots (h : s.Holds (c.slots vs words * R)) (unshared : Unshared vs)
    (small : words.length < Slot.countBound) : Owned s c (targets words) := by
  refine ⟨fun row inside => ?_, fun row inside n found => ?_,
    fun row row' n n' less inside found found' => ⟨fun same => ?_, ?_⟩⟩ <;>
    rw [Link.length_targets] at inside
  · rw [Link.getElem_targets inside, List.map_eq_nil_iff]
    rcases row_of_slots h inside small with ⟨absent, empty⟩ | ⟨n, found, -, some, -⟩
    · exact iff_of_true absent empty
    · exact iff_of_false (by rw [found]; exact Option.some_ne_none n) some
  · exact (slot_of_list? h inside small found).2
  · have within := Nat.lt_trans less inside
    obtain ⟨here, live⟩ := slot_of_list? h inside small found
    obtain ⟨there, -⟩ := slot_of_list? h within small found'
    have some := Slot.ofNat_ne_zero live.stored.positive live.stored.bound
    refine unshared.apart here some ?_
    rw [← List.getElem?_eraseIdx_of_lt less, ← same] at there
    exact List.mem_of_getElem? there
  · exact region_apart h small less inside found found'

/-- After any run of operations that succeeds, the column shows the lists that they make, in nodes
that no two rows share. A list that the next operation drops leaves a node that no row has. -/
theorem run_shows_lists_apart (start : Start s c lists)
    (few : lists.length + ops.length + 1 < Slot.countBound) (inRange : InRange ops lists)
    (ok : run ops (c, s) = (.ok (), (c', s'))) :
    Shows s'.memory c' (onLists ops lists) ∧ Owned s' c' (onLists ops lists) ∧
      ∀ (op : Op) (c'' : LinkListColumn) (s'' : Store), op.InRange (onLists ops lists) →
        op.run (c', s') = (.ok (), (c'', s'')) →
          ∀ row < (onLists ops lists).length, op.Drops (onLists ops lists) row →
            ∀ n, c'.list? s'.memory row = some n → Forgets s''.memory c'' n.ref := by
  obtain ⟨vs, words, R, rfl, unshared, h⟩ := start.slots
  rw [Link.length_targets] at few
  obtain ⟨vs', words', unshared, shown, length, h⟩ :=
    run_slots h unshared (Nat.lt_of_succ_lt few) inRange ok
  have small : words'.length < Slot.countBound := by omega
  rw [shown]
  refine ⟨shows_of_slots h small, owned_of_slots h unshared small, ?_⟩
  intro op c'' s'' valid next row inside drops n found
  rw [Link.length_targets] at inside
  obtain ⟨here, live⟩ := slot_of_list? h inside small found
  obtain ⟨vs'', words'', moves, lists, h''⟩ := op.run_slots h (by omega) valid next
  have longer := op.length_onLists (targets words')
  rw [lists, Link.length_targets, Link.length_targets] at longer
  have small'' : words''.length < Slot.countBound := by omega
  intro row'' inside'' k found'' same
  rw [(shows_of_slots h'' small'').size, Link.length_targets] at inside''
  obtain ⟨there, -⟩ := slot_of_list? h'' inside'' small'' found''
  refine moves.dropped drops unshared here ?_ (same ▸ List.mem_of_getElem? there)
  exact Slot.ofNat_ne_zero live.stored.positive live.stored.bound

/-- The second list loses its only entry. -/
def emptyingOps : List Op :=
  [.insert none, .insert (some 0), .addLink 0 9, .addLink 1 7,
    .addLink 0 18446744073709551615, .removeLink 1 0]

theorem run_shows_lists_apart_emptying :
    ∃ (c c' c'' : LinkListColumn) (s s' s'' : Store) (n : Node),
      Start s c [] ∧ run emptyingOps (c, s) = (.ok (), (c', s')) ∧
      Shows s'.memory c' [[9, 18446744073709551615], []] ∧
      Owned s' c' [[9, 18446744073709551615], []] ∧ c'.list? s'.memory 0 = some n ∧
      clear (c', s') = (.ok (), (c'', s'')) ∧ Forgets s''.memory c'' n.ref := by
  have succeeds : ((do Edit.on (← create 2) (run emptyingOps *> clear) :
      StoreM (Unit × LinkListColumn)) (.empty {})).1.isOk = true := by decide +kernel
  cases result : (do Edit.on (← create 2) (run emptyingOps *> clear) :
      StoreM (Unit × LinkListColumn)) (.empty {}) with
  | mk r s'' =>
      cases r with
      | error e =>
          rw [result] at succeeds
          cases succeeds
      | ok x =>
          obtain ⟨c, s, created, ran⟩ := StoreM.bind_ok.mp result
          obtain ⟨_, ⟨c', s'⟩, ok, cleared⟩ := Edit.bind_ok.mp (Edit.on_ok.mp ran)
          have start : Start s c [] :=
            .created (Store.sound_empty {}) (by decide) (by decide) created
          have few : ([] : List (List Nat)).length + emptyingOps.length + 1 < Slot.countBound := by
            decide
          have inRange : InRange emptyingOps [] := by decide
          obtain ⟨shows, owned, forgets⟩ := run_shows_lists_apart start few inRange ok
          cases found : c'.list? s'.memory 0 with
          | none => cases (owned.empty 0 (by decide)).mp found
          | some n =>
              exact ⟨c, c', x.2, s, s', s'', n, start, ok, shows, owned, found, cleared,
                forgets .clear x.2 s'' trivial cleared 0 (by decide) trivial n found⟩

end LinkListColumn

end ColumnStore
