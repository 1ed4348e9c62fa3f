import ColumnStore.Column.Link
import ColumnStore.Proofs.Growing

set_option autoImplicit false

/-!
Columns of links as assertions. A list of links is a node of its own that a slot of the tree refers
to, so that a slot has to be emptied before its row goes.
-/
namespace ColumnStore

open Assertion (above fact any either)

namespace Node

variable {s s' : Store} {n : Node} {vs : List Int64} {role : Role} {R : Assertion}

/-- A new node is above the image, and stays there when it grows. -/
theorem ofValues_holds (h : s.Holds R) (small : vs.length < 2 ^ 24)
    (run : ofValues role vs s = (.ok n, s')) :
    s'.baseline ≤ n.ref ∧ s'.Holds (packed role n vs * R) := by
  obtain ⟨n₀, s₁, created, run⟩ := StoreM.bind_ok.mp run
  obtain ⟨⟨_, n₁⟩, s₂, added, run⟩ := StoreM.bind_ok.mp run
  obtain ⟨rfl, rfl⟩ := StoreM.pure_ok.mp run
  have fresh : s₁.Holds ((above n₀.ref * packed role n₀ []) * R) := by
    rw [mul_assoc, Store.holds_above_mul]
    exact ⟨(createPacked_ok h.sound created).2.1, createPacked_holds h created⟩
  have grown := Edit.forM_holds (A := fun n vs => above n.ref * packed role n vs) ?_ fresh
    (by simpa using small) (Edit.on_ok.mp added)
  · rwa [mul_assoc, Store.holds_above_mul] at grown
  · intro n n' s s' R vs v h small run
    rw [mul_assoc, Store.holds_above_mul] at h ⊢
    exact ⟨add_mutable (packed_of_holds h.2) run, add_holds h.2 small run⟩

end Node

namespace RefLeaf

variable {l l' : RefLeaf} {s s' : Store} {e : Edit Node Unit}

theorem edit_ok (run : edit e (l, s) = (.ok (), (l', s'))) :
    e (l.node, s) = (.ok (), (l'.node, s')) := by
  obtain ⟨n, edited, rfl⟩ := Edit.focus_ok.mp run
  exact edited

theorem childRefs_loose {vs : List Int64} (loose : ∀ v ∈ vs, Slot.isRef v = false) :
    Node.childRefs vs = [] := by
  have none : vs.filter Slot.isRef = [] := List.filter_eq_nil_iff.mpr fun v inside => by
    rw [loose v inside]
    decide
  rw [Node.childRefs, none, List.map_nil]

/-- Without refs there is nothing to be freed but the leaf. -/
theorem destroy_holds {vs : List Int64} {R : Assertion}
    (h : s.Holds (Node.packed .refs l.node vs * R)) (loose : ∀ v ∈ vs, Slot.isRef v = false)
    (run : l.node.destroyDeep s = (.ok (), s')) : s'.Holds R := by
  have none (k : Ref × Assertion) (inside : k ∈ []) : Node.Owning k.2 k.1 := nomatch inside
  have owning : Node.Owning (Node.packed .refs l.node vs * 1) l.node.ref :=
    Node.owning_packed none fun _ => childRefs_loose loose
  exact Node.destroyDeep_holds owning (Node.packed_of_holds h).live.stored.load
    (h.of_eq (by simp)) run

instance : EditableLeaf RefLeaf where
  Loose v := Slot.isRef v = false
  create h run := by
    obtain ⟨n, created, rfl⟩ := StoreM.map_ok.mp run
    exact Node.createPacked_holds h created
  set h inside run := Node.set_holds h inside (edit_ok run)
  insert h inside small run := Node.insert_holds h inside small (edit_ok run)
  erase h inside run := Node.erase_holds h inside (edit_ok run)
  truncate h inside run := Node.truncate_holds h inside (edit_ok run)
  destroy := destroy_holds

end RefLeaf

theorem LinkColumn.editValues_ok {c c' : LinkColumn} {s s' : Store} {e : Edit IntColumn Unit}
    (run : editValues e (c, s) = (.ok (), (c', s'))) :
    e (c.values, s) = (.ok (), (c'.values, s')) := by
  obtain ⟨t, edited, rfl⟩ := Edit.focus_ok.mp run
  exact edited

/-! ### Lists of links -/

namespace LinkListColumn

/-- The words of a list behind a slot; nothing is behind a slot without a ref. -/
def listAt (v : Int64) (words : List Int64) : Assertion :=
  either (fact (v = 0 ∧ words = []))
    (any fun n : Node => fact (v = Slot.ofRef n.ref ∧ words ≠ []) * Node.packed .plain n words)

def listsAt (vs : List Int64) (lists : List (List Int64)) : Assertion :=
  (List.zipWith listAt vs lists).prod

variable {c c' : LinkListColumn} {s s' : Store} {vs : List Int64} {lists : List (List Int64)}
  {words : List Int64} {v : Int64} {R : Assertion} {m : Memory} {base : Nat} {own : Set Nat}
  {row : Nat}

theorem listAt_none : listAt 0 [] * R = R := by
  apply Assertion.ext_holds
  intro m base own
  have none : (any fun n : Node => fact ((0 : Int64) = Slot.ofRef n.ref ∧ ([] : List Int64) ≠ []) *
      Node.packed .plain n []).holds m base own → False := by
    rintro ⟨n, h⟩
    exact (Assertion.fact_mul.mp h).1.2 rfl
  rw [listAt, Assertion.either_mul]
  constructor
  · rintro (h | ⟨_, _, -, -, ⟨n, h⟩, -⟩)
    · exact (Assertion.fact_mul.mp h).2
    · exact absurd rfl (Assertion.fact_mul.mp h).1.2
  · exact fun h => .inl (Assertion.fact_mul.mpr ⟨⟨rfl, rfl⟩, h⟩)

theorem listsAt_insertIdx (inside : row ≤ vs.length) (same : vs.length = lists.length) :
    listsAt (vs.insertIdx row v) (lists.insertIdx row words) =
      listAt v words * listsAt vs lists := by
  induction row generalizing vs lists with
  | zero => simp [listsAt]
  | succ row ih =>
      cases vs with
      | nil => cases inside
      | cons v' vs =>
          cases lists with
          | nil => cases same
          | cons l lists =>
              have rest := ih (Nat.le_of_succ_le_succ inside) (Nat.succ.inj same)
              simp only [listsAt, List.insertIdx_succ_cons, List.zipWith_cons_cons,
                List.prod_cons] at rest ⊢
              rw [rest, mul_left_comm]

/-- The list of one row stands apart from those of the others. -/
theorem listsAt_set (inside : row < vs.length) (same : vs.length = lists.length) :
    listsAt (vs.set row v) (lists.set row words) =
      listAt v words * listsAt (vs.eraseIdx row) (lists.eraseIdx row) := by
  have shorter := List.length_eraseIdx_of_lt inside
  rw [← List.insertIdx_eraseIdx_self (Nat.ne_of_lt inside),
    ← List.insertIdx_eraseIdx_self (Nat.ne_of_lt (same ▸ inside)), listsAt_insertIdx]
  · omega
  · rw [shorter, List.length_eraseIdx_of_lt (same ▸ inside), same]

theorem listsAt_eraseIdx (inside : row < vs.length) (within : row < lists.length)
    (same : vs.length = lists.length) :
    listsAt vs lists =
      listAt vs[row] lists[row] * listsAt (vs.eraseIdx row) (lists.eraseIdx row) := by
  rw [← listsAt_set inside same, List.set_getElem_self, List.set_getElem_self]

/-! ### What a slot refers to -/

/-- Some list, or nothing. -/
def behind (v : Int64) : Assertion := any (listAt v)

theorem listsAt_behind (same : vs.length = lists.length) :
    (listsAt vs lists).Entails (vs.map behind).prod := by
  induction vs generalizing lists with
  | nil =>
      rw [listsAt, List.zipWith_nil_left]
      exact .refl _
  | cons v vs ih =>
      cases lists with
      | nil => cases same
      | cons words lists =>
          rw [listsAt, List.zipWith_cons_cons, List.prod_cons, List.map_cons, List.prod_cons]
          exact .mul (fun _ _ _ h => ⟨words, h⟩) (ih (Nat.succ.inj same))

/-- Every slot with a ref has a list that owns its node. -/
theorem kids_behind (h : (vs.map behind).prod.holds m base own) :
    ∃ kids : List (Ref × Assertion), (∀ k ∈ kids, Node.Owning k.2 k.1) ∧
      Node.childRefs vs = kids.map Prod.fst ∧ (kids.map Prod.snd).prod.holds m base own := by
  induction vs generalizing own with
  | nil => exact ⟨[], List.forall_mem_nil _, rfl, h⟩
  | cons v vs ih =>
      rw [List.map_cons, List.prod_cons] at h
      obtain ⟨x, y, rfl, apart, ⟨words, first⟩, rest⟩ := h
      obtain ⟨kids, owning, refs, rest⟩ := ih rest
      rw [Node.childRefs_cons, refs]
      rcases first with ⟨rfl, rfl, -⟩ | ⟨n, first⟩
      · refine ⟨kids, owning, rfl, ?_⟩
        rwa [Set.empty_union]
      · obtain ⟨⟨rfl, -⟩, node⟩ := Assertion.fact_mul.mp first
        refine ⟨(n.ref, Node.packed .plain n words) :: kids, ?_, ?_, ?_⟩
        · exact List.forall_mem_cons.mpr ⟨Node.owning_plain n words, owning⟩
        · rw [node.2.1.isRef, if_pos rfl, Slot.toRef_ofRef node.2.1.bound]
          rfl
        · rw [List.map_cons, List.prod_cons]
          exact ⟨x, y, rfl, apart, node, rest⟩

theorem owning_lists (l : RefLeaf) (vs : List Int64) :
    Node.Owning (Node.packed .refs l.node vs * (vs.map behind).prod) l.node.ref := by
  rintro depth m base _ ⟨x, y, rfl, apart, node, lists⟩
  obtain ⟨kids, owning, refs, lists⟩ := kids_behind lists
  exact Node.owning_packed owning (fun _ => refs) depth m base _ ⟨x, y, rfl, apart, node, lists⟩

theorem refers : Tree.Refers RefLeaf behind where
  owning := owning_lists
  destroy {l vs s s' R} h run := by
    have stored := (Node.packed_of_holds h).live.stored
    exact Node.destroyDeep_holds (owning_lists l vs) stored.load (h.of_eq (mul_assoc ..).symm) run

/-! ### Columns -/

/-- The slots are `vs`, and behind them are the lists; the list of `row` is looked at apart. -/
def beside (c : LinkListColumn) (vs : List Int64) (lists : List (List Int64)) (row : Nat) :
    Assertion :=
  fact (c.lists.Fits ∧
      vs.length = lists.length ∧ row < vs.length) *
    (Tree.holds c.lists vs * listsAt (vs.eraseIdx row) (lists.eraseIdx row))

/-- The column holds these lists. -/
def holds (c : LinkListColumn) (lists : List (List Int64)) : Assertion :=
  any fun vs : List Int64 =>
    fact (c.lists.Fits ∧
      vs.length = lists.length) * (Tree.holds c.lists vs * listsAt vs lists)

/-- The column holds these lists behind these slots. -/
def slots (c : LinkListColumn) (vs : List Int64) (lists : List (List Int64)) : Assertion :=
  fact (c.lists.Fits ∧ vs.length = lists.length) * (Tree.holds c.lists vs * listsAt vs lists)

theorem slots_mul : s.Holds (c.slots vs lists * R) ↔
    (c.lists.Fits ∧ vs.length = lists.length) ∧
      s.Holds (Tree.holds c.lists vs * (listsAt vs lists * R)) := by
  simp only [slots, mul_assoc, Store.holds_fact_mul]

theorem holds_mul : s.Holds (c.holds lists * R) ↔ ∃ vs, s.Holds (c.slots vs lists * R) :=
  Store.holds_any_mul

theorem beside_mul : s.Holds (c.beside vs lists row * R) ↔
    (c.lists.Fits ∧
      vs.length = lists.length ∧ row < vs.length) ∧
      s.Holds (Tree.holds c.lists vs * (listsAt (vs.eraseIdx row) (lists.eraseIdx row) * R)) := by
  simp only [beside, mul_assoc, Store.holds_fact_mul]

theorem closed (h : s.Holds (listAt v words * (c.beside vs lists row * R)))
    (here : vs[row]? = some v) : s.Holds (c.slots vs (lists.set row words) * R) := by
  rw [mul_left_comm] at h
  obtain ⟨⟨fits, same, inside⟩, h⟩ := beside_mul.mp h
  have known : vs.set row v = vs := by
    rw [List.getElem?_eq_getElem inside] at here
    rw [← Option.some.inj here, List.set_getElem_self]
  have whole : listsAt vs (lists.set row words) =
      listAt v words * listsAt (vs.eraseIdx row) (lists.eraseIdx row) := by
    rw [← listsAt_set inside same, known]
  refine slots_mul.mpr ⟨⟨fits, by rw [same, List.length_set]⟩, h.of_eq ?_⟩
  rw [whole]
  ac_rfl

theorem opened (h : s.Holds (c.slots vs lists * R)) (inside : row < lists.length)
    (small : lists.length < Slot.countBound) :
    ∃ v, vs[row]? = some v ∧ c.lists.get s.memory row = v ∧
      s.Holds (listAt v lists[row] * (c.beside vs lists row * R)) := by
  obtain ⟨⟨fits, same⟩, h⟩ := slots_mul.mp h
  obtain ⟨_, here⟩ := h.reads
  have within : row < vs.length := same ▸ inside
  refine ⟨vs[row], List.getElem?_eq_getElem within, ?_, ?_⟩
  · exact Tree.get_of_holds here (same ▸ small) within
  · rw [mul_left_comm]
    refine beside_mul.mpr ⟨⟨fits, same, within⟩, h.of_eq ?_⟩
    rw [listsAt_eraseIdx within (same ▸ within) same]
    ac_rfl

/-- A row has no list, or one in a node that its slot refers to. -/
theorem list?_cases (h : s.Holds (listAt v words * R)) (here : c.lists.get s.memory row = v) :
    (c.list? s.memory row = none ∧ v = 0 ∧ words = [] ∧ s.Holds R) ∨
      ∃ n : Node, c.list? s.memory row = some n ∧ v = Slot.ofRef n.ref ∧ words ≠ [] ∧
        s.Holds (Node.packed .plain n words * R) := by
  rw [listAt, Store.holds_either_mul] at h
  rcases h with none | list
  · obtain ⟨⟨rfl, rfl⟩, h⟩ := Store.holds_fact_mul.mp none
    refine .inl ⟨?_, rfl, rfl, h⟩
    rw [list?, here, if_pos rfl]
  · obtain ⟨n, list⟩ := Store.holds_any_mul.mp list
    rw [mul_assoc, Store.holds_fact_mul] at list
    obtain ⟨⟨rfl, some⟩, h⟩ := list
    have stored := (Node.packed_of_holds h).live.stored
    have ref : Slot.ofRef n.ref ≠ 0 := Slot.ofNat_ne_zero stored.positive stored.bound
    refine .inr ⟨n, ?_, rfl, some, h⟩
    rw [list?, here, if_neg ref, Slot.toRef_ofRef stored.bound, stored.load]

theorem listAt_node {n : Node} (h : s.Holds (Node.packed .plain n words * R)) (some : words ≠ []) :
    s.Holds (listAt (Slot.ofRef n.ref) words * R) := by
  refine Store.holds_either_mul.mpr (.inr (Store.holds_any_mul.mpr ⟨n, ?_⟩))
  rw [mul_assoc]
  exact Store.holds_fact_mul.mpr ⟨⟨rfl, some⟩, h⟩

theorem editLists_ok {e : Edit (Tree RefLeaf) Unit}
    (run : editLists e (c, s) = (.ok (), (c', s'))) :
    e (c.lists, s) = (.ok (), (c'.lists, s')) := by
  obtain ⟨t, edited, rfl⟩ := Edit.focus_ok.mp run
  exact edited

theorem setList_holds {r : Ref} (h : s.Holds (c.beside vs lists row * R))
    (small : lists.length < Slot.countBound) (run : setList row r (c, s) = (.ok (), (c', s'))) :
    s'.Holds (c'.beside (vs.set row (Slot.ofRef r)) lists row * R) := by
  obtain ⟨⟨fits, same, inside⟩, h⟩ := beside_mul.mp h
  obtain ⟨kept, h⟩ := Tree.set_holds h inside (same ▸ small) (editLists_ok run)
  rw [beside_mul, List.length_set, List.eraseIdx_set_eq]
  exact ⟨⟨by rwa [Tree.Fits, kept], same, inside⟩, h⟩

/-! ### Slots that change -/

/-- The slot of a row changes, to one that no other row has unless it is empty. -/
def Replaced (row : Nat) (vs vs' : List Int64) : Prop :=
  ∃ v, vs' = vs.set row v ∧ (v ≠ 0 → v ∉ vs.eraseIdx row)

theorem replaced_empty (row : Nat) (vs : List Int64) : Replaced row vs (vs.set row 0) :=
  ⟨0, rfl, fun some => absurd rfl some⟩

/-- A node above the image that is held apart from the lists is none of their nodes. -/
theorem ofRef_notMem {n : Node} {role : Node.Role} {ws : List Int64}
    (h : s.Holds (Node.packed role n ws * (listsAt vs lists * R)))
    (same : vs.length = lists.length) (mutable : s.baseline ≤ n.ref) : Slot.ofRef n.ref ∉ vs := by
  intro inside
  obtain ⟨i, within, here⟩ := List.getElem_of_mem inside
  have stored := (Node.packed_of_holds h).live.stored
  rw [listsAt_eraseIdx within (same ▸ within) same, here, mul_assoc, mul_left_comm, listAt,
    Store.holds_either_mul] at h
  rcases h with none | list
  · exact Slot.ofNat_ne_zero stored.positive stored.bound (Store.holds_fact_mul.mp none).1.1
  · obtain ⟨k, list⟩ := Store.holds_any_mul.mp list
    rw [mul_assoc, Store.holds_fact_mul] at list
    obtain ⟨⟨slot, -⟩, h⟩ := list
    have bound := (Node.packed_of_holds h).live.stored.bound
    have refs : n.ref = k.ref := by
      rw [← Slot.toRef_ofRef stored.bound, slot, Slot.toRef_ofRef bound]
    rw [mul_left_comm] at h
    exact Node.ref_ne_of_holds h mutable refs

theorem fresh_slot {n : Node}
    (h : s.Holds (Node.packed .plain n words * (c.beside vs lists row * R)))
    (mutable : s.baseline ≤ n.ref) : Slot.ofRef n.ref ∉ vs.eraseIdx row := by
  rw [mul_left_comm] at h
  obtain ⟨⟨-, same, inside⟩, h⟩ := beside_mul.mp h
  have h := h.right
  rw [mul_left_comm] at h
  refine ofRef_notMem h ?_ mutable
  rw [List.length_eraseIdx_of_lt inside, List.length_eraseIdx_of_lt (same ▸ inside), same]

/-- The node of a list is stored in the slot of its row. -/
theorem stored_list {n : Node}
    (h : s.Holds (Node.packed .plain n words * (c.beside vs lists row * R)))
    (some : words ≠ []) (small : lists.length < Slot.countBound)
    (run : setList row n.ref (c, s) = (.ok (), (c', s'))) :
    s'.Holds (c'.slots (vs.set row (Slot.ofRef n.ref)) (lists.set row words) * R) := by
  rw [mul_left_comm] at h
  obtain ⟨⟨-, -, inside⟩, -⟩ := beside_mul.mp h
  have h := setList_holds h small run
  rw [mul_left_comm] at h
  exact closed (listAt_node h some) (List.getElem?_set_self inside)

/-- A node that moved is stored again. -/
theorem editList_slots {n : Node} {e : Edit Node Unit} {words' : List Int64}
    (h : s.Holds (Node.packed .plain n words * (c.beside vs lists row * R)))
    (here : vs[row]? = some (Slot.ofRef n.ref)) (small : lists.length < Slot.countBound)
    (edits : ∀ {n' s' R}, s.Holds (Node.packed .plain n words * R) →
      e (n, s) = (.ok (), (n', s')) →
        s'.baseline ≤ n'.ref ∧ s'.Holds (Node.packed .plain n' words' * R))
    (some : words' ≠ []) (run : editList row n e (c, s) = (.ok (), (c', s'))) :
    ∃ vs', Replaced row vs vs' ∧ s'.Holds (c'.slots vs' (lists.set row words') * R) := by
  obtain ⟨inside, known⟩ := List.getElem?_eq_some_iff.mp here
  obtain ⟨⟨_, n'⟩, s₁, edited, run⟩ := Edit.lift_bind_ok.mp run
  obtain ⟨mutable, h⟩ := edits h (Edit.on_ok.mp edited)
  refine ⟨vs.set row (Slot.ofRef n'.ref), ⟨_, rfl, fun _ => fresh_slot h mutable⟩, ?_⟩
  simp only at run
  split at run
  next moved => exact stored_list h some small run
  next same =>
    obtain ⟨-, kept⟩ := Edit.pure_ok.mp run
    cases kept
    rw [not_not.mp same, ← known, List.set_getElem_self]
    rw [← not_not.mp same] at here
    exact closed (listAt_node h some) here

theorem addLink_slots {target : Nat} (h : s.Holds (c.slots vs lists * R))
    (inside : row < lists.length) (small : lists.length < Slot.countBound)
    (short : lists[row].length + 1 < 2 ^ 24)
    (run : addLink row target (c, s) = (.ok (), (c', s'))) :
    ∃ vs', Replaced row vs vs' ∧
      s'.Holds (c'.slots vs' (lists.set row (lists[row] ++ [Link.toWord target])) * R) := by
  obtain ⟨v, here, slot, h⟩ := opened h inside small
  rw [addLink, Edit.self_bind, Edit.read_bind] at run
  rcases list?_cases h slot with ⟨absent, rfl, empty, h⟩ | ⟨n, found, rfl, -, h⟩
  · rw [absent] at run
    obtain ⟨n, s₁, made, run⟩ := Edit.lift_bind_ok.mp run
    obtain ⟨mutable, h⟩ :=
      Node.ofValues_holds h (Nat.lt_of_le_of_lt (Nat.le_add_left ..) short) made
    rw [empty, List.nil_append]
    exact ⟨_, ⟨_, rfl, fun _ => fresh_slot h mutable⟩,
      stored_list h (List.cons_ne_nil _ _) small run⟩
  · rw [found] at run
    refine editList_slots h here small (fun h added => ⟨?_, Node.add_holds h short added⟩)
      (by simp) run
    exact Node.add_mutable (Node.packed_of_holds h) added

theorem addLink_holds {target : Nat} (h : s.Holds (c.holds lists * R)) (inside : row < lists.length)
    (small : lists.length < Slot.countBound) (short : lists[row].length + 1 < 2 ^ 24)
    (run : addLink row target (c, s) = (.ok (), (c', s'))) :
    s'.Holds (c'.holds (lists.set row (lists[row] ++ [Link.toWord target])) * R) := by
  obtain ⟨vs, h⟩ := holds_mul.mp h
  obtain ⟨vs', -, h⟩ := addLink_slots h inside small short run
  exact holds_mul.mpr ⟨vs', h⟩

theorem dropList_holds {n : Node}
    (h : s.Holds (Node.packed .plain n words * (c.beside vs lists row * R)))
    (small : lists.length < Slot.countBound) (run : dropList row n (c, s) = (.ok (), (c', s'))) :
    s'.Holds (c'.beside (vs.set row 0) lists row * R) := by
  obtain ⟨_, s₁, freed, run⟩ := Edit.lift_bind_ok.mp run
  have h := Node.destroy_holds (h.imp_left Node.packed_entails)
  cases freed
  exact setList_holds h small run

/-- The last entry of a list takes the node with it. -/
theorem removeLink_slots {i : Nat} (h : s.Holds (c.slots vs lists * R))
    (inside : row < lists.length) (small : lists.length < Slot.countBound)
    (entry : i < lists[row].length) (run : removeLink row i (c, s) = (.ok (), (c', s'))) :
    ∃ vs', Replaced row vs vs' ∧ (lists[row].length = 1 → vs' = vs.set row 0) ∧
      s'.Holds (c'.slots vs' (lists.set row (lists[row].eraseIdx i)) * R) := by
  obtain ⟨v, here, slot, h⟩ := opened h inside small
  obtain ⟨within, -⟩ := List.getElem?_eq_some_iff.mp here
  rw [removeLink, Edit.self_bind, Edit.read_bind] at run
  rcases list?_cases h slot with ⟨-, -, empty, -⟩ | ⟨n, found, rfl, -, h⟩
  · rw [empty] at entry
    cases entry
  · have size := (Node.packed_of_holds h).length
    rw [found] at run
    simp only [← size] at run
    split at run
    next last =>
      have h := dropList_holds h small run
      have none : lists[row].eraseIdx i = [] := by
        rw [← List.length_eq_zero_iff, List.length_eraseIdx_of_lt entry, last]
      rw [← listAt_none (R := c'.beside (vs.set row 0) lists row * R)] at h
      rw [none]
      exact ⟨_, replaced_empty row vs, fun _ => rfl, closed h (List.getElem?_set_self within)⟩
    next more =>
      have some : lists[row].eraseIdx i ≠ [] := by
        rw [← List.length_pos_iff, List.length_eraseIdx_of_lt entry]
        omega
      obtain ⟨vs', replaced, h⟩ := editList_slots h here small
        (fun h erased => ⟨Node.erase_mutable (Node.packed_of_holds h) entry erased,
          Node.erase_holds h entry erased⟩) some run
      exact ⟨vs', replaced, fun last => absurd last more, h⟩

theorem eraseSlot_slots (h : s.Holds (c.beside vs lists row * R)) (here : vs[row]? = some 0)
    (small : lists.length < Slot.countBound)
    (run : editLists (Tree.erase (some row)) (c, s) = (.ok (), (c', s'))) :
    s'.Holds (c'.slots (vs.eraseIdx row) (lists.eraseIdx row) * R) := by
  obtain ⟨⟨fits, same, inside⟩, h⟩ := beside_mul.mp h
  have loose : Tree.LooseAt RefLeaf vs row := by
    intro v there
    rw [here] at there
    cases there
    rfl
  obtain ⟨kept, h⟩ :=
    Tree.eraseLoose_holds (i := some row) h inside (same ▸ small) loose (editLists_ok run)
  refine slots_mul.mpr ⟨⟨by rwa [Tree.Fits, kept], ?_⟩, h⟩
  rw [List.length_eraseIdx_of_lt inside, List.length_eraseIdx_of_lt (same ▸ inside), same]

theorem erase_slots (h : s.Holds (c.slots vs lists * R)) (inside : row < lists.length)
    (small : lists.length < Slot.countBound) (run : erase row (c, s) = (.ok (), (c', s'))) :
    s'.Holds (c'.slots (vs.eraseIdx row) (lists.eraseIdx row) * R) := by
  obtain ⟨v, here, slot, h⟩ := opened h inside small
  obtain ⟨within, -⟩ := List.getElem?_eq_some_iff.mp here
  rw [erase, Edit.self_bind, Edit.read_bind] at run
  rcases list?_cases h slot with ⟨absent, rfl, -, h⟩ | ⟨n, found, rfl, -, h⟩
  · rw [absent] at run
    exact eraseSlot_slots h here small run
  · rw [found] at run
    obtain ⟨_, ⟨c₁, s₁⟩, dropped, run⟩ := Edit.bind_ok.mp run
    have h := dropList_holds h small dropped
    have h := eraseSlot_slots h (List.getElem?_set_self within) small run
    rwa [List.eraseIdx_set_eq] at h

theorem erase_holds (h : s.Holds (c.holds lists * R)) (inside : row < lists.length)
    (small : lists.length < Slot.countBound) (run : erase row (c, s) = (.ok (), (c', s'))) :
    s'.Holds (c'.holds (lists.eraseIdx row) * R) := by
  obtain ⟨vs, h⟩ := holds_mul.mp h
  exact holds_mul.mpr ⟨_, erase_slots h inside small run⟩

theorem insert_slots {place : Option Nat} (h : s.Holds (c.slots vs lists * R))
    (inside : place.getD lists.length ≤ lists.length) (small : lists.length + 1 < Slot.countBound)
    (run : insert place (c, s) = (.ok (), (c', s'))) :
    s'.Holds (c'.slots (vs.insertIdx (place.getD lists.length) 0)
      (lists.insertIdx (place.getD lists.length) []) * R) := by
  obtain ⟨⟨fits, same⟩, h⟩ := slots_mul.mp h
  obtain ⟨kept, h⟩ := Tree.insert_holds h (same ▸ inside) (same ▸ small) fits.1 fits.2
    (editLists_ok run)
  rw [same] at h
  refine slots_mul.mpr ⟨⟨by rwa [Tree.Fits, kept], ?_⟩, h.of_eq ?_⟩
  · rw [List.length_insertIdx_of_le_length (same ▸ inside),
      List.length_insertIdx_of_le_length inside, same]
  · rw [listsAt_insertIdx (same ▸ inside) same, mul_assoc, listAt_none]

theorem insert_holds (h : s.Holds (c.holds lists * R)) (inside : row ≤ lists.length)
    (small : lists.length + 1 < Slot.countBound)
    (run : insert (some row) (c, s) = (.ok (), (c', s'))) :
    s'.Holds (c'.holds (lists.insertIdx row []) * R) := by
  obtain ⟨vs, h⟩ := holds_mul.mp h
  have inside : (some row).getD lists.length ≤ lists.length := inside
  exact holds_mul.mpr ⟨_, insert_slots h inside small run⟩

theorem clear_slots (h : s.Holds (c.slots vs lists * R)) (run : clear (c, s) = (.ok (), (c', s'))) :
    s'.Holds (c'.slots [] [] * R) := by
  obtain ⟨⟨fits, same⟩, h⟩ := slots_mul.mp h
  have h : s.Holds (Tree.holds c.lists vs * ((vs.map behind).prod * R)) :=
    h.mono (.mul (.refl _) (.mul (listsAt_behind same) (.refl _)))
  obtain ⟨kept, h⟩ := Tree.clearAll_holds refers h (editLists_ok run)
  refine slots_mul.mpr ⟨⟨by rwa [Tree.Fits, kept], rfl⟩, ?_⟩
  rwa [listsAt, List.zipWith_nil_left, List.prod_nil, one_mul]

theorem clear_holds (h : s.Holds (c.holds lists * R)) (run : clear (c, s) = (.ok (), (c', s'))) :
    s'.Holds (c'.holds [] * R) := by
  obtain ⟨vs, h⟩ := holds_mul.mp h
  exact holds_mul.mpr ⟨[], clear_slots h run⟩

theorem destroy_holds (h : s.Holds (c.holds lists * R))
    (run : Tree.destroy c.lists s = (.ok (), s')) : s'.Holds R := by
  obtain ⟨vs, h⟩ := holds_mul.mp h
  obtain ⟨⟨-, same⟩, h⟩ := slots_mul.mp h
  refine Tree.destroyAll_holds refers (h.mono (.mul (.refl _) ?_)) run
  exact .mul (listsAt_behind same) (.refl _)

theorem create_slots {maxNodeSize : Nat} (h : s.Holds R) (room : 0 < maxNodeSize)
    (max : maxNodeSize < 2 ^ 24 - 2) (run : create maxNodeSize s = (.ok c, s')) :
    s'.Holds (c.slots [] [] * R) := by
  obtain ⟨t, made, rfl⟩ := StoreM.map_ok.mp run
  obtain ⟨leaf, s₁, created, made⟩ := StoreM.bind_ok.mp made
  obtain ⟨rfl, rfl⟩ := StoreM.pure_ok.mp made
  have h := EditableLeaf.create h created
  refine slots_mul.mpr ⟨⟨⟨room, max⟩, rfl⟩, ?_⟩
  rwa [listsAt, List.zipWith_nil_left, List.prod_nil, one_mul]

theorem create_holds {maxNodeSize : Nat} (h : s.Holds R) (room : 0 < maxNodeSize)
    (max : maxNodeSize < 2 ^ 24 - 2) (run : create maxNodeSize s = (.ok c, s')) :
    s'.Holds (c.holds [] * R) := holds_mul.mpr ⟨[], create_slots h room max run⟩

end LinkListColumn

end ColumnStore
