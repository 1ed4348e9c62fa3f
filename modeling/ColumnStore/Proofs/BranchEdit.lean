import ColumnStore.Proofs.Branch
import ColumnStore.Tree.Erase

set_option autoImplicit false

/-!
Edits of inner nodes. A child that changed its size, split or went away leaves an inner node of the
children that are there now, in the form that the node can keep.
-/
namespace ColumnStore

namespace Branch

open Node (packed addBetween)

variable {V : Type} {s s' : Store} {n n' : Node} {o o' : Option Node} {kids : List (Ref × List V)}
  {R : Assertion}

/-! ### Slots -/

theorem insertIdx_mid {α : Type} (before after : List α) (x : α) :
    (before ++ after).insertIdx before.length x = before ++ x :: after := by
  induction before with
  | nil => simp
  | cons y before ih => simp [ih]

theorem modify_mid {α : Type} (before after : List α) (x : α) (f : α → α) :
    (before ++ x :: after).modify before.length f = before ++ f x :: after := by
  induction before with
  | nil => simp
  | cons y before ih => simp [ih]

section Slots

variable {first : Int64} {before after : List Ref} {r r' : Ref} {total : Nat}

theorem set_slots :
    (slots first (before ++ r :: after) total).set (before.length + 1) (Slot.ofRef r') =
      slots first (before ++ r' :: after) total := by
  simp [slots]

theorem insertIdx_slots :
    (slots first (before ++ r :: after) total).insertIdx (before.length + 2) (Slot.ofRef r') =
      slots first (before ++ r :: r' :: after) total := by
  have place := insertIdx_mid (first :: (before ++ [r]).map Slot.ofRef)
    (after.map Slot.ofRef ++ [Slot.tag total]) (Slot.ofRef r')
  simpa [slots] using place

theorem eraseIdx_slots :
    (slots first (before ++ r :: after) total).eraseIdx (before.length + 1) =
      slots first (before ++ after) total := by
  simp [slots, List.eraseIdx_append]

theorem modify_slots {d : Int64} {total' : Nat} (moved : Slot.tag total + d = Slot.tag total')
    (refs : List Ref) :
    (slots first refs total).modify (refs.length + 1) (· + d) = slots first refs total' := by
  have place := modify_mid (first :: refs.map Slot.ofRef) [] (Slot.tag total) (· + d)
  simpa [slots, moved] using place

theorem take_slots (total' : Nat) :
    (slots first (before ++ r :: after) total).take (before.length + 2) ++ [Slot.tag total'] =
      slots first (before ++ [r]) total' := by
  simp [slots, List.take_append]

theorem tail_slots (first : Int64) (before : List Ref) (r : Ref) (after : List Ref) (total : Nat) :
    ((slots first (before ++ r :: after) total).drop (before.length + 2)).take after.length =
      after.map Slot.ofRef := by
  have parts : slots first (before ++ r :: after) total =
      (first :: (before ++ [r]).map Slot.ofRef) ++ (after.map Slot.ofRef ++ [Slot.tag total]) := by
    simp [slots]
  rw [parts, List.drop_left' (by simp), List.take_left' (by simp)]

end Slots

/-! ### The two forms -/

section Forms

variable {refs : List Ref} {sizes : List Nat} {total total' : Nat}

theorem holds_general {o : Node} : s.Holds (form n (some o) refs sizes total * R) ↔
    s.Holds (packed .inner n (slots (Slot.ofRef o.ref) refs total) *
      (packed .plain o (ends sizes) * R)) := by
  have same (first : Int64) : packed .inner n (slots first refs total) * head first sizes (some o) * R =
      .fact (first = Slot.ofRef o.ref) * (packed .inner n (slots first refs total) *
        (packed .plain o (ends sizes) * R)) := by
    rw [head]
    ac_rfl
  simp only [form, Store.holds_any_mul, same, Store.holds_fact_mul]
  constructor
  · rintro ⟨_, rfl, h⟩
    exact h
  · intro h
    exact ⟨_, rfl, h⟩

theorem holds_compact : s.Holds (form n none refs sizes total * R) ↔
    ∃ first, Slot.isRef first = false ∧ Regular (Slot.untag first) sizes ∧
      s.Holds (packed .inner n (slots first refs total) * R) := by
  have same (first : Int64) : packed .inner n (slots first refs total) * head first sizes none * R =
      .fact (Slot.isRef first = false ∧ Regular (Slot.untag first) sizes) *
      (packed .inner n (slots first refs total) * R) := by
    rw [head]
    ac_rfl
  simp only [form, Store.holds_any_mul, same, Store.holds_fact_mul, and_assoc]

theorem form_congr {sizes sizes' : List Nat}
    (same : ∀ first, head first sizes o = head first sizes' o) :
    form n o refs sizes total = form n o refs sizes' total := by
  simp only [form, same]

theorem addTotal_slots {first : Int64} {d : Int64}
    (h : s.Holds (packed .inner n (slots first refs total) * R))
    (moved : Slot.tag total + d = Slot.tag total') (run : addTotal d (n, s) = (.ok (), (n', s'))) :
    s'.Holds (packed .inner n' (slots first refs total') * R) := by
  have size := (Node.packed_of_holds h).length
  rw [length_slots] at size
  simp only [addTotal, Edit.self_bind, ← size] at run
  rw [← modify_slots moved]
  exact Node.adjust_holds h (by simp) run

theorem addTotal_holds {d : Int64} (h : s.Holds (form n o refs sizes total * R))
    (moved : Slot.tag total + d = Slot.tag total') (run : addTotal d (n, s) = (.ok (), (n', s'))) :
    s'.Holds (form n' o refs sizes total' * R) := by
  simp only [form, Store.holds_any_mul, mul_assoc] at h ⊢
  obtain ⟨first, h⟩ := h
  exact ⟨first, addTotal_slots h moved run⟩

end Forms

theorem length_lt (h : s.Holds (inner n o kids * R)) : kids.length + 2 < 2 ^ 24 := by
  obtain ⟨own, inner⟩ := h.reads
  rw [← size_of_inner inner]
  obtain ⟨first, x, y, rfl, -, node, -⟩ := inner
  exact node.2.1.size_lt

theorem editOffsets_holds {o : Node} {e : Edit Node Unit} {refs : List Ref} {total : Nat}
    {es es' : List Int64}
    (h : s.Holds (packed .inner n (slots (Slot.ofRef o.ref) refs total) *
      (packed .plain o es * R)))
    (edit : ∀ {R : Assertion} {o' : Node} {t : Store}, s.Holds (packed .plain o es * R) →
      e (o, s) = (.ok (), (o', t)) → t.Holds (packed .plain o' es' * R))
    (run : editOffsets o e (n, s) = (.ok (), (n', s'))) :
    ∃ o' : Node, s'.Holds (packed .inner n' (slots (Slot.ofRef o'.ref) refs total) *
      (packed .plain o' es' * R)) := by
  simp only [editOffsets, Edit.lift_bind_ok, Prod.exists, Edit.on_ok] at run
  obtain ⟨_, o', t, edited, patch⟩ := run
  refine ⟨o', ?_⟩
  rw [mul_left_comm] at h
  have h := edit h edited
  rw [mul_left_comm] at h
  exact Node.patchSlot_holds h (by simp) patch

/-! ### From the compact form to the general one -/

theorem addEnds_holds {vs : List Int64} {per i count : Nat} (h : s.Holds (packed .plain n vs * R))
    (small : vs.length + count < 2 ^ 24)
    (run : addEnds per i count (n, s) = (.ok (), (n', s'))) :
    s'.Holds (packed .plain n'
      (vs ++ (List.range count).map fun j => Int64.ofNat ((i + j) * per)) * R) := by
  induction count generalizing i vs n s with
  | zero =>
      obtain ⟨-, same⟩ := Edit.pure_ok.mp run
      cases same
      simpa using h
  | succ count ih =>
      obtain ⟨_, ⟨n₁, s₁⟩, added, rest⟩ := Edit.bind_ok.mp run
      have h := ih (Node.add_holds h (by omega) added) (by simp; omega) rest
      rw [List.append_assoc] at h
      rw [List.range_succ_eq_map, List.map_cons, List.map_map, Nat.add_zero]
      have same : (fun j => Int64.ofNat ((i + 1 + j) * per)) =
          (fun j => Int64.ofNat ((i + j) * per)) ∘ Nat.succ := by
        funext j
        simp [Nat.add_comm, Nat.add_left_comm]
      rwa [same] at h

theorem ensureOffsets_compact_ok {o : Node} (compact : offsets s.memory n = none)
    (run : ensureOffsets (n, s) = (.ok o, (n', s'))) :
    ∃ o₀ s₁ s₂, Node.createPacked .plain s = (.ok o₀, s₁) ∧
      addEnds (perChild s.memory n) 1 (childCount n - 1) (o₀, s₁) = (.ok (), (o, s₂)) ∧
      Node.set 0 (Slot.ofRef o.ref) (n, s₂) = (.ok (), (n', s')) := by
  simp only [ensureOffsets, Edit.self_bind, Edit.read_bind, compact, Edit.lift_bind_ok] at run
  obtain ⟨o₀, s₁, created, ⟨r, o₁⟩, s₂, trying, rest⟩ := run
  refine ⟨o₀, s₁, s₂, created, ?_⟩
  rw [Edit.trying] at trying
  rcases added : addEnds (perChild s.memory n) 1 (childCount n - 1) (o₀, s₁) with ⟨r', o₂, t⟩
  rw [added] at trying
  cases trying
  cases r with
  | error e =>
      obtain ⟨_, _, -, thrown⟩ := Edit.bind_ok.mp rest
      exact absurd thrown Edit.not_throw_ok
  | ok u =>
      obtain ⟨_, ⟨n₁, s₃⟩, caught, result⟩ := Edit.bind_ok.mp rest
      obtain ⟨rfl, same⟩ := Edit.pure_ok.mp result
      cases same
      refine ⟨rfl, Edit.tryCatch_ok ?_ caught⟩
      intro e q failed
      obtain ⟨_, _, -, thrown⟩ := Edit.bind_ok.mp failed
      exact Edit.not_throw_ok thrown

theorem ensureOffsets_general_ok {o o' : Node} (general : offsets s.memory n = some o)
    (run : ensureOffsets (n, s) = (.ok o', (n', s'))) : o' = o ∧ n' = n ∧ s' = s := by
  simp only [ensureOffsets, Edit.self_bind, Edit.read_bind, general] at run
  obtain ⟨rfl, same⟩ := Edit.pure_ok.mp run
  cases same
  exact ⟨rfl, rfl, rfl⟩

theorem ensureOffsets_holds {o' : Node} (h : s.Holds (inner n o kids * R))
    (run : ensureOffsets (n, s) = (.ok o', (n', s'))) : s'.Holds (inner n' (some o') kids * R) := by
  obtain ⟨own, here⟩ := h.reads
  have form := offsets_of_inner here
  cases o with
  | some o =>
      obtain ⟨rfl, rfl, rfl⟩ := ensureOffsets_general_ok form run
      exact h
  | none =>
      obtain ⟨o₀, s₁, s₂, created, added, set⟩ := ensureOffsets_compact_ok form run
      have small := length_lt h
      obtain ⟨first, -, regular, h⟩ := holds_compact.mp h
      have per : perChild s.memory n = Slot.untag first := by
        rw [perChild, (Node.packed_of_holds h).get (by simp)]
        rfl
      have h := addEnds_holds (Node.createPacked_holds h created)
        (by rw [childCount_of_inner here, List.length_nil]; omega) added
      have same : [] ++ (List.range (childCount n - 1)).map
          (fun j => Int64.ofNat ((1 + j) * perChild s.memory n)) = ends (sizes kids) := by
        rw [regular.ends, childCount_of_inner here, length_sizes, per, List.nil_append]
        simp only [Nat.add_comm]
      rw [same, mul_left_comm] at h
      exact holds_general.mpr (Node.set_holds h (by simp) set)

/-- With one child a node that is not in the image stays where it is. -/
theorem ensureOffsets_ref {o' : Node} {k : Ref × List V} (h : s.Holds (inner n o [k] * R))
    (mutable : s.baseline ≤ n.ref) (run : ensureOffsets (n, s) = (.ok o', (n', s'))) :
    n'.ref = n.ref := by
  obtain ⟨own, here⟩ := h.reads
  have form := offsets_of_inner here
  cases o with
  | some o =>
      obtain ⟨-, rfl, -⟩ := ensureOffsets_general_ok form run
      rfl
  | none =>
      obtain ⟨o₀, s₁, s₂, created, added, set⟩ := ensureOffsets_compact_ok form run
      have count : childCount n = 1 := childCount_of_inner here
      rw [count] at added
      obtain ⟨first, -, -, h⟩ := holds_compact.mp h
      have h := Node.createPacked_holds (Store.holds_above_mul.mpr ⟨mutable, h⟩) created
      have h := (addEnds_holds h (by decide) added).right
      obtain ⟨mutable, h⟩ := Store.holds_above_mul.mp h
      have packed := Node.packed_of_holds h
      have size : n.size = 3 := packed.length.symm
      apply Node.set_ref mutable _ set
      rw [size, packed.layout]
      exact Nat.le_trans (by decide) (packed.live.stored.slack mutable)

/-- A node in the image owns nothing, so it is still there when a copy of it is edited. -/
theorem image_twice (h : s.Holds (inner n none kids * R)) (image : n.ref < s.baseline) :
    s.Holds (inner n none kids * (inner n none kids * R)) := by
  obtain ⟨sound, _, owns, x, y, rfl, apart, node, rest⟩ := h
  have nothing : x = ∅ := by
    obtain ⟨first, _, _, rfl, -, ⟨rfl, -⟩, ⟨rfl, -⟩⟩ := node
    rw [Node.region_image image, Set.union_empty]
  subst nothing
  exact ⟨sound, _, owns, ∅, ∅ ∪ y, (Set.empty_union _).symm, Set.empty_disjoint _, node,
    ∅, y, rfl, apart, node, rest⟩

/-! ### A child of another size -/

variable {before after : List (Ref × List V)} {k : Ref × List V} {ws : List V}

theorem head_last (first : Int64) (o : Option Node) (a a' : Nat) (before : List Nat) :
    head first (before ++ [a]) o = head first (before ++ [a']) o := by
  cases o with
  | none => simp only [head, regular_concat]
  | some o => rw [head, head, ends_last a']

theorem resizeLast_holds {d : Int64} (h : s.Holds (inner n o (before ++ [k]) * R))
    (moved : Slot.tag (values (before ++ [k])).length + d =
      Slot.tag (values (before ++ [(k.1, ws)])).length)
    (run : addTotal d (n, s) = (.ok (), (n', s'))) :
    s'.Holds (inner n' o (before ++ [(k.1, ws)]) * R) := by
  have h := addTotal_holds h moved run
  rw [inner]
  simp only [refs_append, refs_cons, refs_nil, sizes_append, sizes_cons, sizes_nil] at h ⊢
  rwa [form_congr fun first => head_last first o ws.length k.2.length (sizes before)]

theorem resizeEnd_holds {o : Node} {refs : List Ref} {total a a' : Nat} {before after : List Nat}
    {d : Int64} (h : s.Holds (form n (some o) refs (before ++ a :: after) total * R))
    (moved : Int64.ofNat a + d = Int64.ofNat a')
    (run : editOffsets o (Node.adjustRange before.length o.size d) (n, s) = (.ok (), (n', s'))) :
    ∃ o', s'.Holds (form n' (some o') refs (before ++ a' :: after) total * R) := by
  simp only [holds_general] at h ⊢
  refine editOffsets_holds h ?_ run
  intro R o' t h run
  have size := (Node.packed_of_holds h).length
  have := Node.adjustRange_holds h (Nat.le_of_eq size.symm) run
  rw [← size, length_ends] at this
  simp only [List.length_append, List.length_cons] at this
  rwa [show before.length + (after.length + 1) - 1 = before.length + after.length by omega,
    ends_resize moved] at this

theorem patchChild_compact {first : Int64} {q r : Ref}
    (h : s.Holds (compact n first (before ++ (q, ws) :: after) * R))
    (run : Node.patchSlot (before.length + 1) r (n, s) = (.ok (), (n', s'))) :
    s'.Holds (compact n' first (before ++ (r, ws) :: after) * R) := by
  simp only [compact, refs_append, refs_cons] at h ⊢
  have inside : before.length + 1 < (slots first (refs before ++ q :: refs after)
      (values (before ++ (q, ws) :: after)).length).length := by
    rw [length_slots, List.length_append, List.length_cons, length_refs]
    omega
  have h := Node.patchSlot_holds h inside run
  rw [← length_refs before, set_slots] at h
  simpa using h

theorem patchChild_holds {q r : Ref} (h : s.Holds (inner n o (before ++ (q, ws) :: after) * R))
    (run : Node.patchSlot (before.length + 1) r (n, s) = (.ok (), (n', s'))) :
    s'.Holds (inner n' o (before ++ (r, ws) :: after) * R) := by
  have same : sizes (before ++ (r, ws) :: after) = sizes (before ++ (q, ws) :: after) := by simp
  simp only [inner, form, Store.holds_any_mul, mul_assoc, same] at h ⊢
  obtain ⟨first, h⟩ := h
  exact ⟨first, patchChild_compact h run⟩

/-! ### A child that split -/

theorem appendElements_holds {role role' : Node.Role} {source : Node} {vs ws : List Int64}
    {d : Int64} {i count : Nat}
    (h : s.Holds (packed role n vs * (packed role' source ws * R)))
    (inside : i + count ≤ ws.length) (small : vs.length + count < 2 ^ 24)
    (run : Tree.appendElements source d i count (n, s) = (.ok (), (n', s'))) :
    s'.Holds (packed role n' (vs ++ ((ws.drop i).take count).map (· + d)) *
      (packed role' source ws * R)) := by
  induction count generalizing i vs n s with
  | zero =>
      obtain ⟨-, same⟩ := Edit.pure_ok.mp run
      cases same
      simpa using h
  | succ count ih =>
      simp only [Tree.appendElements, Edit.read_bind] at run
      rw [(Node.packed_of_holds h.right).get (show i < ws.length by omega)] at run
      obtain ⟨_, ⟨n₁, s₁⟩, added, rest⟩ := Edit.bind_ok.mp run
      have h := ih (Node.add_holds h (by omega) added) (by omega) (by simp; omega) rest
      rw [List.append_assoc] at h
      rw [List.drop_eq_getElem_cons (show i < ws.length by omega), List.take_succ_cons,
        List.map_cons]
      exact h

theorem offsetsFor_holds {c : Nat} {split : Split} (h : s.Holds (inner n o kids * R))
    (run : Tree.offsetsFor o c split (n, s) = (.ok o', (n', s'))) :
    s'.Holds (inner n' o' kids * R) ∧ (o' = none → o = none ∧ n' = n ∧ s' = s ∧
      c + 1 = kids.length ∧ split.offset = perChild s.memory n) := by
  obtain ⟨own, here⟩ := h.reads
  cases o with
  | some o =>
      simp only [Tree.offsetsFor, Edit.self_bind] at run
      obtain ⟨rfl, same⟩ := Edit.pure_ok.mp run
      cases same
      exact ⟨h, fun none => by cases none⟩
  | none =>
      simp only [Tree.offsetsFor, Edit.self_bind, Edit.read_bind, childCount_of_inner here] at run
      by_cases stays : c + 1 = kids.length ∧ split.offset = perChild s.memory n
      · rw [if_pos stays] at run
        obtain ⟨rfl, same⟩ := Edit.pure_ok.mp run
        cases same
        exact ⟨h, fun _ => ⟨rfl, rfl, rfl, stays⟩⟩
      · rw [if_neg stays] at run
        obtain ⟨o', ⟨n₁, s₁⟩, ensured, result⟩ := Edit.bind_ok.mp run
        obtain ⟨rfl, same⟩ := Edit.pure_ok.mp result
        cases same
        exact ⟨ensureOffsets_holds h ensured, fun none => by cases none⟩

section InsertChild

variable {left right : List V} {q r : Ref}

theorem total_split (whole : left.length + right.length = k.2.length + 1) :
    (values (before ++ (q, left) :: (r, right) :: after)).length =
      (values (before ++ k :: after)).length + 1 := by
  simp only [values_append, values_cons, List.length_append]
  omega

theorem splitEnd_holds {o o' : Node} {before after : List Nat} {a a' b : Nat}
    (h : s.Holds (packed .plain o (ends (before ++ a :: after)) * R)) (whole : a' + b = a + 1)
    (small : before.length + after.length + 1 < 2 ^ 24)
    (run : (do
      Node.insert before.length (Int64.ofNat (before.sum + a'))
      let o ← Edit.self
      Node.adjustRange (before.length + 1) o.size 1) (o, s) = (.ok (), (o', s'))) :
    s'.Holds (packed .plain o' (ends (before ++ a' :: b :: after)) * R) := by
  obtain ⟨_, ⟨o₁, s₁⟩, inserted, adjusted⟩ := Edit.bind_ok.mp run
  rw [Edit.self_bind] at adjusted
  have h := Node.insert_holds h (by simp) (by simp; omega) inserted
  have size := (Node.packed_of_holds h).length
  have h := Node.adjustRange_holds h (Nat.le_of_eq size.symm) adjusted
  rwa [← size, length_ends_insert, ends_split whole] at h

/-- There is room for the sibling in the node. -/
theorem insertSibling_holds {o : Node} {s₁ s₂ : Store} {n₁ n₂ : Node}
    (h : s.Holds (inner n (some o) (before ++ k :: after) * R))
    (whole : left.length + right.length = k.2.length + 1)
    (room : (before ++ k :: after).length + 3 < 2 ^ 24)
    (insert : Node.insert (before.length + 2) (Slot.ofRef r) (n, s) = (.ok (), (n₁, s₁)))
    (total : addTotal 2 (n₁, s₁) = (.ok (), (n₂, s₂)))
    (run : editOffsets o (do
      Node.insert before.length (Int64.ofNat ((values before).length + left.length))
      let o ← Edit.self
      Node.adjustRange (before.length + 1) o.size 1) (n₂, s₂) = (.ok (), (n', s'))) :
    ∃ o' : Node, s'.Holds
      (inner n' (some o') (before ++ (k.1, left) :: (r, right) :: after) * R) := by
  have h := holds_general.mp h
  simp only [refs_append, refs_cons, sizes_append, sizes_cons] at h
  have h := Node.insert_holds h (by simp) (by simpa using room) insert
  rw [← length_refs before, insertIdx_slots] at h
  have h := addTotal_slots h (Slot.tag_add _ 1) total
  rw [← length_sizes before, ← sum_sizes] at run
  obtain ⟨o', h⟩ := editOffsets_holds h
    (fun h run => splitEnd_holds h whole (by simp at room ⊢; omega) run) run
  refine ⟨o', holds_general.mpr ?_⟩
  rw [total_split whole]
  simpa using h

theorem insertLast_compact {first : Int64} {s₁ : Store} {n₁ : Node}
    (h : s.Holds (compact n first (before ++ [k]) * R))
    (whole : left.length + right.length = k.2.length + 1)
    (room : (before ++ [k]).length + 3 < 2 ^ 24)
    (insert : Node.insert (before.length + 2) (Slot.ofRef r) (n, s) = (.ok (), (n₁, s₁)))
    (total : addTotal 2 (n₁, s₁) = (.ok (), (n', s'))) :
    s'.Holds (compact n' first (before ++ [(k.1, left), (r, right)]) * R) := by
  simp only [compact, refs_append, refs_cons, refs_nil] at h
  have h := Node.insert_holds h (by simp) (by simpa using room) insert
  rw [← length_refs before, insertIdx_slots] at h
  have h := addTotal_slots h (Slot.tag_add _ 1) total
  rw [compact, total_split whole]
  simpa using h

theorem insertLast_holds {s₁ : Store} {n₁ : Node}
    (h : s.Holds (inner n none (before ++ [k]) * R))
    (whole : left.length + right.length = k.2.length + 1)
    (full : left.length = perChild s.memory n)
    (room : (before ++ [k]).length + 3 < 2 ^ 24)
    (insert : Node.insert (before.length + 2) (Slot.ofRef r) (n, s) = (.ok (), (n₁, s₁)))
    (total : addTotal 2 (n₁, s₁) = (.ok (), (n', s'))) :
    s'.Holds (inner n' none (before ++ [(k.1, left), (r, right)]) * R) := by
  obtain ⟨first, compact, regular, h⟩ := holds_compact.mp h
  rw [perChild, (Node.packed_of_holds h).get (by simp)] at full
  refine holds_compact.mpr ⟨first, compact, ?_, insertLast_compact h whole room insert total⟩
  have parts : sizes (before ++ [(k.1, left), (r, right)]) =
      (sizes before ++ [left.length]) ++ [right.length] := by simp
  rw [sizes_append, sizes_cons, sizes_nil, regular_concat] at regular
  rw [parts, regular_concat]
  simpa [or_imp, forall_and, full, slots] using regular

/-- The node is full and stays compact: the sibling becomes a node of its own. -/
theorem split_compact {first : Int64} {s₁ : Store} {n₁ : Node} {sp : Split}
    (h : s.Holds (compact n first (before ++ [k]) * R))
    (size : sp.size - left.length = right.length)
    (create : Node.createPacked .inner s = (.ok n₁, s₁))
    (run : (do
      Node.add (n.get s₁.memory 0)
      Node.add (Slot.ofRef sp.sibling)
      Node.add (Slot.tag (sp.size - left.length)) : Edit Node Unit) (n₁, s₁) = (.ok (), (n', s'))) :
    s'.Holds (compact n first (before ++ [k]) *
      (compact n' first [(sp.sibling, right)] * R)) := by
  have h := Node.createPacked_holds h create
  have slot : n.get s₁.memory 0 = first := (Node.packed_of_holds h.right).get (by simp)
  rw [slot, size] at run
  obtain ⟨_, ⟨n₂, s₂⟩, add, run⟩ := Edit.bind_ok.mp run
  obtain ⟨_, ⟨n₃, s₃⟩, add', add''⟩ := Edit.bind_ok.mp run
  have h := Node.add_holds h (by simp) add
  have h := Node.add_holds h (by simp) add'
  have h := Node.add_holds h (by simp) add''
  rw [mul_left_comm] at h
  simpa [compact, slots] using h

theorem splitCompact_holds {s₁ : Store} {n₁ : Node} {sp : Split}
    (h : s.Holds (inner n none (before ++ [k]) * R))
    (whole : left.length + right.length = k.2.length + 1) (full : left.length = k.2.length)
    (size : sp.size = k.2.length + 1) (create : Node.createPacked .inner s = (.ok n₁, s₁))
    (run : (do
      Node.add (n.get s₁.memory 0)
      Node.add (Slot.ofRef sp.sibling)
      Node.add (Slot.tag (sp.size - left.length)) : Edit Node Unit) (n₁, s₁) = (.ok (), (n', s'))) :
    s'.Holds (inner n none (before ++ [(k.1, left)]) *
      (inner n' none [(sp.sibling, right)] * R)) := by
  obtain ⟨first, compact, regular, h⟩ := holds_compact.mp h
  have h := split_compact h (show sp.size - left.length = right.length by omega) create run
  refine holds_compact.mpr ⟨first, compact, ?_, ?_⟩
  · rw [sizes_append, sizes_cons, sizes_nil, regular_concat] at regular ⊢
    exact regular
  · have same : (values (before ++ [(k.1, left)])).length = (values (before ++ [k])).length := by
      simp [full]
    rw [mul_left_comm, same]
    refine holds_compact.mpr ⟨first, compact, by simp [Regular], ?_⟩
    rw [mul_left_comm]
    simpa [Branch.compact] using h

/-- The node is full: the children behind the one that split go to a new node. -/
theorem fillRight_holds {o : Node} {s₁ s₂ s₃ : Store} {p p' : Node} {c : Node} {total : Nat}
    (h : s.Holds (inner n (some o) (before ++ k :: after) * R))
    (whole : left.length + right.length = k.2.length + 1)
    (rest : total = right.length + (values after).length)
    (create : Node.createPacked .inner s = (.ok c, s₁))
    (createEnds : Node.createPacked .plain s₁ = (.ok p, s₂))
    (ends : Tree.appendElements o (1 - Int64.ofNat ((values before).length + left.length))
      before.length after.length (p, s₂) = (.ok (), (p', s₃)))
    (run : (do
      Node.add (Slot.ofRef p'.ref)
      Node.add (Slot.ofRef r)
      Tree.appendElements n 0 (before.length + 2) after.length
      Node.add (Slot.tag total) : Edit Node Unit) (c, s₃) = (.ok (), (n', s'))) :
    s'.Holds (inner n (some o) (before ++ k :: after) *
      (inner n' (some p') ((r, right) :: after) * R)) := by
  have small := length_lt h
  simp only [List.length_append, List.length_cons] at small
  obtain ⟨_, ⟨c₁, t₁⟩, add, run⟩ := Edit.bind_ok.mp run
  obtain ⟨_, ⟨c₂, t₂⟩, add', run⟩ := Edit.bind_ok.mp run
  obtain ⟨_, ⟨c₃, t₃⟩, append, add''⟩ := Edit.bind_ok.mp run
  have h := Node.createPacked_holds (Node.createPacked_holds (holds_general.mp h) create) createEnds
  -- The ends behind the split, counted from it.
  have order : s₂.Holds (packed .plain p [] * (packed .plain o (Branch.ends (sizes (before ++ k :: after))) *
      (packed .inner n (slots (Slot.ofRef o.ref) (refs (before ++ k :: after))
        (values (before ++ k :: after)).length) * (packed .inner c [] * R)))) :=
    h.of_eq (by ac_rfl)
  have h := appendElements_holds order (by simp) (by simp; omega) ends
  have moved := ends_drop (sizes before) (sizes after) whole
  rw [length_sizes, sum_sizes] at moved
  rw [List.take_of_length_le (by simp), sizes_append, sizes_cons, moved, List.nil_append] at h
  -- The slots behind the split.
  have order : t₁.Holds (packed .inner c₁ ([] ++ [Slot.ofRef p'.ref]) * (packed .inner n
      (slots (Slot.ofRef o.ref) (refs (before ++ k :: after)) (values (before ++ k :: after)).length) *
      (packed .plain p' (Branch.ends (right.length :: sizes after)) *
        (packed .plain o (Branch.ends (sizes before ++ k.2.length :: sizes after)) * R)))) := by
    refine Node.add_holds (h.of_eq ?_) (by simp) add
    ac_rfl
  have h := Node.add_holds order (by simp) add'
  have h := appendElements_holds h (by simp; omega) (by simp; omega) append
  have h := Node.add_holds h (by simp; omega) add''
  have tail := tail_slots (Slot.ofRef o.ref) (refs before) k.1 (refs after)
    (values (before ++ k :: after)).length
  rw [length_refs, length_refs] at tail
  simp only [refs_append, refs_cons, tail, Int64.add_zero, List.map_id'] at h
  have order : s'.Holds (packed .inner n (slots (Slot.ofRef o.ref) (refs (before ++ k :: after))
      (values (before ++ k :: after)).length) *
      (packed .plain o (Branch.ends (sizes (before ++ k :: after))) *
        (packed .inner n' (slots (Slot.ofRef p'.ref) (refs ((r, right) :: after))
          (values ((r, right) :: after)).length) *
          (packed .plain p' (Branch.ends (sizes ((r, right) :: after))) * R)))) := by
    refine h.of_eq ?_
    simp only [slots, values_cons, List.length_append, rest, refs_append, refs_cons, sizes_append,
      sizes_cons, List.nil_append, List.cons_append, List.map_cons]
    ac_rfl
  rw [mul_left_comm]
  exact holds_general.mpr ((holds_general.mpr order).of_eq (by ac_rfl))

/-- What is left of the node ends with the child that split. -/
theorem cutLeft_holds {o : Node} {s₁ s₂ : Store} {n₁ n₂ : Node}
    (h : s.Holds (inner n (some o) (before ++ k :: after) * R))
    (cut : Node.truncate (before.length + 2) (n, s) = (.ok (), (n₁, s₁)))
    (add : Node.add (Slot.tag ((values before).length + left.length)) (n₁, s₁) = (.ok (), (n₂, s₂)))
    (run : editOffsets o (Node.truncate before.length) (n₂, s₂) = (.ok (), (n', s'))) :
    ∃ o' : Node, s'.Holds (inner n' (some o') (before ++ [(k.1, left)]) * R) := by
  have small := length_lt h
  have h := holds_general.mp h
  simp only [refs_append, refs_cons, sizes_append, sizes_cons] at h
  have h := Node.truncate_holds h (by simp) cut
  have h := Node.add_holds h (by simp at small ⊢; omega) add
  rw [← length_refs before, take_slots] at h
  obtain ⟨o', h⟩ := editOffsets_holds h (fun h run => Node.truncate_holds h (by simp) run) run
  refine ⟨o', holds_general.mpr ?_⟩
  rw [← length_sizes before, ends_take _ _ _ left.length] at h
  simpa using h

/-- A node after one of its children split: it has a sibling of its own if it was full. -/
def Widened (maxNodeSize : Nat) (s : Store) (n : Node) (before : List (Ref × List V))
    (left right : Ref × List V) (after : List (Ref × List V)) (R : Assertion) :
    Option Split → Prop
  | none => (before ++ left :: right :: after).length ≤ maxNodeSize ∧
      ∃ o, s.Holds (inner n o (before ++ left :: right :: after) * R)
  | some q => q.offset = (values (before ++ [left])).length ∧
      q.size = (values (before ++ left :: right :: after)).length ∧
      ∃ n' o o', n'.ref = q.sibling ∧
        s.Holds (inner n o (before ++ [left]) * (inner n' o' (right :: after) * R))

theorem insertChild_holds {sp : Split} {split : Option Split} {maxNodeSize : Nat}
    (h : s.Holds (inner n o (before ++ k :: after) * R))
    (whole : left.length + right.length = k.2.length + 1)
    (full : o = none → left.length = k.2.length)
    (offset : sp.offset = left.length) (size : sp.size = k.2.length + 1)
    (small : (values (before ++ k :: after)).length < Slot.countBound)
    (max : maxNodeSize < 2 ^ 24 - 2)
    (run : Tree.insertChild maxNodeSize o before.length sp (n, s) = (.ok split, (n', s'))) :
    Widened maxNodeSize s' n' before (k.1, left) (sp.sibling, right) after R split := by
  obtain ⟨own, here⟩ := h.reads
  have count := childCount_of_inner here
  have start : childStart s.memory n o before.length = (values before).length := by
    rw [childStart_of_inner here (by simp) small, sizes_append, start_append,
      start_of_length_le _ (by simp)]
    simp
  simp only [Tree.insertChild, Edit.self_bind, Edit.read_bind, count, start,
    total_of_inner here small, offset] at run
  rw [Edit.bind_ok] at run
  obtain ⟨o', ⟨n₁, s₁⟩, form, run⟩ := run
  obtain ⟨h, compact⟩ := offsetsFor_holds h form
  by_cases room : (before ++ k :: after).length < maxNodeSize
  · rw [if_pos room] at run
    obtain ⟨_, ⟨n₂, s₂⟩, insert, run⟩ := Edit.bind_ok.mp run
    obtain ⟨_, ⟨n₃, s₃⟩, total, run⟩ := Edit.bind_ok.mp run
    have most : (before ++ (k.1, left) :: (sp.sibling, right) :: after).length ≤ maxNodeSize := by
      simp only [List.length_append, List.length_cons] at room ⊢
      omega
    cases o' with
    | none =>
        obtain ⟨rfl, same⟩ := Edit.pure_ok.mp run
        cases same
        obtain ⟨rfl, rfl, rfl, last, per⟩ := compact rfl
        obtain rfl : after = [] := by simpa using last
        exact ⟨most, none, insertLast_holds h whole (offset ▸ per) (by omega) insert total⟩
    | some o' =>
        obtain ⟨_, ⟨n₄, s₄⟩, ends, run⟩ := Edit.bind_ok.mp run
        obtain ⟨rfl, same⟩ := Edit.pure_ok.mp run
        cases same
        obtain ⟨o'', h⟩ := insertSibling_holds h whole (by omega) insert total ends
        exact ⟨most, _, h⟩
  · rw [if_neg room, Edit.lift_bind_ok] at run
    obtain ⟨right', s₂, create, run⟩ := run
    cases o' with
    | none =>
        obtain ⟨rfl, rfl, rfl, last, per⟩ := compact rfl
        obtain rfl : after = [] := by simpa using last
        simp only [Edit.self_bind, Edit.read_bind, Edit.lift_bind_ok, Prod.exists, Edit.on_ok] at run
        obtain ⟨_, right'', s₃, fill, run⟩ := run
        obtain ⟨rfl, same⟩ := Edit.pure_ok.mp run
        cases same
        refine ⟨by simp, (total_split whole).symm, _, none, none, rfl, ?_⟩
        exact splitCompact_holds h whole (full rfl) size create fill
    | some o' =>
        simp only [Edit.self_bind, Edit.lift_bind_ok, Prod.exists, Edit.on_ok] at run
        obtain ⟨ends, s₃, createEnds, _, ends', s₄, shift, _, right'', s₅, fill, run⟩ := run
        obtain ⟨_, ⟨n₂, s₆⟩, cut, run⟩ := Edit.bind_ok.mp run
        obtain ⟨_, ⟨n₃, s₇⟩, add, run⟩ := Edit.bind_ok.mp run
        obtain ⟨_, ⟨n₄, s₈⟩, shorten, run⟩ := Edit.bind_ok.mp run
        obtain ⟨rfl, same⟩ := Edit.pure_ok.mp run
        cases same
        have behind : (before ++ k :: after).length - 1 - before.length = after.length := by simp
        have behind' : (before ++ k :: after).length - (before.length + 1) = after.length := by
          simp
          omega
        rw [behind] at shift
        rw [behind'] at fill
        have rest : (values (before ++ k :: after)).length + 1 - ((values before).length + left.length) =
            right.length + (values after).length := by
          simp only [values_append, values_cons, List.length_append]
          omega
        have h := fillRight_holds h whole rest create createEnds shift fill
        obtain ⟨o'', h⟩ := cutLeft_holds h cut add shorten
        refine ⟨by simp, (total_split whole).symm, _, _, _, rfl, h⟩

end InsertChild

/-! ### A child that goes -/

theorem removeEnd_holds {o o' : Node} {before after : List Nat}
    (h : s.Holds (packed .plain o (ends (before ++ 1 :: after)) * R))
    (more : before ++ after ≠ []) (run : Tree.removeEnd before.length (o, s) = (.ok (), (o', s'))) :
    s'.Holds (packed .plain o' (ends (before ++ after)) * R) := by
  have size := (Node.packed_of_holds h).length
  simp only [length_ends, List.length_append, List.length_cons] at size
  simp only [Tree.removeEnd, Edit.self_bind, ← size] at run
  cases after with
  | nil =>
      rw [if_neg (by simp)] at run
      obtain ⟨front, b, rfl⟩ := List.eq_nil_or_concat before |>.resolve_left (by simpa using more)
      simp only [List.concat_eq_append, List.append_assoc, List.singleton_append,
        List.length_append, List.length_singleton, Nat.add_sub_cancel, List.append_nil] at h run ⊢
      rw [← ends_eraseLast]
      exact Node.erase_holds h (by simp) run
  | cons b after =>
      rw [if_pos (by simp)] at run
      rw [Edit.bind_ok] at run
      obtain ⟨_, ⟨o₁, s₁⟩, erase, adjust⟩ := run
      have h := Node.erase_holds h (by simp) erase
      have stop : before.length + ((b :: after).length + 1) - 1 - 1 = before.length + after.length := by
        simp
      rw [stop] at adjust
      have inside : before.length + after.length ≤
          ((ends (before ++ 1 :: b :: after)).eraseIdx before.length).length := by
        rw [List.length_eraseIdx_of_lt (by simp)]
        simp
      have h := Node.adjustRange_holds h inside adjust
      rwa [ends_erase] at h

/-- The node without its child `k`; its total is adjusted later. -/
theorem removeGeneral_holds {o : Node} {s₁ : Store} {n₁ : Node}
    (h : s.Holds (inner n (some o) (before ++ k :: after) * R)) (single : k.2.length = 1)
    (more : before ++ after ≠ [])
    (erase : Node.erase (before.length + 1) (n, s) = (.ok (), (n₁, s₁)))
    (run : editOffsets o (Tree.removeEnd before.length) (n₁, s₁) = (.ok (), (n', s'))) :
    ∃ o', s'.Holds (form n' (some o') (refs (before ++ after)) (sizes (before ++ after))
      (values (before ++ k :: after)).length * R) := by
  simp only [inner, refs_append, refs_cons, sizes_append, sizes_cons, single, holds_general] at h ⊢
  have inside : before.length + 1 < (slots (Slot.ofRef o.ref) (refs before ++ k.1 :: refs after)
      (values (before ++ k :: after)).length).length := by
    rw [length_slots, List.length_append, List.length_cons, length_refs]
    omega
  have h := Node.erase_holds h inside erase
  rw [← length_refs before, eraseIdx_slots] at h
  rw [← length_sizes before] at run
  refine editOffsets_holds h (fun h run => removeEnd_holds h ?_ run) run
  rw [← sizes_append]
  intro none
  apply more
  rwa [sizes, List.map_eq_nil_iff] at none

theorem removeCompact_holds (h : s.Holds (inner n none (before ++ [k]) * R))
    (erase : Node.erase (before.length + 1) (n, s) = (.ok (), (n', s'))) :
    s'.Holds (form n' none (refs before) (sizes before) (values (before ++ [k])).length * R) := by
  simp only [inner, refs_append, refs_cons, refs_nil, sizes_append, sizes_cons, sizes_nil,
    holds_compact] at h ⊢
  obtain ⟨first, compact, regular, h⟩ := h
  have h := Node.erase_holds h (by simp) erase
  rw [← length_refs before, eraseIdx_slots, List.append_nil] at h
  refine ⟨first, compact, ?_, h⟩
  rw [regular_concat] at regular
  exact fun a inside => regular a (List.dropLast_subset _ inside)

end Branch

end ColumnStore
