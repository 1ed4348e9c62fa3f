import ColumnStore.Proofs.Ends
import ColumnStore.Proofs.Leaf
import ColumnStore.Tree.Insert

set_option autoImplicit false

/-!
Inner nodes as assertions. The children are known by their refs and by the values below them; the
slots of the node and the ends beside it follow from these.
-/
namespace ColumnStore.Branch

open Node (packed)

variable {V : Type} {m : Memory} {base : Nat} {own : Set Nat} {s s' : Store} {n n' : Node}
  {o o' : Option Node} {kids : List (Ref × List V)} {R : Assertion}

def refs (kids : List (Ref × List V)) : List Ref := kids.map Prod.fst

def sizes (kids : List (Ref × List V)) : List Nat := kids.map fun k => k.2.length

def values (kids : List (Ref × List V)) : List V := kids.flatMap Prod.snd

@[simp] theorem refs_append (a b : List (Ref × List V)) : refs (a ++ b) = refs a ++ refs b := by
  simp [refs]

@[simp] theorem refs_cons (k : Ref × List V) (b : List (Ref × List V)) :
    refs (k :: b) = k.1 :: refs b := rfl

@[simp] theorem refs_nil : refs ([] : List (Ref × List V)) = [] := rfl

@[simp] theorem sizes_append (a b : List (Ref × List V)) : sizes (a ++ b) = sizes a ++ sizes b := by
  simp [sizes]

@[simp] theorem sizes_cons (k : Ref × List V) (b : List (Ref × List V)) :
    sizes (k :: b) = k.2.length :: sizes b := rfl

@[simp] theorem sizes_nil : sizes ([] : List (Ref × List V)) = [] := rfl

@[simp] theorem values_append (a b : List (Ref × List V)) :
    values (a ++ b) = values a ++ values b := by
  simp [values]

@[simp] theorem values_cons (k : Ref × List V) (b : List (Ref × List V)) :
    values (k :: b) = k.2 ++ values b := by
  simp [values]

@[simp] theorem values_nil : values ([] : List (Ref × List V)) = [] := rfl

@[simp] theorem length_refs (kids : List (Ref × List V)) : (refs kids).length = kids.length := by
  simp [refs]

@[simp] theorem length_sizes (kids : List (Ref × List V)) : (sizes kids).length = kids.length := by
  simp [sizes]

@[simp] theorem sum_sizes (kids : List (Ref × List V)) : (sizes kids).sum = (values kids).length := by
  simp [sizes, values, List.length_flatMap]

theorem exists_kid {kids : List (Ref × List V)} {x : Nat} (inside : x < (values kids).length) :
    ∃ before k after, kids = before ++ k :: after ∧ (values before).length ≤ x ∧
      x < (values before).length + k.2.length := by
  simp only [← sum_sizes] at inside ⊢
  exact exists_child inside

theorem exists_kid_before {kids : List (Ref × List V)} {x : Nat} (some : kids ≠ [])
    (inside : x ≤ (values kids).length) :
    ∃ before k after, kids = before ++ k :: after ∧ (values before).length ≤ x ∧
      x ≤ (values before).length + k.2.length ∧ (x = 0 → before = []) ∧
      (0 < x → (values before).length < x) := by
  simp only [← sum_sizes] at inside ⊢
  exact exists_child_before some inside

/-- No child is empty. -/
def Full (kids : List (Ref × List V)) : Prop := ∀ k ∈ kids, k.2 ≠ []

@[simp] theorem full_nil : Full ([] : List (Ref × List V)) := by simp [Full]

@[simp] theorem full_cons (k : Ref × List V) (b : List (Ref × List V)) :
    Full (k :: b) ↔ k.2 ≠ [] ∧ Full b := by simp only [Full, List.forall_mem_cons]

@[simp] theorem full_append (a b : List (Ref × List V)) : Full (a ++ b) ↔ Full a ∧ Full b := by
  simp only [Full, List.forall_mem_append]

theorem full_iff_sizes : Full kids ↔ ∀ a ∈ sizes kids, 0 < a := by
  simp only [Full, sizes, List.mem_map, forall_exists_index, and_imp, forall_apply_eq_imp_iff₂,
    List.length_pos_iff]

def slots (first : Int64) (refs : List Ref) (total : Nat) : List Int64 :=
  first :: (refs.map Slot.ofRef ++ [Slot.tag total])

@[simp] theorem length_slots (first : Int64) (refs : List Ref) (total : Nat) :
    (slots first refs total).length = refs.length + 2 := by
  simp [slots]

/-- What slot 0 says of the sizes. -/
def head (first : Int64) (sizes : List Nat) : Option Node → Assertion
  | some o => .fact (first = Slot.ofRef o.ref) * packed .plain o (ends sizes)
  | none => .fact (Slot.isRef first = false ∧ Regular (Slot.untag first) sizes)

/-- An inner node whose total may not be that of its children yet. -/
def form (n : Node) (o : Option Node) (refs : List Ref) (sizes : List Nat) (total : Nat) :
    Assertion :=
  .any fun first => packed .inner n (slots first refs total) * head first sizes o

def inner (n : Node) (o : Option Node) (kids : List (Ref × List V)) : Assertion :=
  form n o (refs kids) (sizes kids) (values kids).length

/-- The slots of a node without ends; the first one is told, which no single child tells. -/
def compact (n : Node) (first : Int64) (kids : List (Ref × List V)) : Assertion :=
  packed .inner n (slots first (refs kids) (values kids).length)

/-- Slot 0 may lead to a node of ends, whatever these are. -/
def anyHead (first : Int64) : Option Node → Assertion
  | some o => .fact (first = Slot.ofRef o.ref) * .any (packed .plain o)
  | none => .fact (Slot.isRef first = false)

/-- An inner node with these children, whatever numbers it stores. -/
def outline (n : Node) (o : Option Node) (refs : List Ref) : Assertion :=
  .any fun ends : Int64 × Int64 => .fact (Slot.isRef ends.2 = false) *
    (packed .inner n (ends.1 :: (refs.map Slot.ofRef ++ [ends.2])) * anyHead ends.1 o)

theorem holds_outline {refs : List Ref} : (outline n o refs).holds m base own ↔
    ∃ first last, Slot.isRef last = false ∧
      (packed .inner n (first :: (refs.map Slot.ofRef ++ [last])) * anyHead first o).holds m base own := by
  constructor
  · rintro ⟨⟨first, last⟩, h⟩
    exact ⟨first, last, Assertion.fact_mul.mp h⟩
  · rintro ⟨first, last, h⟩
    exact ⟨(first, last), Assertion.fact_mul.mpr h⟩

theorem inner_of_compact {first : Int64} (tagged : Slot.isRef first = false)
    (regular : Regular (Slot.untag first) (sizes kids)) :
    (compact n first kids).Entails (inner n none kids) := by
  intro m base own h
  have h := Assertion.fact_mul.mpr (And.intro (And.intro tagged regular) h)
  rw [mul_comm] at h
  exact ⟨first, h⟩

theorem perChild_of_compact {first : Int64} (h : (compact n first kids).holds m base own) :
    perChild m n = Slot.untag first := by
  rw [perChild, Node.get_of_packed h (by simp)]
  rfl

theorem head_entails (first : Int64) (sizes : List Nat) (o : Option Node) :
    (head first sizes o).Entails (anyHead first o) := by
  intro m base own h
  cases o with
  | none => exact ⟨h.1, h.2.1⟩
  | some o =>
      obtain ⟨same, ends⟩ := Assertion.fact_mul.mp h
      exact Assertion.fact_mul.mpr ⟨same, _, ends⟩

theorem outline_of_inner (h : (inner n o kids).holds m base own) :
    (outline n o (refs kids)).holds m base own := by
  obtain ⟨first, h⟩ := h
  refine holds_outline.mpr ⟨first, Slot.tag (values kids).length, Slot.isRef_tag _, ?_⟩
  exact Assertion.holds_mul_mono (fun _ => id) (fun _ => head_entails _ _ _ _ _ _) h

/-! ### What is read from an inner node -/

theorem getElem_slots {first last : Int64} {refs : List Ref} {i : Nat} (inside : i < refs.length)
    (h : i + 1 < (first :: (refs.map Slot.ofRef ++ [last])).length) :
    (first :: (refs.map Slot.ofRef ++ [last]))[i + 1] = Slot.ofRef refs[i] := by
  simp [inside]

section Outline

variable {refs : List Ref} (h : (outline n o refs).holds m base own)
include h

theorem size_of_outline : n.size = refs.length + 2 := by
  obtain ⟨first, last, -, _, _, rfl, -, node, -⟩ := holds_outline.mp h
  rw [Node.size_of_packed node]
  simp

theorem childCount_of_outline : childCount n = refs.length := by
  rw [childCount, size_of_outline h, Nat.add_sub_cancel]

theorem offsets_of_outline : offsets m n = o := by
  obtain ⟨first, last, -, _, _, rfl, -, node, head⟩ := holds_outline.mp h
  have slot : n.get m 0 = first := Node.get_of_packed node (by simp)
  cases o with
  | none => simp [offsets, slot, head.2]
  | some o =>
      obtain ⟨rfl, _, ends⟩ := Assertion.fact_mul.mp head
      simp only [offsets, slot, ends.2.1.isRef, if_true]
      rw [Slot.toRef_ofRef ends.2.1.bound, ends.2.1.load]

theorem isInner_of_outline : isInner m n.ref = true := by
  obtain ⟨first, last, -, _, _, rfl, -, node, -⟩ := holds_outline.mp h
  exact Node.isInner_of_packed node

theorem load_of_outline : Node.load m n.ref = n := by
  obtain ⟨first, last, -, _, _, rfl, -, node, -⟩ := holds_outline.mp h
  exact node.2.1.load

end Outline

theorem child_of_outline (h : (outline n o (refs kids)).holds m base own) {i : Nat}
    (inside : i < kids.length) (bound : kids[i].1 < Store.addressSpace) :
    child m n i = kids[i].1 := by
  obtain ⟨first, last, -, _, _, rfl, -, node, -⟩ := holds_outline.mp h
  have slot : n.get m (i + 1) = Slot.ofRef kids[i].1 := by
    rw [Node.get_of_packed node (by simp; omega), getElem_slots (by simpa using inside)]
    simp [refs]
  rw [child, Node.getRef, slot, Slot.toRef_ofRef bound]

section Read

variable (h : (inner n o kids).holds m base own)
include h

theorem size_of_inner : n.size = kids.length + 2 := by
  rw [size_of_outline (outline_of_inner h), length_refs]

theorem childCount_of_inner : childCount n = kids.length := by
  rw [childCount_of_outline (outline_of_inner h), length_refs]

theorem total_of_inner (small : (values kids).length < Slot.countBound) :
    total m n = (values kids).length := by
  have size := size_of_inner h
  obtain ⟨first, x, y, rfl, -, node, -⟩ := h
  have last : n.get m (kids.length + 1) = Slot.tag (values kids).length := by
    rw [Node.get_of_packed node (by simp)]
    simp [slots]
  rw [total, size, show kids.length + 2 - 1 = kids.length + 1 from rfl, last, Slot.untag_tag small]

theorem child_of_inner {i : Nat} (inside : i < kids.length)
    (bound : kids[i].1 < Store.addressSpace) : child m n i = kids[i].1 :=
  child_of_outline (outline_of_inner h) inside bound

theorem offsets_of_inner : offsets m n = o := offsets_of_outline (outline_of_inner h)

theorem isInner_of_inner : n.isInner = true := by
  obtain ⟨first, x, y, rfl, -, node, -⟩ := h
  exact node.2.2.2.1.1

theorem size_of_offsets : o.all (fun o => o.size == kids.length - 1) = true := by
  obtain ⟨first, x, y, rfl, -, -, head⟩ := h
  cases o with
  | none => rfl
  | some o =>
      obtain ⟨-, _, -, -, -, ends⟩ := head
      simp [Node.size_of_packed ends]

theorem regular_of_inner (compact : o = none) : Regular (perChild m n) (sizes kids) := by
  subst compact
  obtain ⟨first, x, y, rfl, -, node, head⟩ := h
  have slot : n.get m 0 = first := Node.get_of_packed node (by simp)
  rw [perChild, slot]
  exact head.2.2

theorem endAt_of_inner {ends : Node} {i : Nat} (general : o = some ends)
    (inside : i + 1 < kids.length) (small : (values kids).length < Slot.countBound) :
    endAt m ends i = start (sizes kids) (i + 1) := by
  subst general
  obtain ⟨first, x, y, rfl, -, -, ⟨-, _, -, -, -, ends⟩⟩ := h
  have here : i < (Branch.ends (sizes kids)).length := by
    rw [length_ends, length_sizes]
    omega
  have below := start_le_sum (sizes kids) (i + 1)
  rw [sum_sizes] at below
  rw [endAt, Node.get_of_packed ends here, getElem_ends]
  exact Slot.toRef_ofRef (Nat.lt_trans (Nat.lt_of_le_of_lt below small) (by decide))

theorem childStart_of_inner {i : Nat} (inside : i < kids.length)
    (small : (values kids).length < Slot.countBound) :
    childStart m n o i = start (sizes kids) i := by
  cases i with
  | zero => simp [childStart]
  | succ i =>
      cases o with
      | none =>
          simp only [childStart, if_neg (Nat.succ_ne_zero i)]
          exact ((regular_of_inner h rfl).start (by simpa using inside)).symm
      | some o =>
          simp only [childStart, if_neg (Nat.succ_ne_zero i), Nat.add_sub_cancel]
          exact endAt_of_inner h rfl inside small

theorem locate_of_inner {before after : List (Ref × List V)} {k : Ref × List V} {x : Nat}
    (split : kids = before ++ k :: after) (full : Full kids)
    (small : (values kids).length < Slot.countBound) (lower : (values before).length ≤ x)
    (upper : x < (values before).length + k.2.length) :
    locate m n o x = (before.length, x - (values before).length) := by
  have inside : before.length < kids.length := by simp [split]
  have first := childStart_of_inner h inside small
  have count := childCount_of_inner h
  have parts : sizes kids = sizes before ++ k.2.length :: sizes after := by simp [split]
  rw [parts, start_append, start_of_length_le _ (by simp), sum_sizes, length_sizes, Nat.sub_self,
    start_zero, Nat.add_zero] at first
  have positive : ∀ b ∈ sizes before ++ k.2.length :: sizes after, 0 < b := by
    rw [← parts]
    exact full_iff_sizes.mp full
  rw [← sum_sizes] at lower upper
  cases o with
  | none =>
      have place : min (x / perChild m n) (childCount n - 1) = before.length := by
        obtain ⟨first, y, z, rfl, -, node, head⟩ := h
        have slot : n.get m 0 = first := Node.get_of_packed node (by simp)
        have regular := head.2.2
        rw [parts] at regular
        rw [perChild, slot, count, ← length_sizes, parts,
          regular_locate regular positive lower upper, length_sizes]
      simp only [locate, place, first]
  | some o =>
      have place : o.upperBound m (Int64.ofNat x) = before.length := by
        obtain ⟨first, y, z, rfl, -, node, ⟨-, _, -, -, -, ends⟩⟩ := h
        rw [parts] at ends
        rw [Node.upperBound, Node.size_of_packed ends, ← length_sizes before]
        apply upperBound_ends (fun i h => Node.get_of_packed ends h) _ lower upper
        rw [← parts, sum_sizes]
        exact Nat.lt_trans small (by decide)
      simp only [locate, place, first]

end Read

theorem insertionChild_of_inner {o : Node} {before after : List (Ref × List V)}
    {k : Ref × List V} {x : Nat} {m : Memory}
    (h : (inner n (some o) (before ++ k :: after)).holds m base own)
    (small : (values (before ++ k :: after)).length < Slot.countBound)
    (upper : x ≤ (values before).length + k.2.length) (first : x = 0 → before = [])
    (lower : 0 < x → (values before).length < x) :
    Tree.insertionChild m o x = (before.length, x - (values before).length) := by
  by_cases zero : x = 0
  · simp [Tree.insertionChild, zero, first zero]
  · obtain ⟨f, y, z, rfl, -, node, ⟨-, _, -, -, -, ends⟩⟩ := h
    rw [sizes_append, sizes_cons] at ends
    have place : o.lowerBound m (Int64.ofNat x) = before.length := by
      rw [Node.lowerBound, Node.size_of_packed ends, ← length_sizes before]
      apply lowerBound_ends (fun i h => Node.get_of_packed ends h) _
        (by simpa using lower (Nat.pos_of_ne_zero zero)) (by simpa using upper)
      rw [← sizes_cons, ← sizes_append, sum_sizes]
      exact Nat.lt_trans small (by decide)
    have start : (if before.length = 0 then 0 else endAt m o (before.length - 1)) =
        (values before).length := by
      cases before with
      | nil => rfl
      | cons b before =>
          rw [if_neg (by simp), endAt, Node.get_of_packed ends (by simp), getElem_ends, start_append,
            start_of_length_le _ (by simp), sum_sizes]
          simp only [length_sizes, List.length_cons, Nat.add_sub_cancel, Nat.sub_self, start_zero,
            Nat.add_zero]
          rw [values_append, List.length_append] at small
          exact Slot.toRef_ofRef (Nat.lt_trans (Nat.lt_of_le_of_lt (Nat.le_add_right _ _) small)
            (by decide))
    simp only [Tree.insertionChild, if_neg zero, place, start]

end ColumnStore.Branch
