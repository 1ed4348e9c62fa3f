import ColumnStore.Proofs.TreeRead

set_option autoImplicit false

/-!
A tree whose stored numbers are not known, and what the check says about them: if it succeeds then
they are those of the leaves.
-/
namespace ColumnStore

namespace Branch

open Node (packed)

variable {V : Type} {m : Memory} {base : Nat} {own : Set Nat} {n : Node} {o : Option Node}
  {kids : List (Ref × List V)}

theorem checkChildren_some {startOf : Nat → Nat} {i sum total : Nat} {found : List (Option Nat)}
    (run : checkChildren startOf i sum found = some total) :
    ∃ sizes, found = sizes.map some ∧ (∀ a ∈ sizes, 0 < a) ∧ total = sum + sizes.sum ∧
      ∀ j < sizes.length, startOf (i + j) = sum + start sizes j := by
  induction found generalizing i sum with
  | nil =>
      rw [checkChildren, Option.some_inj] at run
      exact ⟨[], rfl, by simp, run.symm, by simp⟩
  | cons size found ih =>
      simp only [checkChildren, Option.bind_eq_bind, Option.bind_eq_some_iff] at run
      obtain ⟨a, rfl, run⟩ := run
      by_cases next : 0 < a ∧ startOf i = sum
      · rw [if_pos next] at run
        obtain ⟨sizes, rfl, positive, rfl, starts⟩ := ih run
        refine ⟨a :: sizes, rfl, ?_, by simp [Nat.add_assoc], ?_⟩
        · rw [List.forall_mem_cons]
          exact ⟨next.1, positive⟩
        · intro j inside
          cases j with
          | zero => simpa using next.2
          | succ j =>
              have here := starts j (Nat.lt_of_succ_lt_succ inside)
              rw [start_cons, ← Nat.add_assoc sum, ← here, Nat.add_right_comm i]
              rfl
      · rw [if_neg next] at run
        cases run

/-! ### Stored numbers -/

/-- The elements in front of each child, and all of them, are as the sizes of the children say. -/
structure Numbers (m : Memory) (n : Node) (o : Option Node) (sizes : List Nat) : Prop where
  starts : ∀ i < sizes.length, childStart m n o i = start sizes i
  total : total m n = sizes.sum
  ends : o.all (fun o => o.size == sizes.length - 1) = true

theorem Numbers.regular {sizes : List Nat} (numbers : Numbers m n none sizes) :
    Regular (perChild m n) sizes := by
  have starts (i : Nat) (inside : i < sizes.length) : start sizes i = i * perChild m n := by
    rw [← numbers.starts i inside, childStart]
    split
    next zero => rw [zero, Nat.zero_mul]
    next => rfl
  intro a inside
  obtain ⟨i, last, rfl⟩ := List.getElem_of_mem inside
  rw [List.length_dropLast] at last
  -- Child `i + 1` starts one full child behind child `i`.
  have next := starts (i + 1) (by omega)
  rw [start_succ (by omega), starts i (by omega), Nat.succ_mul] at next
  rw [List.getElem_dropLast]
  exact Nat.add_left_cancel next

theorem Numbers.list {sizes : List Nat} {o : Node} (numbers : Numbers m n (some o) sizes) :
    o.toList m = Branch.ends sizes := by
  have size : o.size = sizes.length - 1 := by simpa using numbers.ends
  apply List.ext_getElem
  · rw [Node.length_toList, length_ends, size]
  intro i _ inside
  rw [length_ends] at inside
  have here := numbers.starts (i + 1) (by omega)
  rw [childStart, if_neg (Nat.succ_ne_zero i)] at here
  rw [getElem_ends, ← here]
  simp only [Node.toList, List.getElem_map, List.getElem_range, endAt, Nat.add_sub_cancel]
  exact (Slot.ofRef_toRef _).symm

theorem map_range_eq_some {α : Type} {f : Nat → Option α} {count : Nat} {found : List α}
    (list : (List.range count).map f = found.map some) :
    found.length = count ∧ ∀ i (inside : i < found.length), f i = some found[i] := by
  have length := congrArg List.length list
  rw [List.length_map, List.length_range, List.length_map] at length
  refine ⟨length.symm, fun i inside => ?_⟩
  have here := congrArg (·[i]?) list
  simpa [length ▸ inside, inside] using here

/-- A check that succeeds has found a size for each child, and the node stores the right numbers for
these sizes. -/
theorem numbers_of_check {leafSize : Ref → Nat} {fuel total : Nat} {refs : List Ref}
    (h : (outline n o refs).holds m base own)
    (run : checkWithin m leafSize (fuel + 1) n = some total) :
    ∃ found : List Nat, found.length = refs.length ∧ 0 < refs.length ∧ (∀ a ∈ found, 0 < a) ∧
      total = found.sum ∧ Numbers m n o found ∧
      ∀ i (inside : i < found.length),
        (if isInner m (child m n i) then checkWithin m leafSize fuel (.load m (child m n i))
          else some (leafSize (child m n i))) = some found[i] := by
  simp only [checkWithin, offsets_of_outline h, childCount_of_outline h, Option.bind_eq_bind,
    Option.bind_eq_some_iff] at run
  obtain ⟨sum, checked, run⟩ := run
  obtain ⟨found, list, positive, rfl, starts⟩ := checkChildren_some checked
  obtain ⟨length, found_at⟩ := map_range_eq_some list
  by_cases agree : n.isInner ∧ 1 ≤ refs.length ∧ 0 + found.sum = Branch.total m n ∧
      o.all (fun o => o.size == refs.length - 1)
  · rw [if_pos agree, Option.some_inj, Nat.zero_add] at run
    obtain ⟨-, many, whole, ends⟩ := agree
    have numbers : Numbers m n o found := {
      starts := fun i inside => by
        have here := starts i inside
        rwa [Nat.zero_add, Nat.zero_add] at here
      total := by rw [← whole, Nat.zero_add]
      ends := by rwa [length] }
    exact ⟨found, length, many, positive, run.symm, numbers, found_at⟩
  · rw [if_neg agree] at run
    cases run

/-- With the right numbers the outline is an inner node. -/
theorem inner_of_outline (h : (outline n o (refs kids)).holds m base own) (some : 0 < (values kids).length)
    (small : (values kids).length < Slot.countBound) (numbers : Numbers m n o (sizes kids)) :
    (inner n o kids).holds m base own := by
  have size := size_of_outline h
  obtain ⟨first, last, odd, _, _, rfl, apart, node, head⟩ := holds_outline.mp h
  have count : n.get m (n.size - 1) = last := by
    rw [size, Node.get_of_packed node (by simp)]
    simp
  have known : last = Slot.tag (values kids).length := by
    refine Slot.eq_tag ?_ odd some small
    rw [← count, ← sum_sizes]
    exact numbers.total
  subst known
  refine ⟨first, _, _, rfl, apart, node, ?_⟩
  cases o with
  | none =>
      obtain ⟨rfl, scalar⟩ := head
      refine ⟨rfl, scalar, ?_⟩
      have slot : n.get m 0 = first := Node.get_of_packed node (by simp)
      rw [← slot]
      exact numbers.regular
  | some o =>
      obtain ⟨place, es, ends⟩ := Assertion.fact_mul.mp head
      refine Assertion.fact_mul.mpr ⟨place, ?_⟩
      have list := ends.2.2.2.2
      rw [numbers.list] at list
      rwa [list]

end Branch

namespace Tree

open Branch (Full outline values sizes refs isInner childCount child)

variable {L V : Type} [Leaf L V] [ListLeaf L] {m : Memory} {base : Nat} {own : Set Nat}
  {r : Ref} {vs : List V} {kids : List (Ref × List V)} {n : Node} {depth : Nat}

/-- An inner node over what is below its children, whatever numbers it stores. -/
def outlineOver (below : Ref → List V → Assertion) (n : Node) (vs : List V) : Assertion :=
  .any fun p : Option Node × List (Ref × List V) =>
    .fact (values p.2 = vs) * (outline n p.1 (refs p.2) * forest below p.2)

def outlineAt (L : Type) {V : Type} [Leaf L V] [ListLeaf L] : Nat → Ref → List V → Assertion
  | 0, r, vs => leafHolds L r vs
  | depth + 1, r, vs => .either (leafHolds L r vs)
      (.any fun n : Node => .fact (n.ref = r) * outlineOver (outlineAt L depth) n vs)

/-- A tree with the values of its leaves, whatever numbers its inner nodes store. -/
def outlined (t : Tree L) (vs : List V) : Assertion :=
  match t.root with
  | .leaf l => ListLeaf.holds l vs
  | .inner n => .any fun depth => outlineOver (outlineAt L depth) n vs

theorem holds_outlineOver {below : Ref → List V → Assertion} :
    (outlineOver below n vs).holds m base own ↔
      ∃ o kids, values kids = vs ∧ (outline n o (refs kids) * forest below kids).holds m base own := by
  constructor
  · rintro ⟨⟨o, kids⟩, h⟩
    obtain ⟨whole, h⟩ := Assertion.fact_mul.mp h
    exact ⟨o, kids, whole, h⟩
  · rintro ⟨o, kids, whole, h⟩
    exact ⟨(o, kids), Assertion.fact_mul.mpr ⟨whole, h⟩⟩

theorem outlineAt_cases (h : (outlineAt L depth r vs).holds m base own) :
    (leafHolds L r vs).holds m base own ∨ ∃ below n, depth = below + 1 ∧ n.ref = r ∧
      (outlineOver (outlineAt L below) n vs).holds m base own := by
  cases depth with
  | zero => exact .inl h
  | succ depth =>
      rcases h with h | ⟨n, h⟩
      · exact .inl h
      · obtain ⟨same, h⟩ := Assertion.fact_mul.mp h
        exact .inr ⟨depth, n, rfl, same, h⟩

theorem isInner_outlineOver {below : Ref → List V → Assertion}
    (h : (outlineOver below n vs).holds m base own) : isInner m n.ref = true ∧ Node.load m n.ref = n := by
  obtain ⟨o, kids, -, _, _, rfl, -, node, -⟩ := holds_outlineOver.mp h
  exact ⟨Branch.isInner_of_outline node, Branch.load_of_outline node⟩

theorem ref_outlineAt (h : (outlineAt L depth r vs).holds m base own) : r < Store.addressSpace := by
  rcases outlineAt_cases h with leaf | ⟨_, n, -, rfl, tree⟩
  · exact (ref_treeAt (treeAt_of_leaf depth leaf)).2
  · obtain ⟨o, kids, -, _, _, rfl, -, node, -⟩ := holds_outlineOver.mp tree
    obtain ⟨_, _, -, _, _, rfl, -, node, -⟩ := Branch.holds_outline.mp node
    exact node.2.1.bound

theorem child_outlineOver {o : Option Node}
    (h : (outline n o (refs kids) * forest (outlineAt L depth) kids).holds m base own)
    {i : Nat} (inside : i < kids.length) : child m n i = kids[i].1 := by
  obtain ⟨x, y, rfl, -, node, below⟩ := h
  obtain ⟨_, kid⟩ := forest_mem (List.getElem_mem inside) below
  exact Branch.child_of_outline node inside (ref_outlineAt kid)

/-- What the check finds is what is there. -/
theorem over_of_check {fuel total : Nat} (h : (outlineOver (outlineAt L depth) n vs).holds m base own)
    (small : vs.length < Slot.countBound)
    (run : Branch.checkWithin m (fun r => Leaf.size (Leaf.load m r : L)) fuel n = some total) :
    total = vs.length ∧ (overKids (treeAt L depth) n vs).holds m base own := by
  induction depth using Nat.strong_induction_on generalizing fuel n vs own total with
  | _ depth ih =>
    cases fuel with
    | zero => cases run
    | succ fuel =>
      obtain ⟨o, kids, rfl, parts⟩ := holds_outlineOver.mp h
      obtain ⟨x, y, rfl, apart, node, below⟩ := id parts
      obtain ⟨found, count, many, positive, rfl, numbers, checked⟩ := Branch.numbers_of_check node run
      rw [Branch.length_refs] at count many
      -- A child has the size that was found for it: a leaf says so, and an inner node is checked.
      have each (i : Nat) (here : i < found.length) (inside : i < kids.length) (own : Set Nat)
          (kid : (outlineAt L depth kids[i].1 kids[i].2).holds m base own) :
          found[i] = kids[i].2.length ∧ (treeAt L depth kids[i].1 kids[i].2).holds m base own := by
        have check := checked i here
        rw [child_outlineOver parts inside] at check
        rcases outlineAt_cases kid with leaf | ⟨depth', n', rfl, place, kid⟩
        · obtain ⟨l, place, held⟩ := holds_leaf.mp leaf
          rw [isInner_leaf leaf, if_neg Bool.false_ne_true, Option.some_inj, ← place,
            ListLeaf.load held, ListLeaf.size held] at check
          exact ⟨check.symm, treeAt_of_leaf depth leaf⟩
        · obtain ⟨inner, load⟩ := isInner_outlineOver kid
          rw [place] at inner load
          rw [inner, if_pos rfl, load] at check
          have shorter := Nat.lt_of_le_of_lt (length_le_values (List.getElem_mem inside)) small
          obtain ⟨size, tree⟩ := ih depth' (Nat.lt_succ_self _) kid shorter check
          exact ⟨size, holds_treeAt_succ.mpr (.inr ⟨n', place, tree⟩)⟩
      -- So the sizes that were found are those of the children.
      have same : found = sizes kids := by
        apply List.ext_getElem (by rw [count, Branch.length_sizes])
        intro i here _
        have inside : i < kids.length := count ▸ here
        obtain ⟨_, kid⟩ := forest_mem (List.getElem_mem inside) below
        rw [(each i here inside _ kid).1]
        simp [sizes]
      subst same
      have full : Full kids := Branch.full_iff_sizes.mpr positive
      obtain ⟨k, rest, rfl⟩ := List.exists_cons_of_length_pos many
      have some : 0 < (values (k :: rest)).length := by
        rw [Branch.values_cons, List.length_append]
        exact Nat.add_pos_left (List.length_pos_iff.mpr (full k (by simp))) _
      have inner := Branch.inner_of_outline node some small numbers
      refine ⟨Branch.sum_sizes _, holds_over.mpr ⟨o, _, rfl, List.cons_ne_nil _ _, full, x, y, rfl,
        apart, inner, forest_mono (fun kid inside own held => ?_) below⟩⟩
      obtain ⟨i, here, rfl⟩ := List.getElem_of_mem inside
      exact (each i (count ▸ here) here own held).2

theorem outlineOver_of_over {below below' : Ref → List V → Assertion}
    (each : ∀ {r vs} own, (below r vs).holds m base own → (below' r vs).holds m base own)
    (h : (overKids below n vs).holds m base own) : (outlineOver below' n vs).holds m base own := by
  obtain ⟨o, kids, whole, -, -, h⟩ := holds_over.mp h
  exact holds_outlineOver.mpr ⟨o, kids, whole, Assertion.holds_mul_mono
    (fun _ => Branch.outline_of_inner) (fun _ => forest_mono fun _ _ => each) h⟩

theorem outlineAt_of_treeAt (h : (treeAt L depth r vs).holds m base own) :
    (outlineAt L depth r vs).holds m base own := by
  induction depth generalizing r vs own with
  | zero => exact h
  | succ depth ih =>
      rcases holds_treeAt_succ.mp h with leaf | ⟨n, place, tree⟩
      · exact .inl leaf
      · exact .inr ⟨n, Assertion.fact_mul.mpr ⟨place, outlineOver_of_over (fun _ => ih) tree⟩⟩

/-- A tree holds the values of its leaves if and only if it verifies. -/
theorem holds_iff_verify {t : Tree L} (small : vs.length < Slot.countBound) :
    (holds t vs).holds m base own ↔ (outlined t vs).holds m base own ∧ t.verify m = true := by
  constructor
  · intro h
    refine ⟨?_, verify_of_holds h small⟩
    cases root : t.root with
    | leaf l =>
        rw [outlined, root]
        exact leafAt_of_holds h root
    | inner n =>
        obtain ⟨below, -, h⟩ := over_of_holds h root
        rw [outlined, root]
        exact ⟨below, outlineOver_of_over (fun _ => outlineAt_of_treeAt) h⟩
  · rintro ⟨h, verifies⟩
    obtain ⟨root, _⟩ := t
    cases root with
    | leaf l => exact h
    | inner n =>
        obtain ⟨depth, h⟩ := h
        exact ⟨depth, (over_of_check h small (beq_iff_eq.mp verifies)).2⟩

end Tree

end ColumnStore
