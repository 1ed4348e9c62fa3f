import ColumnStore.Proofs.Pieces

set_option autoImplicit false

/-!
A visit of the leaves from a row on leaves out exactly those leaves of the tree that end before the
row.
-/
namespace ColumnStore.Tree

open Branch (inner values sizes child)

variable {L V : Type} [Leaf L V] [ListLeaf L] {m : Memory} {base : Nat} {own : Set Nat}
  {vs : List V} {kids : List (Ref × List V)} {n : Node} {depth place : Nat} {ls : List (L × Nat)}

theorem Leaves.ends (leaves : Leaves m base ls place vs) :
    ∀ e ∈ ls, e.2 + Leaf.size e.1 ≤ place + vs.length := by
  induction ls generalizing place vs with
  | nil => exact List.forall_mem_nil _
  | cons e ls ih =>
      obtain ⟨here, ws, rest, own, rfl, held, leaves⟩ := leaves
      rw [List.length_append, ← Nat.add_assoc]
      refine List.forall_mem_cons.mpr ⟨?_, ih leaves⟩
      rw [here, ListLeaf.size held]
      exact Nat.le_add_right _ _

/-- The visits from all rows, of leaves that hold the values from `place` on. Every leaf has an
element. -/
structure Visits (m : Memory) (base : Nat) (from' : Nat → List (L × Nat)) (place : Nat)
    (vs : List V) : Prop where
  leaves : Leaves m base (from' 0) place vs
  filled : ∀ e ∈ from' 0, 0 < Leaf.size e.1
  later : ∀ start < place + vs.length,
    from' start = (from' 0).filter fun e => start < e.2 + Leaf.size e.1

theorem visits_leaf {l : L} (held : (ListLeaf.holds l vs).holds m base own) (some : vs ≠ [])
    (place : Nat) :
    Visits m base (fun _ => [(l, place)]) place vs where
  leaves := ⟨rfl, vs, [], own, (List.append_nil _).symm, held, rfl⟩
  filled := by
    rw [List.forall_mem_singleton, ListLeaf.size held]
    exact List.length_pos_iff.mpr some
  later start before := by
    rw [List.filter_cons_of_pos, List.filter_nil]
    rwa [decide_eq_true_eq, ListLeaf.size held]

/-- Child after child, from the one around the row on. -/
theorem visits_children {f : Nat → Nat → List (L × Nat)} {start first : Nat}
    (each : ∀ c (inside : c < kids.length),
      Visits m base (f · c) (place + Branch.start (sizes kids) c) kids[c].2)
    (before : ∀ c < first, place + Branch.start (sizes kids) (c + 1) ≤ start)
    (behind : ∀ c, first ≤ c → c < kids.length → start < place + Branch.start (sizes kids) (c + 1)) :
    ((List.range kids.length).drop first).flatMap (f start) =
      ((List.range kids.length).flatMap (f 0)).filter fun e => start < e.2 + Leaf.size e.1 := by
  have next (c : Nat) (inside : c < kids.length) : place + Branch.start (sizes kids) (c + 1) =
      place + Branch.start (sizes kids) c + kids[c].2.length := by
    rw [Branch.start_succ (by simpa using inside), ← Nat.add_assoc]
    simp [sizes]
  have skipped : ((List.range kids.length).take first).flatMap (fun c =>
      (f 0 c).filter fun e => start < e.2 + Leaf.size e.1) = [] := by
    refine List.flatMap_eq_nil_iff.mpr fun c member => List.filter_eq_nil_iff.mpr fun e inside => ?_
    have small := List.mem_range.mp (List.mem_of_mem_take member)
    have early : c < first := by
      obtain ⟨i, here, rfl⟩ := List.getElem_of_mem member
      rw [List.length_take] at here
      rw [List.getElem_take, List.getElem_range]
      omega
    have ends := (each c small).leaves.ends e inside
    have := before c early
    rw [next c small] at this
    rw [decide_eq_true_eq]
    omega
  rw [List.filter_flatMap]
  nth_rewrite 2 [← List.take_append_drop first (List.range kids.length)]
  rw [List.flatMap_append, skipped, List.nil_append]
  refine List.flatMap_congr fun c member => ?_
  have small := List.mem_range.mp (List.mem_of_mem_drop member)
  have late : first ≤ c := by
    obtain ⟨i, here, rfl⟩ := List.getElem_of_mem member
    rw [List.getElem_drop, List.getElem_range]
    exact Nat.le_add_right _ _
  exact (each c small).later start (next c small ▸ behind c late small)

theorem start_kid (before after : List (Ref × List V)) :
    Branch.start (sizes (before ++ after)) before.length = (values before).length := by
  rw [Branch.sizes_append, Branch.start_append, Branch.start_of_length_le _ (by simp),
    Branch.sum_sizes]
  simp

theorem start_next_kid (before after : List (Ref × List V)) (k : Ref × List V) :
    Branch.start (sizes (before ++ k :: after)) (before.length + 1) =
      (values before).length + k.2.length := by
  have next := start_kid (before ++ [k]) after
  rw [List.append_assoc, List.singleton_append, List.length_append, List.length_singleton] at next
  rw [next]
  simp

/-- The leaves below an inner node. -/
def leavesBelow (L : Type) {V : Type} [Leaf L V] (m : Memory) (depth : Nat) (n : Node) (place start : Nat) :
    List (L × Nat) :=
  (Branch.leavesWithin m start depth n place).map fun e => (Leaf.load m e.1, e.2)

theorem leavesBelow_over (h : (overKids (treeAt L depth) n vs).holds m base own)
    (small : vs.length < Slot.countBound) (place : Nat) :
    Visits m base (leavesBelow L m (depth + 1) n place) place vs := by
  induction depth using Nat.strong_induction_on generalizing n vs own place with
  | _ depth ih =>
    -- No values are before row 0.
    obtain ⟨front, back, same, listed⟩ : ∃ front back, vs = front ++ back ∧
        LeavesFrom m base 0 (leavesBelow L m (depth + 1) n place 0) place front back :=
      leavesWithin_over h small place
    have none : front = [] := by
      by_contra some
      have := listed.before some
      have := List.length_pos_iff.mpr some
      omega
    subst none
    rw [List.nil_append] at same
    subst same
    have leaves := listed.leaves
    rw [List.length_nil, Nat.add_zero] at leaves
    obtain ⟨o, kids, rfl, some, full, h⟩ := holds_over.mp h
    obtain ⟨x, y, rfl, apart, node, below⟩ := id h
    have each (c : Nat) (inside : c < kids.length) : Visits m base
        (fun start => childLeaves L m start depth (child m n c) (place + Branch.childStart m n o c))
        (place + Branch.start (sizes kids) c) kids[c].2 := by
      have member : kids[c] ∈ kids := List.getElem_mem inside
      obtain ⟨own', kid⟩ := forest_mem member below
      rw [child_over h inside, Branch.childStart_of_inner node inside small]
      rcases treeAt_cases kid with leaf | ⟨depth', n', rfl, same, kid⟩
      · obtain ⟨l, found, held⟩ := holds_leaf.mp leaf
        have alone (start place : Nat) :
            childLeaves L m start depth kids[c].1 place = [(l, place)] := by
          rw [childLeaves, isInner_leaf leaf, ← found]
          simp [ListLeaf.load held]
        simp only [alone]
        exact visits_leaf held (full _ member) _
      · have inner := isInner_over kid
        have load := load_over kid
        rw [same] at inner load
        simp only [childLeaves, inner, load, if_true]
        exact ih depth' (Nat.lt_succ_self _) kid
          (Nat.lt_of_le_of_lt (length_le_values member) small) _
    have unfolded (start : Nat) (early : start < place + (values kids).length) :
        leavesBelow L m (depth + 1) n place start =
          ((List.range kids.length).drop
            (if start ≤ place then 0 else (Branch.locate m n o (start - place)).1)).flatMap fun c =>
              childLeaves L m start depth (child m n c) (place + Branch.childStart m n o c) := by
      rw [leavesBelow, Branch.leavesWithin, Branch.offsets_of_inner node,
        Branch.total_of_inner node small, Branch.childCount_of_inner node, if_neg (by omega),
        List.map_flatMap]
      rfl
    have filled : 0 < (values kids).length := by
      obtain ⟨k, later, rfl⟩ := List.exists_cons_of_ne_nil some
      have := List.length_pos_iff.mpr ((Branch.full_cons k later).mp full).1
      rw [Branch.values_cons, List.length_append]
      omega
    refine ⟨leaves, ?_, fun start early => ?_⟩
    · rw [unfolded 0 (by omega), if_pos (Nat.zero_le _), List.drop_zero]
      intro e inside
      obtain ⟨c, member, inside⟩ := List.mem_flatMap.mp inside
      exact (each c (List.mem_range.mp member)).filled e inside
    · obtain ⟨before, k, after, parts, lower, upper⟩ :=
        Branch.exists_kid (show start - place < (values kids).length by omega)
      rw [unfolded start early, unfolded 0 (by omega), first_child node full small parts lower upper,
        if_pos (Nat.zero_le _), List.drop_zero]
      have positive := Branch.full_iff_sizes.mp full
      refine visits_children each (fun c early => ?_) fun c late inside => ?_
      · have upto := Branch.start_mono (sizes kids) (show c + 1 ≤ before.length from early)
        have least := Branch.start_lt positive (Nat.succ_pos c)
          (by simpa using List.length_pos_iff.mpr some)
        rw [Branch.start_zero, Nat.succ_eq_add_one] at least
        rw [parts, start_kid, ← parts] at upto
        omega
      · have reached := Branch.start_mono (sizes kids) (show before.length + 1 ≤ c + 1 by omega)
        rw [parts, start_next_kid, ← parts] at reached
        omega

/-- The leaves hold the values in order, each with its first row, and a visit from any row goes
through those that do not end before the row. -/
theorem visits_of_holds {t : Tree L} (h : (holds t vs).holds m base own)
    (small : vs.length < Slot.countBound) : Leaves m base (t.leavesFrom m 0) 0 vs ∧
      (∀ e ∈ t.leavesFrom m 0, 0 < Leaf.size e.1) ∧ ∀ start,
        t.leavesFrom m start = (t.leavesFrom m 0).filter fun e => start < e.2 + Leaf.size e.1 := by
  cases root : t.root with
  | leaf l =>
      have leaf := leafAt_of_holds h root
      have size := ListLeaf.size leaf
      simp only [leavesFrom, root, size]
      by_cases none : vs = []
      · simp [none, Leaves]
      · have visits := visits_leaf leaf none 0
        rw [if_neg (by simpa using none)]
        refine ⟨visits.leaves, visits.filled, fun start => ?_⟩
        by_cases past : vs.length ≤ start
        · simp [past, size]
        · rw [if_neg past]
          exact visits.later start (by omega)
  | inner n =>
      obtain ⟨below, bound, h⟩ := over_of_holds h root
      have visits := leavesBelow_over h small 0
      have unfolded (start : Nat) : t.leavesFrom m start = leavesBelow L m (below + 1) n 0 start := by
        simp only [leavesFrom, root, Branch.leavesFrom, bound, leavesBelow]
      simp only [unfolded]
      refine ⟨visits.leaves, visits.filled, fun start => ?_⟩
      by_cases past : vs.length ≤ start
      · -- Past the last row there is nothing to visit.
        have ends := visits.leaves.ends
        have none : leavesBelow L m (below + 1) n 0 start = [] := by
          obtain ⟨o, kids, rfl, some, full, h⟩ := holds_over.mp h
          obtain ⟨x, y, rfl, apart, node, -⟩ := id h
          rw [leavesBelow, Branch.leavesWithin, Branch.total_of_inner node small, if_pos (by omega),
            List.map_nil]
        rw [none, eq_comm, List.filter_eq_nil_iff]
        intro e inside
        have := ends e inside
        rw [decide_eq_true_eq]
        omega
      · exact visits.later start (by omega)

end ColumnStore.Tree
