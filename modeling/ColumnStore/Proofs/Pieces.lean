import ColumnStore.Proofs.TreeRead
import ColumnStore.Tree.Pieces

set_option autoImplicit false

/-!
A range of a tree goes through its leaves in order: the pieces are the rows of the range, and each
piece lies in a leaf that holds these rows.
-/
namespace ColumnStore

namespace Tree

open Branch (inner values sizes isInner childCount child)

variable {L V : Type} [Leaf L V] [ListLeaf L] {m : Memory} {base : Nat} {own : Set Nat} {vs ws : List V}
  {kids : List (Ref × List V)} {n : Node} {depth start stop place : Nat} {ls ls' : List (L × Nat)}

/-- Leaves that hold the values one after the other, each with the place of its first value. -/
def Leaves (m : Memory) (base : Nat) : List (L × Nat) → Nat → List V → Prop
  | [], _, vs => vs = []
  | e :: ls, place, vs => e.2 = place ∧ ∃ ws rest own, vs = ws ++ rest ∧
      (ListLeaf.holds e.1 ws).holds m base own ∧ Leaves m base ls (place + ws.length) rest

theorem Leaves.append (first : Leaves m base ls place vs)
    (next : Leaves m base ls' (place + vs.length) ws) :
    Leaves m base (ls ++ ls') place (vs ++ ws) := by
  induction ls generalizing place vs with
  | nil =>
      subst first
      exact next
  | cons e ls ih =>
      obtain ⟨here, us, rest, own, rfl, held, first⟩ := first
      refine ⟨here, us, rest ++ ws, own, List.append_assoc .., held, ih first ?_⟩
      rwa [List.length_append, ← Nat.add_assoc] at next

/-- The leaves that end behind `start`. The values before these leaves are before `start`. -/
structure LeavesFrom (m : Memory) (base start : Nat) (ls : List (L × Nat)) (place : Nat)
    (front back : List V) : Prop where
  leaves : Leaves m base ls (place + front.length) back
  before : front ≠ [] → place + front.length ≤ start
  behind : ∀ e ∈ ls, start < e.2 + Leaf.size e.1

/-- The leaves of the children from one on that ends behind `start`. -/
theorem leavesFrom_children {f : Nat → List (L × Nat)} {done rest : List (Ref × List V)}
    (each : ∀ done k rest, kids = done ++ k :: rest →
      start < place + (values done).length + k.2.length → ∃ front back, k.2 = front ++ back ∧
        LeavesFrom m base start (f done.length) (place + (values done).length) front back)
    (parts : kids = done ++ rest)
    (first : ∀ k later, rest = k :: later → start < place + (values done).length + k.2.length) :
    ∃ front back, values rest = front ++ back ∧
      LeavesFrom m base start (((List.range kids.length).drop done.length).flatMap f)
        (place + (values done).length) front back := by
  induction rest generalizing done with
  | nil =>
      have whole : done.length = kids.length := by simp [parts]
      refine ⟨[], [], rfl, ?_⟩
      rw [whole, List.drop_eq_nil_of_le (by simp)]
      exact ⟨rfl, fun some => absurd rfl some, List.forall_mem_nil _⟩
  | cons k later ih =>
      have ends := first k later rfl
      obtain ⟨front, back, same, here⟩ := each done k later parts ends
      have next : place + (values (done ++ [k])).length =
          place + (values done).length + k.2.length := by
        simp [Nat.add_assoc]
      have parts' : kids = done ++ [k] ++ later := by simp [parts]
      obtain ⟨front', back', same', there⟩ := ih parts' fun k' _ _ => by rw [next]; omega
      -- The later children start behind `start`.
      have none : front' = [] := by
        by_contra some
        have := there.before some
        omega
      subst none
      rw [List.nil_append] at same'
      have inside : done.length < (List.range kids.length).length := by simp [parts]
      refine ⟨front, back ++ back', ?_, ?_⟩
      · rw [Branch.values_cons, same, same', List.append_assoc]
      · rw [List.drop_eq_getElem_cons inside, List.flatMap_cons, List.getElem_range]
        rw [List.length_append, List.length_singleton, next] at there
        refine ⟨here.leaves.append ?_, here.before, ?_⟩
        · have leaves := there.leaves
          rwa [same, List.length_append, List.length_nil, Nat.add_zero, ← Nat.add_assoc] at leaves
        · exact List.forall_mem_append.mpr ⟨here.behind, there.behind⟩

/-- The first child to look at is the one around `start`. -/
theorem first_child {o : Option Node} {before after : List (Ref × List V)} {k : Ref × List V}
    (node : (inner n o kids).holds m base own) (full : Branch.Full kids)
    (small : (values kids).length < Slot.countBound) (parts : kids = before ++ k :: after)
    (lower : (values before).length ≤ start - place)
    (upper : start - place < (values before).length + k.2.length) :
    (if start ≤ place then 0 else (Branch.locate m n o (start - place)).1) = before.length := by
  split
  next early =>
    have none : values before = [] := List.length_eq_zero_iff.mp (by omega)
    cases before with
    | nil => rfl
    | cons k' before =>
        rw [parts, List.cons_append, Branch.full_cons] at full
        exact absurd (List.append_eq_nil_iff.mp none).1 full.1
  next late => rw [Branch.locate_of_inner node parts full small lower upper]

/-- The leaves below one child that end behind `start`. -/
def childLeaves (L : Type) {V : Type} [Leaf L V] (m : Memory) (start depth : Nat) (r : Ref)
    (place : Nat) : List (L × Nat) :=
  (if isInner m r then Branch.leavesWithin m start depth (.load m r) place else [(r, place)]).map
    fun e => (Leaf.load m e.1, e.2)

theorem leavesWithin_over (h : (overKids (treeAt L depth) n vs).holds m base own)
    (small : vs.length < Slot.countBound) (place : Nat) :
    ∃ front back, vs = front ++ back ∧ LeavesFrom m base start
      ((Branch.leavesWithin m start (depth + 1) n place).map fun e => ((Leaf.load m e.1 : L), e.2))
      place front back := by
  induction depth using Nat.strong_induction_on generalizing n vs own place with
  | _ depth ih =>
    obtain ⟨o, kids, rfl, some, full, h⟩ := holds_over.mp h
    obtain ⟨x, y, rfl, apart, node, below⟩ := id h
    rw [Branch.leavesWithin, Branch.offsets_of_inner node, Branch.total_of_inner node small,
      Branch.childCount_of_inner node]
    by_cases past : place + (values kids).length ≤ start
    · rw [if_pos past]
      exact ⟨values kids, [], (List.append_nil _).symm, rfl, fun _ => past, List.forall_mem_nil _⟩
    · rw [if_neg past, List.map_flatMap]
      have each (done : List (Ref × List V)) (k : Ref × List V) (rest : List (Ref × List V))
          (parts : kids = done ++ k :: rest)
          (behind : start < place + (values done).length + k.2.length) :
          ∃ front back, k.2 = front ++ back ∧ LeavesFrom m base start
            (childLeaves L m start depth (child m n done.length)
              (place + Branch.childStart m n o done.length))
            (place + (values done).length) front back := by
        have here : done.length < kids.length := by simp [parts]
        have at_ref : child m n done.length = k.1 := by
          rw [child_over h here]
          simp [parts]
        have starts : Branch.childStart m n o done.length = (values done).length := by
          rw [Branch.childStart_of_inner node here small, parts, Branch.sizes_append,
            Branch.start_append, Branch.start_of_length_le _ (by simp), Branch.sum_sizes]
          simp
        have inside : k ∈ kids := by simp [parts]
        obtain ⟨own', kid⟩ := forest_mem inside below
        rw [at_ref, starts]
        rcases treeAt_cases kid with leaf | ⟨depth', n', rfl, same, kid⟩
        · obtain ⟨l, found, held⟩ := holds_leaf.mp leaf
          have alone (place : Nat) : childLeaves L m start depth k.1 place = [(l, place)] := by
            rw [childLeaves, isInner_leaf leaf, ← found]
            simp [ListLeaf.load held]
          rw [alone]
          refine ⟨[], k.2, rfl, ⟨rfl, k.2, [], own', (List.append_nil _).symm, held, rfl⟩,
            fun some => absurd rfl some, List.forall_mem_singleton.mpr ?_⟩
          rwa [ListLeaf.size held]
        · have inner := isInner_over kid
          have load := load_over kid
          rw [same] at inner load
          rw [childLeaves, inner, load, if_pos rfl]
          have shorter := Nat.lt_of_le_of_lt (length_le_values inside) small
          exact ih depth' (Nat.lt_succ_self _) kid shorter _
      have filled : 0 < (values kids).length := by
        obtain ⟨k, later, rfl⟩ := List.exists_cons_of_ne_nil some
        have := List.length_pos_iff.mpr ((Branch.full_cons k later).mp full).1
        rw [Branch.values_cons, List.length_append]
        omega
      obtain ⟨before, k, after, parts, lower, upper⟩ :=
        Branch.exists_kid (show start - place < (values kids).length by omega)
      rw [first_child node full small parts lower upper]
      obtain ⟨front, back, same, listed⟩ := leavesFrom_children (f := fun c =>
        childLeaves L m start depth (child m n c) (place + Branch.childStart m n o c)) each parts (by
          intro k' later same
          obtain ⟨rfl, rfl⟩ := List.cons.inj same
          omega)
      refine ⟨values before ++ front, back, ?_, ?_, ?_, listed.behind⟩
      · rw [parts, Branch.values_append, same, List.append_assoc]
      · have leaves := listed.leaves
        rwa [Nat.add_assoc, ← List.length_append] at leaves
      · intro some
        rw [List.length_append, ← Nat.add_assoc]
        by_cases none : front = []
        · have : 0 < (values before).length := by
            rw [none, List.append_nil] at some
            exact List.length_pos_iff.mpr some
          rw [none, List.length_nil]
          omega
        · exact listed.before none

/-- The leaves from a row on hold the values from there on, and some before them in the first
leaf. -/
theorem leavesFrom_of_holds {t : Tree L} (h : (holds t vs).holds m base own)
    (small : vs.length < Slot.countBound) (start : Nat) :
    ∃ front back, vs = front ++ back ∧
      LeavesFrom m base start (t.leavesFrom m start) 0 front back := by
  cases root : t.root with
  | leaf l =>
      have leaf := leafAt_of_holds h root
      have size := ListLeaf.size leaf
      simp only [leavesFrom, root, size]
      split
      next past =>
        exact ⟨vs, [], (List.append_nil _).symm, rfl, fun _ => by omega, List.forall_mem_nil _⟩
      next inside =>
        refine ⟨[], vs, rfl, ⟨rfl, vs, [], own, (List.append_nil _).symm, leaf, rfl⟩,
          fun some => absurd rfl some, ?_⟩
        rw [List.forall_mem_singleton, size]
        omega
  | inner n =>
      obtain ⟨below, bound, h⟩ := over_of_holds h root
      simp only [leavesFrom, root, Branch.leavesFrom, bound]
      exact leavesWithin_over h small 0

end Tree

/-! ### Pieces -/

namespace Piece

variable {L V : Type} [Leaf L V] [ListLeaf L]

/-- The rows that a piece stands for. -/
def rows (p : Piece L) : List Nat := List.range' (p.offset + p.start) (p.stop - p.start)

/-- A piece lies in a leaf, and the values of the leaf are those from the leaf's first row on. -/
def Lies (m : Memory) (base : Nat) (vs : List V) (p : Piece L) : Prop :=
  ∃ ws own, (ListLeaf.holds p.leaf ws).holds m base own ∧ p.stop ≤ ws.length ∧
    ∀ i < ws.length, vs[p.offset + i]? = ws[i]?

end Piece

namespace Tree

variable {L V : Type} [Leaf L V] [ListLeaf L] {m : Memory} {base : Nat} {own : Set Nat}
  {vs front back : List V} {start stop place : Nat} {ls : List (L × Nat)}

theorem cut_rows (leaves : Leaves m base ls place back) (parts : vs = front ++ back)
    (here : place = front.length) (behind : ∀ e ∈ ls, start < e.2 + Leaf.size e.1)
    (some : max start place < stop) (inside : stop ≤ vs.length) :
    (cut start stop ls).flatMap Piece.rows = List.range' (max start place) (stop - max start place) ∧
      ∀ p ∈ cut start stop ls, p.Lies m base vs := by
  induction ls generalizing place front back with
  | nil =>
      subst leaves parts
      rw [List.append_nil] at inside
      omega
  | cons e ls ih =>
      obtain ⟨leaf, offset⟩ := e
      obtain ⟨same, ws, rest, own, rfl, held, leaves⟩ := leaves
      obtain ⟨ends, behind⟩ := List.forall_mem_cons.mp behind
      have size := ListLeaf.size held
      simp only at same ends held size
      subst same
      rw [size] at ends
      have lies : Piece.Lies m base vs ⟨leaf, offset, start - offset, min (stop - offset) ws.length⟩ := by
        refine ⟨ws, own, held, Nat.min_le_right _ _, fun i here' => ?_⟩
        rw [parts, here, List.getElem?_append_right (Nat.le_add_right _ _), Nat.add_sub_cancel_left,
          List.getElem?_append_left here']
      have from_start : offset + (start - offset) = max start offset := by omega
      rw [cut, size]
      split
      next more =>
        have parts' : vs = front ++ ws ++ rest := by simp [parts]
        obtain ⟨rows, lie⟩ := ih leaves parts' (by simp [here]) behind (by omega)
        refine ⟨?_, List.forall_mem_cons.mpr ⟨lies, lie⟩⟩
        have next : max start (offset + ws.length) = offset + ws.length := by omega
        have to_end : min (stop - offset) ws.length - (start - offset) =
            offset + ws.length - max start offset := by omega
        have continued : offset + ws.length =
            max start offset + (offset + ws.length - max start offset) := by omega
        rw [List.flatMap_cons, rows, Piece.rows, from_start, to_end, next]
        nth_rewrite 2 [continued]
        rw [List.range'_append_1]
        congr 1
        omega
      next last =>
        refine ⟨?_, List.forall_mem_cons.mpr ⟨lies, List.forall_mem_nil _⟩⟩
        have to_stop : min (stop - offset) ws.length - (start - offset) =
            stop - max start offset := by omega
        rw [List.flatMap_cons, List.flatMap_nil, List.append_nil, Piece.rows, from_start, to_stop]

/-- The pieces of a range are its rows in order. -/
theorem pieces_of_holds {t : Tree L} (h : (holds t vs).holds m base own)
    (small : vs.length < Slot.countBound) (start : Nat) (stop : Option Nat) :
    (t.pieces m start stop).flatMap Piece.rows =
        List.range' start (Node.stopOf vs.length stop - start) ∧
      ∀ p ∈ t.pieces m start stop, p.Lies m base vs := by
  have bound : t.stopOf m stop = Node.stopOf vs.length stop := by
    rw [stopOf, size_of_holds h small]
  rw [pieces, bound]
  split
  next some =>
    have inside : Node.stopOf vs.length stop ≤ vs.length := Nat.min_le_right _ _
    obtain ⟨front, back, parts, listed⟩ := leavesFrom_of_holds h small start
    have early : max start front.length = start := by
      by_cases none : front = []
      · simp [none]
      · have := listed.before none
        omega
    have leaves := listed.leaves
    rw [Nat.zero_add] at leaves
    have rows := cut_rows leaves parts rfl listed.behind (early.symm ▸ some) inside
    rwa [early] at rows
  next none =>
    rw [Nat.sub_eq_zero_of_le (Nat.not_lt.mp none)]
    exact ⟨rfl, List.forall_mem_nil _⟩

end Tree

end ColumnStore
