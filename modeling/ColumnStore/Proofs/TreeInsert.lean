import ColumnStore.Proofs.TreeRead

set_option autoImplicit false

/-!
Insertion into a tree. Either the tree grows in place or it splits, and then the two parts together
hold the list with the new value.
-/
namespace ColumnStore.Tree

open Branch (Full inner values sizes isInner child childCount)

variable {L V : Type} [Leaf L V] [EditableLeaf L] {s s' : Store} {R : Assertion} {r : Ref}
  {vs ws : List V} {v : V} {n n' : Node} {l l' : L} {depth fuel least maxNodeSize : Nat}
  {i : Option Nat} {split : Option Split} {b : Build}

theorem insertIdx_eq {i : Nat} (inside : i ≤ vs.length) :
    vs.insertIdx i v = vs.take i ++ v :: vs.drop i := by
  have parts := Branch.insertIdx_mid (vs.take i) (vs.drop i) v
  rwa [List.take_append_drop, List.length_take, Nat.min_eq_left inside] at parts

/-- What an insertion leaves: the list `new`, or a left part and a sibling with the right part. An
append leaves the old list on the left. -/
def Inserted (s : Store) (here : List V → Assertion) (sibling : Ref → List V → Assertion)
    (append : Prop) (old new : List V) (R : Assertion) : Option Split → Prop
  | none => s.Holds (here new * R)
  | some split => ∃ left right, left ++ right = new ∧ left ≠ [] ∧ right ≠ [] ∧
      split.offset = left.length ∧ split.size = new.length ∧ (append → left = old) ∧
      s.Holds (here left * (sibling split.sibling right * R))

theorem copyElements_holds {source : L} {i count : Nat}
    (h : s.Holds (ListLeaf.holds l vs * (ListLeaf.holds source ws * R)))
    (inside : i + count ≤ ws.length) (small : vs.length + count < 2 ^ 24)
    (run : copyElements source i vs.length count (l, s) = (.ok (), (l', s'))) :
    s'.Holds (ListLeaf.holds l' (vs ++ (ws.drop i).take count) *
      (ListLeaf.holds source ws * R)) := by
  induction count generalizing i vs l s with
  | zero =>
      obtain ⟨-, same⟩ := Edit.pure_ok.mp run
      cases same
      simpa using h
  | succ count ih =>
      obtain ⟨own, from_source⟩ := h.right.reads
      have here : i < ws.length := by omega
      simp only [copyElements, Edit.read_bind, ListLeaf.get from_source here] at run
      rw [Edit.bind_ok] at run
      obtain ⟨_, ⟨l₁, s₁⟩, first, rest⟩ := run
      have h := EditableLeaf.insert h (Nat.le_refl _) (by omega) first
      rw [List.insertIdx_length_self] at h
      have h := ih (i := i + 1) h (by omega) (by simp; omega) (by simpa using rest)
      rw [List.append_assoc] at h
      rw [List.drop_eq_getElem_cons here, List.take_succ_cons]
      exact h

/-- The elements from `j` on go to the sibling, and the value takes their place. -/
theorem splitLeaf_holds {sibling sibling' l₁ : L} {s₁ s₂ : Store} {j : Nat}
    (h : s.Holds (ListLeaf.holds sibling ([] : List V) * (ListLeaf.holds l vs * R)))
    (inside : j < vs.length) (small : vs.length < 2 ^ 24)
    (copy : copyElements l j 0 (vs.length - j) (sibling, s) = (.ok (), (sibling', s₁)))
    (truncate : Leaf.truncate j (l, s₁) = (.ok (), (l₁, s₂)))
    (insert : Leaf.insert j v (l₁, s₂) = (.ok (), (l', s'))) :
    s'.Holds (ListLeaf.holds l' (vs.take j ++ [v]) * (ListLeaf.holds sibling' (vs.drop j) * R)) := by
  have h := copyElements_holds h (by omega) (by simp; omega) copy
  rw [mul_left_comm] at h
  have h := EditableLeaf.truncate h (Nat.le_of_lt inside) truncate
  have length : (vs.take j).length = j := List.length_take_of_le (Nat.le_of_lt inside)
  have h := EditableLeaf.insert h (Nat.le_of_eq length.symm) (by omega) insert
  have tail : (vs.drop j).take (vs.length - j) = vs.drop j := List.take_of_length_le (by simp)
  have front : (vs.take j).insertIdx j v = vs.take j ++ [v] := by
    rw [insertIdx_eq (Nat.le_of_eq length.symm)]
    simp
  rwa [tail, List.nil_append, front] at h

theorem insertIntoLeaf_holds (h : s.Holds (ListLeaf.holds l vs * R))
    (inside : i.getD vs.length ≤ vs.length) (some : 0 < maxNodeSize) (max : maxNodeSize < 2 ^ 24 - 2)
    (run : insertIntoLeaf maxNodeSize i v (l, s) = (.ok split, (l', s'))) :
    (split = none ↔ vs.length < maxNodeSize) ∧
      Inserted s' (ListLeaf.holds l') (leafHolds L) (i = none) vs
        (vs.insertIdx (i.getD vs.length) v) R split := by
  obtain ⟨own, leaf⟩ := h.reads
  have size := ListLeaf.size leaf
  have small := ListLeaf.small leaf
  simp only [insertIntoLeaf, Edit.self_bind, size] at run
  obtain ⟨j, place⟩ : ∃ j, i.getD vs.length = j := ⟨_, rfl⟩
  rw [place] at inside run ⊢
  by_cases room : vs.length < maxNodeSize
  · rw [if_pos room, Edit.bind_ok] at run
    obtain ⟨_, ⟨l₁, s₁⟩, insert, run⟩ := run
    obtain ⟨rfl, same⟩ := Edit.pure_ok.mp run
    cases same
    exact ⟨iff_of_true rfl room, EditableLeaf.insert h inside (by omega) insert⟩
  rw [if_neg room, Edit.lift_bind_ok] at run
  obtain ⟨sibling, s₁, create, run⟩ := run
  have h := EditableLeaf.create h create
  by_cases last : j = vs.length
  · -- Behind the last element nothing moves: the sibling starts with the value.
    subst last
    rw [if_pos rfl, Edit.lift_bind_ok] at run
    obtain ⟨⟨_, sibling'⟩, s₂, insert, run⟩ := run
    obtain ⟨rfl, same⟩ := Edit.pure_ok.mp run
    cases same
    have h := EditableLeaf.insert h (Nat.zero_le _) (by simp) (Edit.on_ok.mp insert)
    refine ⟨iff_of_false nofun room, vs, [v], (List.insertIdx_length_self ..).symm, ?_, by simp,
      rfl, ?_, fun _ => rfl, ?_⟩
    · exact List.length_pos_iff.mp (by omega)
    · simp
    · rw [mul_left_comm]
      exact holds_leaf_mul.mpr ⟨_, rfl, h⟩
  · rw [if_neg last, Edit.lift_bind_ok] at run
    obtain ⟨⟨_, sibling'⟩, s₂, copy, run⟩ := run
    rw [Edit.bind_ok] at run
    obtain ⟨_, ⟨l₁, s₃⟩, truncate, run⟩ := run
    rw [Edit.bind_ok] at run
    obtain ⟨_, ⟨l₂, s₄⟩, insert, run⟩ := run
    obtain ⟨rfl, same⟩ := Edit.pure_ok.mp run
    cases same
    have h := splitLeaf_holds h (Nat.lt_of_le_of_ne inside last) small (Edit.on_ok.mp copy)
      truncate insert
    refine ⟨iff_of_false nofun room, vs.take j ++ [v], vs.drop j, ?_, by simp, ?_,
      by simp [inside], ?_, ?_, ?_⟩
    · simp [insertIdx_eq inside]
    · exact List.length_pos_iff.mp (by simp; omega)
    · rw [List.length_insertIdx_of_le_length inside]
    · intro none
      rw [none] at place
      exact absurd place.symm last
    · rw [mul_left_comm]
      refine holds_leaf_mul.mpr ⟨_, rfl, ?_⟩
      rwa [mul_left_comm]

theorem Inserted.imp {here here' sibling sibling' : _} {append : Prop} {old new : List V}
    {R' : Assertion} (h : Inserted s here sibling append old new R split)
    (grow : ∀ r ws, (sibling r ws : Assertion).Entails (sibling' r ws))
    (step : ∀ (ws : List V) (X : Assertion), s.Holds (here ws * (X * R)) →
      s'.Holds (here' ws * (X * R'))) :
    Inserted s' here' sibling' append old new R' split := by
  cases split with
  | none =>
      rw [Inserted, ← one_mul R]  at h
      rw [Inserted, ← one_mul R']
      exact step _ 1 h
  | some split =>
      obtain ⟨left, right, whole, some, some', offset, size, kept, h⟩ := h
      refine ⟨left, right, whole, some, some', offset, size, kept, ?_⟩
      have h := step _ _ h
      rw [mul_left_comm] at h ⊢
      exact h.imp_left (grow _ _)

/-- A part of a leaf is not longer than the leaf was. -/
theorem Inserted.fit {here : List V → Assertion} {sibling : Ref → List V → Assertion}
    {append : Prop} {old new : List V} (h : Inserted s here sibling append old new R split)
    (fits : b.fits old.length) (length : new.length = old.length + 1)
    (whole : split = none → b.fits new.length) :
    Inserted s (fun ws => .fact (b.fits ws.length) * here ws)
      (fun r ws => .fact (b.fits ws.length) * sibling r ws) append old new R split := by
  cases split with
  | none =>
      rw [Inserted, mul_assoc, Store.holds_fact_mul]
      exact ⟨whole rfl, h⟩
  | some split =>
      obtain ⟨left, right, rfl, some, some', offset, size, kept, h⟩ := h
      rw [List.length_append] at length
      have := List.length_pos_iff.mpr some
      have := List.length_pos_iff.mpr some'
      refine ⟨left, right, rfl, some, some', offset, size, kept, ?_⟩
      rw [mul_assoc, Store.holds_fact_mul, mul_left_comm, mul_assoc, Store.holds_fact_mul]
      refine ⟨b.fewer fits (by omega), b.fewer fits (by omega), ?_⟩
      rwa [mul_left_comm]

theorem insertIntoLeaf_built (h : s.Holds (ListLeaf.holds l vs * R)) (fits : b.fits vs.length)
    (inside : i.getD vs.length ≤ vs.length) (some : 0 < maxNodeSize)
    (max : maxNodeSize < 2 ^ 24 - 2) (admits : b.Admits maxNodeSize)
    (run : insertIntoLeaf maxNodeSize i v (l, s) = (.ok split, (l', s'))) :
    Inserted s' (fun ws => .fact (b.fits ws.length) * ListLeaf.holds l' ws)
      (fun r ws => .fact (b.fits ws.length) * leafHolds L r ws) (i = none) vs
      (vs.insertIdx (i.getD vs.length) v) R split := by
  obtain ⟨room, h⟩ := insertIntoLeaf_holds h inside some max run
  have length : (vs.insertIdx (i.getD vs.length) v).length = vs.length + 1 :=
    List.length_insertIdx_of_le_length inside _
  exact h.fit fits length fun none => admits _ (length ▸ room.mp none)

/-! ### The child that takes the value -/

/-- The children that a node must have: a node that splits keeps no more than one of them for
sure. -/
def leastLeft (least : Nat) : Option Split → Nat
  | none => least
  | some _ => 0

@[simp] theorem leastLeft_zero (split : Option Split) : leastLeft 0 split = 0 := by
  cases split <;> rfl

/-- What is known of insertions with less fuel, for the node above. -/
def InsertsBelow (b : Build) (L : Type) {V : Type} [Leaf L V] [ListLeaf L] (maxNodeSize : Nat)
    (v : V) (fuel : Nat) : Prop :=
  ∀ {depth least : Nat} {n n' : Node} {vs : List V} {i : Option Nat} {s s' : Store}
    {R : Assertion} {split : Option Split}, depth < fuel →
    s.Holds (builtOver b least (builtAt b L depth) n vs * R) →
    i.getD vs.length ≤ vs.length → vs.length < Slot.countBound →
    insertBelow (L := L) maxNodeSize v fuel i (n, s) = (.ok split, (n', s')) →
      Inserted s' (builtOver b (leastLeft least split) (builtAt b L depth) n')
        (builtAt b L (depth + 1)) (i = none) vs (vs.insertIdx (i.getD vs.length) v) R split

variable {o : Option Node} {before after : List (Ref × List V)} {k : Ref × List V}

/-- A node after the insertion into its child `k`; the child is stored already. -/
def Over (b : Build) (L : Type) {V : Type} [Leaf L V] [ListLeaf L] (depth : Nat) (n : Node)
    (o : Option Node) (before : List (Ref × List V)) (old : List V)
    (after : List (Ref × List V)) (ws : List V) : Assertion :=
  .any fun r => inner n o (before ++ (r, old) :: after) * builtAt b L depth r ws

theorem child_of_holds (h : s.Holds (inner n o (before ++ k :: after) *
    (builtAt b L depth k.1 k.2 * R))) : child s.memory n before.length = k.1 := by
  obtain ⟨own, node⟩ := h.reads
  obtain ⟨own', kid⟩ := h.right.reads
  have ref := ref_treeAt (treeAt_of_built kid)
  rw [Branch.child_of_inner node (by simp) (by simpa using ref.2)]
  simp

/-- The ref of the child is stored again, wherever the edit left it. -/
theorem patched_over (h : s.Holds (builtAt b L depth r ws * (inner n o (before ++ k :: after) * R)))
    (run : Node.patchSlot (before.length + 1) r (n, s) = (.ok (), (n', s'))) :
    s'.Holds (Over b L depth n' o before k.2 after ws * R) := by
  have h : s.Holds (inner n o (before ++ (k.1, k.2) :: after) * (builtAt b L depth r ws * R)) :=
    h.of_eq (mul_left_comm _ _ _)
  have h := Branch.patchChild_holds h run
  rw [Over, Store.holds_any_mul]
  exact ⟨r, h.of_eq (mul_assoc _ _ _).symm⟩

theorem insertIntoChild_holds (inserts : InsertsBelow b L maxNodeSize v fuel) (deep : depth ≤ fuel)
    (h : s.Holds (inner n o (before ++ k :: after) * (builtAt b L depth k.1 k.2 * R)))
    (inside : i.getD k.2.length ≤ k.2.length) (small : k.2.length < Slot.countBound)
    (some : 0 < maxNodeSize) (max : maxNodeSize < 2 ^ 24 - 2) (admits : b.Admits maxNodeSize)
    (run : insertIntoChild (L := L) (insertBelow (L := L) maxNodeSize v fuel) maxNodeSize v
      before.length i (n, s) = (.ok split, (n', s'))) :
    Inserted s' (Over b L depth n' o before k.2 after) (builtAt b L depth) (i = none) k.2
      (k.2.insertIdx (i.getD k.2.length) v) R split := by
  have at_ref := child_of_holds h
  rw [mul_left_comm] at h
  simp only [insertIntoChild, Edit.self_bind, Edit.read_bind, at_ref, Node.loadM] at run
  rcases holds_builtAt_mul.mp h with h | ⟨below, node, rfl, same, h⟩
  · obtain ⟨level, fits, l, same, h⟩ := holds_builtLeaf_mul.mp h
    obtain ⟨own, leaf⟩ := h.reads
    simp only [← same, ListLeaf.outer leaf, ListLeaf.load leaf, Bool.false_eq_true, if_false,
      Edit.read_bind, Edit.lift_bind_ok, Prod.exists, Edit.on_ok] at run
    obtain ⟨split', l', s₁, edited, run⟩ := run
    rw [Edit.bind_ok] at run
    obtain ⟨_, ⟨n₁, s₂⟩, patched, run⟩ := run
    obtain ⟨rfl, same⟩ := Edit.pure_ok.mp run
    cases same
    refine (insertIntoLeaf_built h fits inside some max admits edited).imp ?_ ?_
    · intro r ws m base own h
      obtain ⟨fits, leaf⟩ := Assertion.fact_mul.mp h
      exact builtAt_of_leaf (holds_builtLeaf.mpr ⟨⟨level, fits⟩, leaf⟩)
    · intro ws X h
      rw [mul_left_comm X] at h
      refine patched_over (h.imp_left ?_) patched
      intro m base own h
      obtain ⟨fits, leaf⟩ := Assertion.fact_mul.mp h
      exact builtAt_of_leaf
        (holds_builtLeaf.mpr ⟨⟨level, fits⟩, holds_leaf.mpr ⟨l', rfl, leaf⟩⟩)
  · obtain ⟨own, tree⟩ := h.reads
    have isInner := isInner_over (over_of_built tree)
    have load := load_over (over_of_built tree)
    simp only [← same, isInner, load, if_true, Edit.read_bind, Edit.lift_bind_ok, Prod.exists,
      Edit.on_ok] at run
    obtain ⟨split', node', s₁, edited, run⟩ := run
    rw [Edit.bind_ok] at run
    obtain ⟨_, ⟨n₁, s₂⟩, patched, run⟩ := run
    obtain ⟨rfl, same⟩ := Edit.pure_ok.mp run
    cases same
    refine (inserts deep h inside small edited).imp (fun _ _ => .refl _) ?_
    intro ws X h
    rw [leastLeft_zero, mul_left_comm X] at h
    exact patched_over (h.imp_left fun m base own h => builtAt_of_over rfl h) patched

/-! ### The node above it -/

theorem length_mid {α : Type} (before : List α) (x : α) (after : List α) :
    (before ++ x :: after).length = before.length + 1 + after.length := by
  simp
  omega

theorem over_intro (depth : Nat) (n : Node) (kids : List (Ref × List V))
    (h : s.Holds (inner n o kids * (forest (builtAt b L depth) kids * R))) (some : kids ≠ [])
    (full : Full kids) (many : least ≤ kids.length) (fits : b.fits kids.length) :
    s.Holds (builtOver b least (builtAt b L depth) n (values kids) * R) :=
  holds_builtOver_mul.mpr ⟨o, kids, rfl, some, full, many, fits, h⟩

theorem inserted_of_widened {left right old : List V} {q : Ref} {append : Prop}
    (widened : Branch.Widened maxNodeSize s n before (r, left) (q, right) after
      (builtAt b L depth r left * (builtAt b L depth q right *
        (forest (builtAt b L depth) before * (forest (builtAt b L depth) after * R)))) split)
    (full : Full before) (full' : Full after) (some : left ≠ []) (some' : right ≠ [])
    (many : least ≤ before.length + 1 + after.length)
    (fits : b.fits (before.length + 1 + after.length)) (admits : b.Admits maxNodeSize)
    (kept : append → values before ++ left = old) :
    Inserted s (builtOver b (leastLeft least split) (builtAt b L depth) n)
      (builtAt b L (depth + 1)) append old
      (values before ++ (left ++ right) ++ values after) R split := by
  cases split with
  | none =>
      obtain ⟨most, o, h⟩ := widened
      have many : least ≤ (before ++ (r, left) :: (q, right) :: after).length := by
        simp
        omega
      have h := over_intro (L := L) (b := b) (o := o) depth n (before ++ (r, left) :: (q, right) :: after)
        (R := R)
        (h.of_eq (by simp; ac_rfl)) (by simp) (by simp [full, full', some, some']) many
        (admits _ most)
      exact h.of_eq (by simp [leastLeft])
  | some split =>
      obtain ⟨offset, size, n', o, o', same, h⟩ := widened
      refine ⟨values (before ++ [(r, left)]), values ((q, right) :: after), by simp, by simp [some],
        by simp [some'], offset, by simpa using size, by simpa using kept, ?_⟩
      have h := over_intro (L := L) (b := b) (o := o) depth n (before ++ [(r, left)])
        (R := inner n' o' ((q, right) :: after) *
          (forest (builtAt b L depth) ((q, right) :: after) * R))
        (h.of_eq (by simp; ac_rfl)) (by simp) (by simp [full, some]) (Nat.zero_le _)
        (b.fewer fits (by simp))
      rw [mul_left_comm] at h ⊢
      exact holds_builtAt_mul.mpr (.inr ⟨depth, n', rfl, same, over_intro depth n'
        ((q, right) :: after) (o := o') (h.of_eq (by ac_rfl)) (by simp) (by simp [full', some'])
        (Nat.zero_le _) (b.fewer fits (by rw [List.length_cons]; omega))⟩)

theorem splitChild_holds {sp : Split} {append : Prop} {new : List V}
    (h : Inserted s (Over b L depth n o before k.2 after) (builtAt b L depth) append k.2 new
      (forest (builtAt b L depth) before * (forest (builtAt b L depth) after * R)) (some sp))
    (length : new.length = k.2.length + 1) (full : Full before) (full' : Full after)
    (many : least ≤ before.length + 1 + after.length)
    (fits : b.fits (before.length + 1 + after.length)) (admits : b.Admits maxNodeSize)
    (small : (values (before ++ k :: after)).length < Slot.countBound)
    (max : maxNodeSize < 2 ^ 24 - 2) (compact : o = none → append) (last : append → after = [])
    (run : insertChild maxNodeSize o before.length sp (n, s) = (.ok split, (n', s'))) :
    Inserted s' (builtOver b (leastLeft least split) (builtAt b L depth) n')
      (builtAt b L (depth + 1)) append (values (before ++ k :: after))
      (values before ++ new ++ values after) R split := by
  obtain ⟨left, right, rfl, some, some', offset, size, kept, h⟩ := h
  rw [Over, Store.holds_any_mul] at h
  obtain ⟨r, h⟩ := h
  rw [List.length_append] at length
  rw [List.length_append, length] at size
  have widened := Branch.insertChild_holds (k := (r, k.2))
    (h.of_eq (mul_assoc _ _ _)) length (fun none => by rw [kept (compact none)]) offset size
    (by simpa using small) max run
  apply inserted_of_widened widened full full' some some' many fits admits
  intro append
  simp [last append, kept append]

theorem values_insertIdx {j : Nat} (inside : j ≤ k.2.length) :
    (values (before ++ k :: after)).insertIdx ((values before).length + j) v =
      values before ++ k.2.insertIdx j v ++ values after := by
  have drop : (values before).drop ((values before).length + j) = [] :=
    List.drop_eq_nil_of_le (Nat.le_add_right _ _)
  rw [insertIdx_eq (by simp; omega), insertIdx_eq inside]
  simp [List.take_append, List.drop_append, List.take_of_length_le, Nat.sub_eq_zero_of_le inside,
    drop]

/-- The child took the value and did not split. -/
theorem grown_over {o : Option Node} {new : List V}
    (h : s.Holds (inner n o (before ++ (r, new) :: after) * (builtAt b L depth r new *
      (forest (builtAt b L depth) before * (forest (builtAt b L depth) after * R)))))
    (full : Full before) (full' : Full after) (some : new ≠ [])
    (many : least ≤ before.length + 1 + after.length)
    (fits : b.fits (before.length + 1 + after.length)) :
    s.Holds (builtOver b least (builtAt b L depth) n (values before ++ new ++ values after) * R) := by
  rw [← length_mid before (r, new) after] at many fits
  have h := over_intro (L := L) (o := o) depth n (before ++ (r, new) :: after) (R := R)
    (h.of_eq (by simp; ac_rfl)) (by simp) (by simp [full, full', some]) many fits
  exact h.of_eq (by simp)

theorem tag_succ (n : Nat) : Slot.tag n + 2 = Slot.tag (n + 1) := by
  rw [show (2 : Int64) = Int64.ofNat (2 * 1) from rfl, Slot.tag_add]

/-- The last child took one more value; no end is stored for it. -/
theorem lastGrown_holds {new : List V} (h : s.Holds (Over b L depth n o before k.2 [] new *
      (forest (builtAt b L depth) before * (forest (builtAt b L depth) [] * R))))
    (length : new.length = k.2.length + 1) (full : Full before)
    (many : least ≤ before.length + 1) (fits : b.fits (before.length + 1))
    (run : Branch.addTotal 2 (n, s) = (.ok (), (n', s'))) :
    s'.Holds (builtOver b least (builtAt b L depth) n' (values before ++ new ++ values []) * R) := by
  rw [Over, Store.holds_any_mul] at h
  obtain ⟨r, h⟩ := h
  have grown : Slot.tag (values (before ++ [(r, k.2)])).length + 2 =
      Slot.tag (values (before ++ [(r, new)])).length := by
    rw [tag_succ]
    simp [length, Nat.add_assoc]
  have h := Branch.resizeLast_holds (h.of_eq (mul_assoc _ _ _)) grown run
  exact grown_over h full Branch.full_nil (List.ne_nil_of_length_eq_add_one length) many fits

theorem childGrown_holds {o : Node} {n₁ : Node} {s₁ : Store} {new : List V}
    (h : s.Holds (Over b L depth n (some o) before k.2 after new *
      (forest (builtAt b L depth) before * (forest (builtAt b L depth) after * R))))
    (length : new.length = k.2.length + 1) (full : Full before) (full' : Full after)
    (many : least ≤ before.length + 1 + after.length)
    (fits : b.fits (before.length + 1 + after.length))
    (total : Branch.addTotal 2 (n, s) = (.ok (), (n₁, s₁)))
    (ends : Branch.editOffsets o (Node.adjustRange before.length o.size 1) (n₁, s₁) =
      (.ok (), (n', s'))) :
    s'.Holds (builtOver b least (builtAt b L depth) n'
      (values before ++ new ++ values after) * R) := by
  rw [Over, Store.holds_any_mul] at h
  obtain ⟨r, h⟩ := h
  have grown : Slot.tag (values (before ++ (r, k.2) :: after)).length + 2 =
      Slot.tag (values before ++ new ++ values after).length := by
    rw [tag_succ]
    simp only [Branch.values_append, Branch.values_cons, List.length_append, length]
    congr 1
    omega
  have h := Branch.addTotal_holds (h.of_eq (mul_assoc _ _ _)) grown total
  rw [Branch.sizes_append, Branch.sizes_cons] at h
  rw [← Branch.length_sizes before] at ends
  have one : Int64.ofNat k.2.length + 1 = Int64.ofNat (k.2.length + 1) :=
    (Int64.ofNat_add _ _).symm
  obtain ⟨o', h⟩ := Branch.resizeEnd_holds h one ends
  have node : inner n' (Option.some o') (before ++ (r, new) :: after) =
      Branch.form n' (Option.some o') (Branch.refs (before ++ (r, k.2) :: after))
        (sizes before ++ (k.2.length + 1) :: sizes after)
        (values before ++ new ++ values after).length := by
    simp [Branch.inner, length]
  rw [← node] at h
  exact grown_over h full full' (List.ne_nil_of_length_eq_add_one length) many fits

theorem offsets_of_inserted {sp : Split} {append : Prop} {old new : List V}
    (h : Inserted s (Over b L depth n o before k.2 after) (builtAt b L depth) append old new R
      (Option.some sp)) : Branch.offsets s.memory n = o := by
  obtain ⟨left, right, -, -, -, -, -, -, h⟩ := h
  rw [Over, Store.holds_any_mul] at h
  obtain ⟨r, h⟩ := h
  obtain ⟨own, node⟩ := (h.of_eq (mul_assoc _ _ _)).reads
  exact Branch.offsets_of_inner node

theorem appendBelow_holds (inserts : InsertsBelow b L maxNodeSize v fuel) (deep : depth ≤ fuel)
    (h : s.Holds (builtOver b least (builtAt b L depth) n vs * R))
    (small : vs.length < Slot.countBound) (some : 0 < maxNodeSize) (max : maxNodeSize < 2 ^ 24 - 2)
    (admits : b.Admits maxNodeSize)
    (run : insertBelow (L := L) maxNodeSize v (fuel + 1) none (n, s) = (.ok split, (n', s'))) :
    Inserted s' (builtOver b (leastLeft least split) (builtAt b L depth) n')
      (builtAt b L (depth + 1)) ((none : Option Nat) = none) vs (vs.insertIdx vs.length v) R
      split := by
  obtain ⟨o, kids, rfl, ne, full, many, fits, h⟩ := holds_builtOver_mul.mp h
  obtain ⟨before, k, rfl⟩ := List.eq_nil_or_concat' kids |>.resolve_left ne
  obtain ⟨own, node⟩ := h.reads
  have count : childCount n - 1 = before.length := by simp [Branch.childCount_of_inner node]
  have shorter := Nat.lt_of_le_of_lt (length_le_values (show k ∈ before ++ [k] by simp)) small
  rw [Branch.full_append] at full
  rw [length_mid] at many fits
  have length : (k.2.insertIdx k.2.length v).length = k.2.length + 1 := by simp
  have new : (values (before ++ [k])).insertIdx (values (before ++ [k])).length v =
      values before ++ k.2.insertIdx k.2.length v ++ values [] := by
    rw [List.insertIdx_length_self, List.insertIdx_length_self]
    simp
  simp only [insertBelow, Edit.self_bind, count] at run
  rw [Edit.bind_ok] at run
  obtain ⟨split', ⟨n₁, s₁⟩, child, run⟩ := run
  have h : s.Holds (inner n o (before ++ k :: []) * (builtAt b L depth k.1 k.2 *
      (forest (builtAt b L depth) before * (forest (builtAt b L depth) [] * R)))) :=
    h.of_eq (by simp; ac_rfl)
  have h := insertIntoChild_holds inserts deep h (Nat.le_refl _) shorter some max admits child
  rw [new]
  cases split' with
  | none =>
      rw [Edit.bind_ok] at run
      obtain ⟨_, ⟨n₂, s₂⟩, total, run⟩ := run
      obtain ⟨rfl, same⟩ := Edit.pure_ok.mp run
      cases same
      exact lastGrown_holds h length full.1 many fits total
  | some sp =>
      simp only [Edit.self_bind, Edit.read_bind, offsets_of_inserted h] at run
      exact splitChild_holds h length full.1 Branch.full_nil many fits admits small max
        (fun _ => rfl) (fun _ => rfl) run

theorem insertAtBelow_holds {i : Nat} (inserts : InsertsBelow b L maxNodeSize v fuel)
    (deep : depth ≤ fuel) (h : s.Holds (builtOver b least (builtAt b L depth) n vs * R))
    (inside : i ≤ vs.length) (small : vs.length < Slot.countBound) (some : 0 < maxNodeSize)
    (max : maxNodeSize < 2 ^ 24 - 2) (admits : b.Admits maxNodeSize)
    (run : insertBelow (L := L) maxNodeSize v (fuel + 1) (Option.some i) (n, s) =
      (.ok split, (n', s'))) :
    Inserted s' (builtOver b (leastLeft least split) (builtAt b L depth) n')
      (builtAt b L (depth + 1)) (Option.some i = none) vs (vs.insertIdx i v) R split := by
  obtain ⟨o, kids, rfl, ne, full, many, fits, h⟩ := holds_builtOver_mul.mp h
  simp only [insertBelow] at run
  rw [Edit.bind_ok] at run
  obtain ⟨o', ⟨n₁, s₁⟩, general, run⟩ := run
  have h := Branch.ensureOffsets_holds h general
  obtain ⟨before, k, after, rfl, lower, upper, first, above⟩ := Branch.exists_kid_before ne inside
  obtain ⟨j, rfl⟩ := Nat.exists_eq_add_of_le lower
  have within : j ≤ k.2.length := by omega
  obtain ⟨own, node⟩ := h.reads
  have place := Branch.insertionChild_of_inner node small upper first above
  rw [Nat.add_sub_cancel_left] at place
  have shorter := Nat.lt_of_le_of_lt (length_le_values (show k ∈ before ++ k :: after by simp)) small
  rw [Branch.full_append, Branch.full_cons] at full
  rw [length_mid] at many fits
  have length : (k.2.insertIdx j v).length = k.2.length + 1 :=
    List.length_insertIdx_of_le_length within _
  simp only [Edit.read_bind, place] at run
  rw [Edit.bind_ok] at run
  obtain ⟨split', ⟨n₂, s₂⟩, child, run⟩ := run
  have h : s₁.Holds (inner n₁ (Option.some o') (before ++ k :: after) *
      (builtAt b L depth k.1 k.2 *
        (forest (builtAt b L depth) before * (forest (builtAt b L depth) after * R)))) :=
    h.of_eq (by simp; ac_rfl)
  have h := insertIntoChild_holds (i := Option.some j) inserts deep h within shorter some max admits
    child
  rw [values_insertIdx within]
  cases split' with
  | none =>
      rw [Edit.bind_ok] at run
      obtain ⟨_, ⟨n₃, s₃⟩, total, run⟩ := run
      rw [Edit.bind_ok] at run
      obtain ⟨_, ⟨n₄, s₄⟩, ends, run⟩ := run
      obtain ⟨rfl, same⟩ := Edit.pure_ok.mp run
      cases same
      exact childGrown_holds h length full.1 full.2.2 many fits total ends
  | some sp =>
      simp only [Option.getD_some, reduceCtorEq] at h ⊢
      -- A node in general form stays so: only an append may split a compact one.
      exact splitChild_holds h length full.1 full.2.2 many fits admits small max
        (fun none => absurd none (Option.some_ne_none _)) False.elim run

theorem insertsBelow (some : 0 < maxNodeSize) (max : maxNodeSize < 2 ^ 24 - 2)
    (admits : b.Admits maxNodeSize) (fuel : Nat) : InsertsBelow b L maxNodeSize v fuel := by
  induction fuel with
  | zero => exact fun none => absurd none (Nat.not_lt_zero _)
  | succ fuel ih =>
      intro depth least n n' vs i s s' R split deep h inside small run
      have deep := Nat.le_of_lt_succ deep
      cases i with
      | none => exact appendBelow_holds ih deep h small some max admits run
      | some i => exact insertAtBelow_holds ih deep h inside small some max admits run

/-! ### The root -/

/-- The slots behind the first are the same in both forms. -/
theorem fillRoot_holds {sp : Split} {left right : List V} {first : Int64}
    (h : s.Holds (Node.packed .inner n [first] * R)) (size : sp.size = (left ++ right).length)
    (run : (do
      Node.add (Slot.ofRef r)
      Node.add (Slot.ofRef sp.sibling)
      Node.add (Slot.tag sp.size) : Edit Node Unit) (n, s) = (.ok (), (n', s'))) :
    s'.Holds (Branch.compact n' first [(r, left), (sp.sibling, right)] * R) := by
  have whole : (values [(r, left), (sp.sibling, right)]).length = sp.size := by simp [size]
  obtain ⟨_, ⟨root₁, s₁⟩, first, run⟩ := Edit.bind_ok.mp run
  obtain ⟨_, ⟨root₂, s₂⟩, second, third⟩ := Edit.bind_ok.mp run
  have h := Node.add_holds h (by simp) first
  have h := Node.add_holds h (by simp) second
  have h := Node.add_holds h (by simp) third
  rwa [Branch.compact, whole]

theorem newRoot_compact {sp : Split} {append : Bool} {left right : List V} (h : s.Holds R)
    (size : sp.size = (left ++ right).length)
    (stays : (append && (!isInner s.memory r ||
      (Branch.offsets s.memory (.load s.memory r)).isNone)) = true)
    (run : newRoot r append sp s = (.ok n, s')) :
    s'.Holds (Branch.compact n (Slot.tag sp.offset) [(r, left), (sp.sibling, right)] * R) := by
  simp only [newRoot, StoreM.read_bind, stays, if_true] at run
  obtain ⟨root, s₁, create, run⟩ := StoreM.bind_ok.mp run
  obtain ⟨⟨_, root'⟩, s₂, edit, run⟩ := StoreM.bind_ok.mp run
  obtain ⟨rfl, rfl⟩ := StoreM.pure_ok.mp run
  obtain ⟨_, ⟨root₁, s₃⟩, first, rest⟩ := Edit.bind_ok.mp (Edit.on_ok.mp edit)
  exact fillRoot_holds (Node.add_holds (Node.createPacked_holds h create) (by simp) first) size rest

theorem newRoot_holds {sp : Split} {append : Bool} {left right : List V} (h : s.Holds R)
    (offset : sp.offset = left.length) (size : sp.size = (left ++ right).length)
    (small : left.length < Slot.countBound) (run : newRoot r append sp s = (.ok n, s')) :
    ∃ o, s'.Holds (inner n o [(r, left), (sp.sibling, right)] * R) := by
  by_cases stays : (append && (!isInner s.memory r ||
      (Branch.offsets s.memory (.load s.memory r)).isNone)) = true
  · have h := newRoot_compact h size stays run
    refine ⟨none, h.imp_left (Branch.inner_of_compact (Slot.isRef_tag _) ?_)⟩
    rw [Slot.untag_tag (offset ▸ small), offset]
    simp [Branch.Regular, sizes]
  · simp only [newRoot, StoreM.read_bind, if_neg stays] at run
    obtain ⟨root, s₁, create, run⟩ := StoreM.bind_ok.mp run
    have h := Node.createPacked_holds h create
    obtain ⟨⟨_, root'⟩, s₂, edit, run⟩ := StoreM.bind_ok.mp run
    obtain ⟨rfl, rfl⟩ := StoreM.pure_ok.mp run
    have edit := Edit.on_ok.mp edit
    simp only [Edit.lift_bind_ok, Prod.exists, Edit.on_ok] at edit
    obtain ⟨o, s₃, createEnds, _, o', s₄, ends, edit⟩ := edit
    obtain ⟨_, ⟨root₁, s₅⟩, first, rest⟩ := Edit.bind_ok.mp edit
    have h := Node.add_holds (Node.createPacked_holds h createEnds) (by simp) ends
    rw [mul_left_comm] at h
    have h := fillRoot_holds (Node.add_holds h (by simp) first) size rest
    refine ⟨Option.some o', Branch.holds_general.mpr (h.of_eq ?_)⟩
    simp [Branch.compact, sizes, Branch.ends_pair, offset]

theorem over_newRoot {sp : Split} {append : Bool} {left right : List V}
    (h : s.Holds (builtAt b L depth r left * (builtAt b L depth sp.sibling right * R)))
    (some : left ≠ []) (some' : right ≠ []) (offset : sp.offset = left.length)
    (size : sp.size = (left ++ right).length) (small : left.length < Slot.countBound)
    (atMost : least ≤ 2) (fits : b.fits 2) (run : newRoot r append sp s = (.ok n, s')) :
    s'.Holds (builtOver b least (builtAt b L depth) n (left ++ right) * R) := by
  obtain ⟨o, h⟩ := newRoot_holds h offset size small run
  refine holds_builtOver_mul.mpr ⟨o, [(r, left), (sp.sibling, right)], by simp, by simp,
    by simp [some, some'], atMost, fits, h.of_eq ?_⟩
  simp only [forest_cons, forest_nil, mul_one, mul_assoc]

/-- The rest of an insertion: a tree that split gets a new root. -/
theorem grow_holds {t t' : Tree L} {append : Bool} {kept : Prop} {here : List V → Assertion}
    {old new : List V} (h : Inserted s here (builtAt b L depth) kept old new R split)
    (whole : split = none → ∀ ws, (here ws).Entails (built b least t ws))
    (part : ∀ ws, (here ws).Entails (builtAt b L depth t.ref ws))
    (small : new.length < Slot.countBound) (atMost : least ≤ 2) (fits : b.fits 2)
    (run : (do
      if let some split := split then
        let t ← Edit.self
        setRoot (.inner (← newRoot t.ref append split)) : Edit (Tree L) Unit) (t, s) =
          (.ok (), (t', s'))) :
    t'.maxNodeSize = t.maxNodeSize ∧ s'.Holds (built b least t' new * R) := by
  cases split with
  | none =>
      obtain ⟨-, same⟩ := Edit.pure_ok.mp run
      cases same
      exact ⟨rfl, h.imp_left (whole rfl new)⟩
  | some sp =>
      obtain ⟨left, right, rfl, some, some', offset, size, -, h⟩ := h
      simp only [Edit.self_bind, Edit.lift_bind_ok, setRoot, Edit.update_apply] at run
      obtain ⟨root, s₁, create, result⟩ := run
      cases result
      have shorter : left.length < Slot.countBound := by
        rw [List.length_append] at small
        omega
      exact ⟨rfl, built_inner (over_newRoot (h.imp_left (part left)) some some' offset size shorter
        atMost fits create)⟩

theorem insert_built {t t' : Tree L} (h : s.Holds (built b least t vs * R))
    (inside : i.getD vs.length ≤ vs.length) (small : vs.length + 1 < Slot.countBound)
    (room : 0 < t.maxNodeSize) (max : t.maxNodeSize < 2 ^ 24 - 2)
    (admits : b.Admits t.maxNodeSize) (atMost : least ≤ 2) (fits : b.fits 2)
    (run : insert i v (t, s) = (.ok (), (t', s'))) :
    t'.maxNodeSize = t.maxNodeSize ∧
      s'.Holds (built b least t' (vs.insertIdx (i.getD vs.length) v) * R) := by
  obtain ⟨own, here⟩ := (h.imp_left holds_of_built).reads
  have shorter : vs.length < Slot.countBound := Nat.lt_of_succ_lt small
  simp only [insert, Edit.self_bind, Edit.read_bind, size_of_holds here shorter] at run
  obtain ⟨j, index⟩ : ∃ j, (if i = none ∨ i = some vs.length then none else i) = j := ⟨_, rfl⟩
  have place : i.getD vs.length = j.getD vs.length := by
    rw [← index]
    split
    · next append => rcases append with rfl | rfl <;> rfl
    · rfl
  have length : (vs.insertIdx (j.getD vs.length) v).length = vs.length + 1 :=
    List.length_insertIdx_of_le_length (place ▸ inside) _
  rw [index] at run
  rw [place] at inside ⊢
  cases root : t.root with
  | leaf l =>
      simp only [root] at run
      obtain ⟨split, ⟨t₁, s₁⟩, edit, run⟩ := Edit.bind_ok.mp run
      simp only [editLeaf, Edit.self_bind, Edit.inside_ok] at edit
      obtain ⟨l', edit, rfl⟩ := edit
      obtain ⟨sized, h⟩ := leaf_of_built h root
      have h := insertIntoLeaf_built h sized inside room max admits edit
      have leaf {r : Ref} {ws : List V} : (Assertion.fact (b.fits ws.length) *
          leafHolds L r ws).Entails (builtAt b L 0 r ws) := by
        intro m base own h
        obtain ⟨fits, leaf⟩ := Assertion.fact_mul.mp h
        exact holds_builtLeaf.mpr ⟨⟨fun _ => rfl, fits⟩, leaf⟩
      refine grow_holds (t := ⟨.leaf l', t.maxNodeSize⟩) (h.imp (fun _ _ => leaf) fun _ _ h => h)
        (fun _ _ => .refl _) ?_ (length ▸ small) atMost fits run
      exact fun ws => ((Assertion.Entails.refl _).mul fun _ _ _ held =>
        holds_leaf.mpr ⟨l', rfl, held⟩).trans leaf
  | inner n =>
      simp only [root, Edit.read_bind] at run
      obtain ⟨depth, deep, h⟩ := over_of_built_mul h root
      obtain ⟨split, ⟨t₁, s₁⟩, edit, run⟩ := Edit.bind_ok.mp run
      simp only [editInner, Edit.self_bind, Edit.inside_ok] at edit
      obtain ⟨n', edit, rfl⟩ := edit
      have h := insertsBelow (L := L) room max admits _ deep h inside shorter edit
      refine grow_holds (t := ⟨.inner n', t.maxNodeSize⟩) h ?_ ?_ (length ▸ small) atMost fits run
      · rintro rfl ws m base own held
        exact ⟨depth, held⟩
      · exact fun ws m base own held => builtAt_of_over rfl held

theorem insert_holds {t t' : Tree L} (h : s.Holds (holds t vs * R))
    (inside : i.getD vs.length ≤ vs.length) (small : vs.length + 1 < Slot.countBound)
    (room : 0 < t.maxNodeSize) (max : t.maxNodeSize < 2 ^ 24 - 2)
    (run : insert i v (t, s) = (.ok (), (t', s'))) :
    t'.maxNodeSize = t.maxNodeSize ∧ s'.Holds (holds t' (vs.insertIdx (i.getD vs.length) v) * R) := by
  rw [← built_any] at h ⊢
  exact insert_built h inside small room max (Build.admits_any _) (Nat.zero_le 2) trivial run

end ColumnStore.Tree
