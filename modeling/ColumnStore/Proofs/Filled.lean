import ColumnStore.Proofs.Balance
import Mathlib.Algebra.Order.BigOperators.Group.List
import Mathlib.Algebra.Order.Ring.Nat

set_option autoImplicit false

/-!
Trees that were only appended to. Whatever is not at the right edge is full, so the children of an
inner node but the last have as many elements as a tree of their height can have, and no split
takes the compact form away.
-/
namespace ColumnStore

open Branch (Full Regular inner compact values sizes refs isInner child childCount)

namespace Shape

/-- A tree of this height that no element can be added to. -/
def Complete (maxNodeSize : Nat) : Nat → Shape → Prop
  | 0, .leaf size => size = maxNodeSize
  | height + 1, .compact perChild _ children =>
      perChild = maxNodeSize ^ (height + 1) ∧ children.length = maxNodeSize ∧
        ∀ c ∈ children, Complete maxNodeSize height c
  | _, _ => False

/-- A tree of this height that is complete but for its right edge. -/
def Filled (maxNodeSize : Nat) : Nat → Shape → Prop
  | 0, .leaf size => size ≤ maxNodeSize
  | height + 1, .compact perChild _ children =>
      perChild = maxNodeSize ^ (height + 1) ∧ children.length ≤ maxNodeSize ∧
        ∃ front last, children = front ++ [last] ∧ (∀ c ∈ front, Complete maxNodeSize height c) ∧
          Filled maxNodeSize height last
  | _, _ => False

/-- A filled tree of so many elements, which is complete if no other has room in it. -/
structure FilledWith (maxNodeSize height size : Nat) (shape : Shape) : Prop where
  filled : shape.Filled maxNodeSize height
  elements : shape.elements = size
  complete : size = maxNodeSize ^ (height + 1) → shape.Complete maxNodeSize height

end Shape

/-! ### Compact nodes -/

section Compact

variable {V : Type} {s s' : Store} {n n' : Node} {first : Int64} {before : List (Ref × List V)}
  {k : Ref × List V} {ws : List V} {R : Assertion} {maxNodeSize : Nat}
  {split : Option Split}

theorem Branch.regular_sizes {per : Nat} :
    Regular per (sizes (before ++ [k])) ↔ ∀ j ∈ before, j.2.length = per := by
  rw [Branch.sizes_append, Branch.sizes_cons, Branch.sizes_nil, Branch.regular_concat, sizes,
    List.forall_mem_map]

theorem Branch.length_of_regular {per : Nat} (regular : Regular per (sizes (before ++ [k]))) :
    (values (before ++ [k])).length = before.length * per + k.2.length := by
  have start := regular.start (i := before.length) (by simp)
  rw [Branch.sizes_append, Branch.start_append, Branch.start_of_length_le _ (by simp),
    Branch.sum_sizes, Branch.length_sizes, Nat.sub_self, Branch.start_zero, Nat.add_zero] at start
  rw [Branch.values_append, List.length_append, start]
  simp

theorem Branch.grown_compact (h : s.Holds (compact n first (before ++ [k]) * R))
    (one : ws.length = k.2.length + 1) (run : Branch.addTotal 2 (n, s) = (.ok (), (n', s'))) :
    s'.Holds (compact n' first (before ++ [(k.1, ws)]) * R) := by
  have total : (values (before ++ [(k.1, ws)])).length = (values (before ++ [k])).length + 1 := by
    simp [one, Nat.add_assoc]
  have refs : refs (before ++ [(k.1, ws)]) = refs (before ++ [k]) := by simp
  rw [compact, total, refs]
  exact Branch.addTotal_slots h (Slot.tag_add _ 1) run

/-- The last child, which is as large as the others, got a sibling: it becomes the last child, or
the only one of a node of its own if there is no room. -/
theorem Branch.insertChild_compact {sp : Split} {right : List V}
    (h : s.Holds (compact n first (before ++ [k]) * R)) (tagged : Slot.isRef first = false)
    (regular : Regular (Slot.untag first) (sizes (before ++ [k])))
    (full : k.2.length = Slot.untag first) (offset : sp.offset = k.2.length)
    (size : sp.size = k.2.length + 1) (single : right.length = 1)
    (small : (values (before ++ [k])).length < Slot.countBound) (max : maxNodeSize < 2 ^ 24 - 2)
    (run : Tree.insertChild maxNodeSize none before.length sp (n, s) = (.ok split, (n', s'))) :
    (split = none ∧ (before ++ [k]).length < maxNodeSize ∧
      s'.Holds (compact n' first (before ++ [k, (sp.sibling, right)]) * R)) ∨
    ∃ q n₂, split = some q ∧ maxNodeSize ≤ (before ++ [k]).length ∧ n₂.ref = q.sibling ∧
      q.offset = (values (before ++ [k])).length ∧
      q.size = (values (before ++ [k])).length + 1 ∧
      s'.Holds (compact n' first (before ++ [k]) *
        (compact n₂ first [(sp.sibling, right)] * R)) := by
  obtain ⟨own, held⟩ := h.reads
  have here := Branch.inner_of_compact tagged regular _ _ _ held
  have count := Branch.childCount_of_inner here
  have start : Branch.childStart s.memory n none before.length = (values before).length := by
    rw [Branch.childStart_of_inner here (by simp) small, Branch.sizes_append, Branch.start_append,
      Branch.start_of_length_le _ (by simp)]
    simp
  have stays : before.length + 1 = (before ++ [k]).length ∧
      k.2.length = Branch.perChild s.memory n :=
    ⟨by simp, by rw [Branch.perChild_of_compact held, full]⟩
  have stop : (values before).length + k.2.length = (values (before ++ [k])).length := by simp
  simp only [Tree.insertChild, Edit.self_bind, Edit.read_bind, count, start,
    Branch.total_of_inner here small, offset, stop] at run
  -- The child that split kept the size of the others and its sibling comes last, so that no ends
  -- are needed.
  obtain ⟨o, ⟨n₁, s₁⟩, form, run⟩ := Edit.bind_ok.mp run
  simp only [Tree.offsetsFor, Edit.self_bind, Edit.read_bind, count, offset] at form
  rw [if_pos stays] at form
  obtain ⟨rfl, same⟩ := Edit.pure_ok.mp form
  cases same
  by_cases room : (before ++ [k]).length < maxNodeSize
  · rw [if_pos room] at run
    obtain ⟨_, ⟨n₂, s₂⟩, insert, run⟩ := Edit.bind_ok.mp run
    obtain ⟨_, ⟨n₃, s₃⟩, total, run⟩ := Edit.bind_ok.mp run
    obtain ⟨rfl, same⟩ := Edit.pure_ok.mp run
    cases same
    have whole : k.2.length + right.length = k.2.length + 1 := by omega
    exact .inl ⟨rfl, room, Branch.insertLast_compact h whole (by omega) insert total⟩
  · rw [if_neg room, Edit.lift_bind_ok] at run
    obtain ⟨right', s₁, create, run⟩ := run
    simp only [Edit.self_bind, Edit.read_bind, Edit.lift_bind_ok, Prod.exists, Edit.on_ok] at run
    obtain ⟨_, right'', s₂, fill, run⟩ := run
    obtain ⟨rfl, same⟩ := Edit.pure_ok.mp run
    cases same
    have rest : sp.size - k.2.length = right.length := by omega
    exact .inr ⟨_, right'', rfl, Nat.le_of_not_lt room, rfl, rfl, rfl,
      Branch.split_compact h rest create fill⟩

end Compact

namespace Tree

variable {L V X : Type} [Leaf L V] {m : Memory} {base : Nat} {own : Set Nat} {s s' : Store}
  {t t' : Tree L} {vs : List V} {v : V} {R : Assertion} {r : Ref} {n n' : Node} {l l' : L}
  {kids before : List (Ref × List V)} {k : Ref × List V} {height fuel maxNodeSize per : Nat}
  {split : Option Split}

/-- The children of a compact node: all but the last have `per` elements. -/
structure Fills (maxNodeSize per : Nat) (kids : List (Ref × List V)) : Prop where
  ne : kids ≠ []
  full : Full kids
  most : kids.length ≤ maxNodeSize
  regular : Regular per (sizes kids)
  small : per < Slot.countBound

def filledOver (maxNodeSize per : Nat) (below : Ref → List V → Assertion) (n : Node)
    (vs : List V) : Assertion :=
  .any fun kids : List (Ref × List V) => .fact (values kids = vs ∧ Fills maxNodeSize per kids) *
    (compact n (Slot.tag per) kids * forest below kids)

def filledNode (maxNodeSize per : Nat) (below : Ref → List V → Assertion) (r : Ref)
    (vs : List V) : Assertion :=
  .any fun n : Node => .fact (n.ref = r) * filledOver maxNodeSize per below n vs

/-- A tree whose leaves are so many levels below it, each as large as it can be but those at the
right edge. -/
def filledAt (L : Type) {V : Type} [Leaf L V] [ListLeaf L] (maxNodeSize : Nat) :
    Nat → Ref → List V → Assertion
  | 0, r, vs => .fact (vs.length ≤ maxNodeSize) * leafHolds L r vs
  | height + 1, r, vs =>
      filledNode maxNodeSize (maxNodeSize ^ (height + 1)) (filledAt L maxNodeSize height) r vs

/-- An inner node over trees of this height. -/
def filledBranch (L : Type) {V : Type} [Leaf L V] [ListLeaf L] (maxNodeSize height : Nat) :
    Node → List V → Assertion :=
  filledOver maxNodeSize (maxNodeSize ^ (height + 1)) (filledAt L maxNodeSize height)

section Read

variable [ListLeaf L]

theorem holds_filledOver {below : Ref → List V → Assertion} :
    (filledOver maxNodeSize per below n vs).holds m base own ↔
      ∃ kids, values kids = vs ∧ Fills maxNodeSize per kids ∧
        (compact n (Slot.tag per) kids * forest below kids).holds m base own := by
  constructor
  · rintro ⟨kids, h⟩
    obtain ⟨⟨whole, fills⟩, h⟩ := Assertion.fact_mul.mp h
    exact ⟨kids, whole, fills, h⟩
  · rintro ⟨kids, whole, fills, h⟩
    exact ⟨kids, Assertion.fact_mul.mpr ⟨⟨whole, fills⟩, h⟩⟩

theorem holds_filledOver_mul {below : Ref → List V → Assertion} :
    s.Holds (filledOver maxNodeSize per below n vs * R) ↔
      ∃ kids, values kids = vs ∧ Fills maxNodeSize per kids ∧
        s.Holds (compact n (Slot.tag per) kids * (forest below kids * R)) := by
  simp only [filledOver, Store.holds_any_mul, mul_assoc, Store.holds_fact_mul, and_assoc]

theorem Fills.inner (fills : Fills maxNodeSize per kids) :
    (compact n (Slot.tag per) kids).Entails (inner n none kids) := by
  apply Branch.inner_of_compact (Slot.isRef_tag per)
  rw [Slot.untag_tag fills.small]
  exact fills.regular

theorem Fills.grown {ws : List V} (fills : Fills maxNodeSize per (before ++ [k])) (r : Ref)
    (some : ws ≠ []) : Fills maxNodeSize per (before ++ [(r, ws)]) := by
  obtain ⟨-, full, most, regular, small⟩ := fills
  rw [Branch.full_append] at full
  exact ⟨by simp, by simp [full, some], by simpa using most,
    Branch.regular_sizes.mpr (Branch.regular_sizes.mp regular), small⟩

/-- The last child is as large as the others, and there is room for one more. -/
theorem Fills.widened {ws : List V} (fills : Fills maxNodeSize per (before ++ [k])) (r : Ref)
    (some : ws ≠ []) (whole : k.2.length = per) (room : (before ++ [k]).length < maxNodeSize) :
    Fills maxNodeSize per (before ++ [k, (r, ws)]) := by
  obtain ⟨-, full, -, regular, small⟩ := fills
  have parts : before ++ [k, (r, ws)] = (before ++ [k]) ++ [(r, ws)] := by simp
  rw [parts]
  refine ⟨by simp, (Branch.full_append _ _).mpr ⟨full, by simp [some]⟩, ?_, ?_, small⟩
  · rw [List.length_append, List.length_singleton]
    exact room
  · refine Branch.regular_sizes.mpr (List.forall_mem_append.mpr ⟨?_, ?_⟩)
    · exact Branch.regular_sizes.mp regular
    · exact List.forall_mem_singleton.mpr whole

theorem Fills.single {ws : List V} (r : Ref) (some : ws ≠ []) (room : 0 < maxNodeSize)
    (small : per < Slot.countBound) : Fills maxNodeSize per [(r, ws)] :=
  ⟨by simp, by simp [some], room, by simp [Regular], small⟩

theorem Fills.length (fills : Fills maxNodeSize per (before ++ [k])) :
    (values (before ++ [k])).length = before.length * per + k.2.length :=
  Branch.length_of_regular fills.regular

theorem filledNode_of_over {below : Ref → List V → Assertion} (same : n.ref = r) :
    (filledOver maxNodeSize per below n vs).Entails (filledNode maxNodeSize per below r vs) :=
  fun _ _ _ h => ⟨n, Assertion.fact_mul.mpr ⟨same, h⟩⟩

/-- What is filled is balanced, too. -/
theorem built_of_filledOver {below below' : Ref → List V → Assertion}
    (each : ∀ r vs own, (below r vs).holds m base own → (below' r vs).holds m base own)
    (h : (filledOver maxNodeSize per below n vs).holds m base own) :
    (builtOver (.balanced maxNodeSize) 0 below' n vs).holds m base own := by
  obtain ⟨kids, rfl, fills, h⟩ := holds_filledOver.mp h
  have h := Assertion.holds_mul_mono (fun _ => fills.inner _ _ _)
    (fun _ => forest_mono fun _ _ => each _ _) h
  have count : childCount n = kids.length := by
    obtain ⟨x, y, -, -, node, -⟩ := h
    exact Branch.childCount_of_inner node
  exact holds_builtOver.mpr ⟨⟨Nat.zero_le _, count.trans_le fills.most⟩,
    holds_over.mpr ⟨none, kids, rfl, fills.ne, fills.full, h⟩⟩

theorem built_of_filled (h : (filledAt L maxNodeSize height r vs).holds m base own) :
    (builtAt (.balanced maxNodeSize) L height r vs).holds m base own := by
  induction height generalizing r vs own with
  | zero =>
      obtain ⟨fits, leaf⟩ := Assertion.fact_mul.mp h
      exact holds_builtLeaf.mpr ⟨⟨fun _ => rfl, fits⟩, leaf⟩
  | succ height ih =>
      obtain ⟨n, h⟩ := h
      obtain ⟨same, branch⟩ := Assertion.fact_mul.mp h
      exact builtAt_of_over same (built_of_filledOver (fun _ _ _ => ih) branch)

/-- No tree of a height has more elements than the complete one. -/
theorem length_filled (h : (filledAt L maxNodeSize height r vs).holds m base own) :
    vs.length ≤ maxNodeSize ^ (height + 1) := by
  induction height generalizing r vs own with
  | zero =>
      rw [Nat.zero_add, pow_one]
      exact (Assertion.fact_mul.mp h).1
  | succ height ih =>
      obtain ⟨n, h⟩ := h
      obtain ⟨kids, rfl, fills, x, y, -, -, -, below⟩ :=
        holds_filledOver.mp (Assertion.fact_mul.mp h).2
      have each : ∀ a ∈ sizes kids, a ≤ maxNodeSize ^ (height + 1) := by
        simp only [sizes, List.forall_mem_map]
        intro k inside
        obtain ⟨_, kid⟩ := forest_mem inside below
        exact ih kid
      have most := List.sum_le_card_nsmul _ _ each
      rw [Branch.sum_sizes, Branch.length_sizes, Nat.nsmul_eq_mul] at most
      rw [pow_succ']
      exact most.trans (Nat.mul_le_mul_right _ fills.most)

/-- An append to a tree of filled nodes does not take the compact form from a new root. -/
theorem stays_of_filled (h : (filledAt L maxNodeSize height r vs).holds m base own) :
    (true && (!isInner m r || (Branch.offsets m (.load m r)).isNone)) = true := by
  cases height with
  | zero => simp [isInner_leaf (Assertion.fact_mul.mp h).2]
  | succ height =>
      obtain ⟨n, h⟩ := h
      obtain ⟨rfl, branch⟩ := Assertion.fact_mul.mp h
      obtain ⟨kids, -, fills, x, y, -, -, node, -⟩ := holds_filledOver.mp branch
      have node := fills.inner _ _ _ node
      simp [load_inner node, Branch.offsets_of_inner node]

theorem height_lt_depthBound
    (h : (filledOver maxNodeSize per (filledAt L maxNodeSize height) n vs).holds m base own) :
    height < Node.depthBound m := by
  have tree := builtAt_of_over rfl (built_of_filledOver (fun _ _ _ => built_of_filled) h)
  exact depth_le_of_grounded trivial tree (grounded_treeAt (treeAt_of_built tree)).depthBound

end Read

/-! ### Appending -/

/-- What an append leaves: the list with the value or, where nothing can be added any more, the old
list and a sibling with the value. -/
def Appended (s : Store) (here : List V → Assertion) (sibling : Ref → List V → Assertion)
    (capacity : Nat) (vs : List V) (v : V) (R : Assertion) : Option Split → Prop
  | none => s.Holds (here (vs ++ [v]) * R)
  | some split => vs.length = capacity ∧ split.offset = vs.length ∧ split.size = vs.length + 1 ∧
      s.Holds (here vs * (sibling split.sibling [v] * R))

theorem Appended.imp {here here' : List V → Assertion} {sibling sibling' : Ref → List V → Assertion}
    {capacity : Nat} {R' : Assertion} (h : Appended s here sibling capacity vs v R split)
    (grow : ∀ r ws, (sibling r ws).Entails (sibling' r ws))
    (step : ∀ (ws : List V) (X : Assertion), s.Holds (here ws * (X * R)) →
      s'.Holds (here' ws * (X * R'))) :
    Appended s' here' sibling' capacity vs v R' split := by
  cases split with
  | none =>
      rw [Appended, ← one_mul R] at h
      rw [Appended, ← one_mul R']
      exact step _ 1 h
  | some split =>
      obtain ⟨complete, offset, size, h⟩ := h
      refine ⟨complete, offset, size, ?_⟩
      have h := step _ _ h
      rw [mul_left_comm] at h ⊢
      exact h.imp_left (grow _ _)

section Append

variable [EditableLeaf L]

theorem appendToLeaf_holds (h : s.Holds (ListLeaf.holds l vs * R)) (fits : vs.length ≤ maxNodeSize)
    (room : 0 < maxNodeSize) (max : maxNodeSize < 2 ^ 24 - 2)
    (run : insertIntoLeaf maxNodeSize none v (l, s) = (.ok split, (l', s'))) :
    Appended s' (fun ws => .fact (ws.length ≤ maxNodeSize) * ListLeaf.holds l' ws)
      (filledAt L maxNodeSize 0) (maxNodeSize ^ (0 + 1)) vs v R split := by
  obtain ⟨grows, h⟩ := insertIntoLeaf_holds h (Nat.le_refl _) room max run
  rw [Option.getD_none, List.insertIdx_length_self] at h
  cases split with
  | none =>
      rw [Appended, mul_assoc, Store.holds_fact_mul]
      refine ⟨?_, h⟩
      rw [List.length_append]
      exact grows.mp rfl
  | some split =>
      obtain ⟨left, right, whole, -, -, offset, size, kept, h⟩ := h
      obtain rfl : left = vs := kept rfl
      obtain rfl : right = [v] := List.append_cancel_left whole
      -- A leaf with room would not have split.
      have complete : left.length = maxNodeSize ^ (0 + 1) := by
        rw [Nat.zero_add, pow_one]
        refine Nat.le_antisymm fits (Nat.le_of_not_lt fun less => ?_)
        cases grows.mpr less
      refine ⟨complete, offset, by rw [size, List.length_append, List.length_singleton], ?_⟩
      simp only [filledAt, mul_assoc, Store.holds_fact_mul]
      refine ⟨fits, ?_⟩
      rw [mul_left_comm, Store.holds_fact_mul]
      exact ⟨room, h⟩

/-- What is known of appends with less fuel, for the node above. -/
def AppendsBelow (L : Type) {V : Type} [Leaf L V] [ListLeaf L] (maxNodeSize : Nat) (v : V)
    (fuel : Nat) : Prop :=
  ∀ {height : Nat} {n n' : Node} {vs : List V} {s s' : Store} {R : Assertion}
    {split : Option Split}, height < fuel →
    s.Holds (filledBranch L maxNodeSize height n vs * R) → vs.length < Slot.countBound →
    insertBelow (L := L) maxNodeSize v fuel none (n, s) = (.ok split, (n', s')) →
      Appended s' (filledBranch L maxNodeSize height n') (filledAt L maxNodeSize (height + 1))
        (maxNodeSize ^ (height + 2)) vs v R split

/-- A compact node after the append to its last child, which is stored already. -/
def OverLast (L : Type) {V : Type} [Leaf L V] [ListLeaf L] (maxNodeSize height : Nat) (n : Node)
    (first : Int64) (before : List (Ref × List V)) (old : List V) (ws : List V) : Assertion :=
  .any fun r => compact n first (before ++ [(r, old)]) * filledAt L maxNodeSize height r ws

theorem patchedLast {first : Int64} {ws : List V}
    (h : s.Holds (filledAt L maxNodeSize height r ws * (compact n first (before ++ [k]) * R)))
    (run : Node.patchSlot (before.length + 1) r (n, s) = (.ok (), (n', s'))) :
    s'.Holds (OverLast L maxNodeSize height n' first before k.2 ws * R) := by
  have h : s.Holds (compact n first (before ++ [(k.1, k.2)]) *
      (filledAt L maxNodeSize height r ws * R)) := h.of_eq (mul_left_comm _ _ _)
  have h := Branch.patchChild_compact h run
  rw [OverLast, Store.holds_any_mul]
  exact ⟨r, h.of_eq (mul_assoc _ _ _).symm⟩

theorem appendToChild_holds (appends : AppendsBelow L maxNodeSize v fuel) (deep : height ≤ fuel)
    (fills : Fills maxNodeSize per (before ++ [k]))
    (h : s.Holds (compact n (Slot.tag per) (before ++ [k]) *
      (filledAt L maxNodeSize height k.1 k.2 * R)))
    (small : k.2.length < Slot.countBound) (room : 0 < maxNodeSize)
    (max : maxNodeSize < 2 ^ 24 - 2)
    (run : insertIntoChild (L := L) (insertBelow (L := L) maxNodeSize v fuel) maxNodeSize v
      before.length none (n, s) = (.ok split, (n', s'))) :
    Appended s' (OverLast L maxNodeSize height n' (Slot.tag per) before k.2)
      (filledAt L maxNodeSize height) (maxNodeSize ^ (height + 1)) k.2 v R split := by
  have at_ref : child s.memory n before.length = k.1 := by
    have h := h.imp_left fills.inner
    rw [mul_left_comm] at h
    have h := h.imp_left fun _ _ _ => built_of_filled
    rw [mul_left_comm] at h
    exact child_of_holds h
  rw [mul_left_comm] at h
  simp only [insertIntoChild, Edit.self_bind, Edit.read_bind, at_ref, Node.loadM] at run
  cases height with
  | zero =>
      simp only [filledAt, mul_assoc, Store.holds_fact_mul] at h
      obtain ⟨fits, h⟩ := h
      obtain ⟨l, same, h⟩ := holds_leaf_mul.mp h
      obtain ⟨own, leaf⟩ := h.reads
      simp only [← same, ListLeaf.outer leaf, ListLeaf.load leaf, Bool.false_eq_true, if_false,
        Edit.read_bind, Edit.lift_bind_ok, Prod.exists, Edit.on_ok] at run
      obtain ⟨split', l', s₁, edited, run⟩ := run
      rw [Edit.bind_ok] at run
      obtain ⟨_, ⟨n₁, s₂⟩, patched, run⟩ := run
      obtain ⟨rfl, same⟩ := Edit.pure_ok.mp run
      cases same
      refine (appendToLeaf_holds h fits room max edited).imp (fun _ _ => .refl _) ?_
      intro ws X h
      rw [mul_left_comm X] at h
      refine patchedLast (h.imp_left ?_) patched
      intro m base own h
      obtain ⟨fits, leaf⟩ := Assertion.fact_mul.mp h
      exact Assertion.fact_mul.mpr ⟨fits, holds_leaf.mpr ⟨l', rfl, leaf⟩⟩
  | succ height =>
      simp only [filledAt, filledNode, Store.holds_any_mul, mul_assoc, Store.holds_fact_mul] at h
      obtain ⟨node, same, h⟩ := h
      obtain ⟨own, tree⟩ := h.reads
      have branch := over_of_built (built_of_filledOver (fun _ _ _ => built_of_filled) tree)
      simp only [← same, isInner_over branch, load_over branch, if_true, Edit.read_bind,
        Edit.lift_bind_ok, Prod.exists, Edit.on_ok] at run
      obtain ⟨split', node', s₁, edited, run⟩ := run
      rw [Edit.bind_ok] at run
      obtain ⟨_, ⟨n₁, s₂⟩, patched, run⟩ := run
      obtain ⟨rfl, same⟩ := Edit.pure_ok.mp run
      cases same
      refine (appends deep h small edited).imp (fun _ _ => .refl _) ?_
      intro ws X h
      rw [mul_left_comm X] at h
      exact patchedLast (h.imp_left (filledNode_of_over rfl)) patched

theorem splitLast_filled {below : Ref → List V → Assertion} {sp : Split}
    (fills : Fills maxNodeSize per (before ++ [k])) (complete : k.2.length = per)
    (h : s.Holds (compact n (Slot.tag per) (before ++ [k]) *
      (below k.1 k.2 * (below sp.sibling [v] * (forest below before * R)))))
    (offset : sp.offset = k.2.length) (size : sp.size = k.2.length + 1)
    (small : (values (before ++ [k])).length < Slot.countBound) (room : 0 < maxNodeSize)
    (max : maxNodeSize < 2 ^ 24 - 2)
    (run : insertChild maxNodeSize none before.length sp (n, s) = (.ok split, (n', s'))) :
    Appended s' (filledOver maxNodeSize per below n') (filledNode maxNodeSize per below)
      (maxNodeSize * per) (values (before ++ [k])) v R split := by
  have untag := Slot.untag_tag fills.small
  rcases Branch.insertChild_compact h (Slot.isRef_tag _) (untag.symm ▸ fills.regular)
      (untag.symm ▸ complete) offset size (show [v].length = 1 from rfl) small max run with
    ⟨rfl, more, h⟩ | ⟨q, n₂, rfl, most, at_ref, offset, size, h⟩
  · exact holds_filledOver_mul.mpr ⟨before ++ [k, (sp.sibling, [v])], by simp,
      fills.widened sp.sibling (by simp) complete more, h.of_eq (by simp; ac_rfl)⟩
  · have count := Nat.le_antisymm fills.most most
    have sibling : s'.Holds (filledOver maxNodeSize per below n₂ [v] *
        (compact n' (Slot.tag per) (before ++ [k]) * (forest below (before ++ [k]) * R))) :=
      holds_filledOver_mul.mpr ⟨[(sp.sibling, [v])], rfl, .single _ (by simp) room fills.small,
        h.of_eq (by simp; ac_rfl)⟩
    refine ⟨?_, offset, size, holds_filledOver_mul.mpr ⟨before ++ [k], rfl, fills, ?_⟩⟩
    · rw [List.length_append, List.length_singleton] at count
      rw [fills.length, complete, ← Nat.succ_mul, Nat.succ_eq_add_one, count]
    · exact (sibling.imp_left (filledNode_of_over at_ref)).of_eq (by ac_rfl)

theorem appendBelow_filled (appends : AppendsBelow L maxNodeSize v fuel) (deep : height ≤ fuel)
    (h : s.Holds (filledBranch L maxNodeSize height n vs * R)) (small : vs.length < Slot.countBound)
    (room : 0 < maxNodeSize) (max : maxNodeSize < 2 ^ 24 - 2)
    (run : insertBelow (L := L) maxNodeSize v (fuel + 1) none (n, s) = (.ok split, (n', s'))) :
    Appended s' (filledBranch L maxNodeSize height n') (filledAt L maxNodeSize (height + 1))
      (maxNodeSize ^ (height + 2)) vs v R split := by
  obtain ⟨kids, rfl, fills, h⟩ := holds_filledOver_mul.mp h
  obtain ⟨before, k, rfl⟩ := List.eq_nil_or_concat' kids |>.resolve_left fills.ne
  obtain ⟨own, node⟩ := h.reads
  have count : childCount n - 1 = before.length := by
    simp [Branch.childCount_of_inner (fills.inner _ _ _ node)]
  have shorter := Nat.lt_of_le_of_lt (length_le_values (show k ∈ before ++ [k] by simp)) small
  simp only [insertBelow, Edit.self_bind, count] at run
  rw [Edit.bind_ok] at run
  obtain ⟨split', ⟨n₁, s₁⟩, child, run⟩ := run
  have h : s.Holds (compact n (Slot.tag (maxNodeSize ^ (height + 1))) (before ++ [k]) *
      (filledAt L maxNodeSize height k.1 k.2 *
        (forest (filledAt L maxNodeSize height) before * R))) :=
    h.of_eq (by simp; ac_rfl)
  have h := appendToChild_holds appends deep fills h shorter room max child
  cases split' with
  | none =>
      rw [Edit.bind_ok] at run
      obtain ⟨_, ⟨n₂, s₂⟩, total, run⟩ := run
      obtain ⟨rfl, same⟩ := Edit.pure_ok.mp run
      cases same
      rw [Appended, OverLast, Store.holds_any_mul] at h
      obtain ⟨r, h⟩ := h
      have one : (k.2 ++ [v]).length = k.2.length + 1 := by simp
      have h := Branch.grown_compact (h.of_eq (mul_assoc _ _ _)) one total
      exact holds_filledOver_mul.mpr ⟨before ++ [(r, k.2 ++ [v])], by simp,
        fills.grown r (by simp), h.of_eq (by simp; ac_rfl)⟩
  | some sp =>
      -- Only a complete child splits, and all complete children have the same size.
      obtain ⟨complete, offset, size, h⟩ := h
      rw [OverLast, Store.holds_any_mul] at h
      obtain ⟨r, h⟩ := h
      have h := h.of_eq (mul_assoc _ _ _)
      -- The child is as large as it was, at the ref where the append left it.
      have fills := fills.grown r (fills.full k (by simp))
      obtain ⟨_, node⟩ := h.reads
      simp only [Edit.self_bind, Edit.read_bind,
        Branch.offsets_of_inner (fills.inner _ _ _ node)] at run
      have same : values (before ++ [(r, k.2)]) = values (before ++ [k]) := by simp
      rw [← same] at small ⊢
      have h := splitLast_filled fills complete h offset size small room max run
      rwa [← pow_succ'] at h

theorem appendsBelow (room : 0 < maxNodeSize) (max : maxNodeSize < 2 ^ 24 - 2) (fuel : Nat) :
    AppendsBelow L maxNodeSize v fuel := by
  induction fuel with
  | zero => exact fun none => absurd none (Nat.not_lt_zero _)
  | succ fuel ih =>
      intro height n n' vs s s' R split deep h small run
      exact appendBelow_filled ih (Nat.le_of_lt_succ deep) h small room max run

/-! ### The root -/

/-- The tree holds the list `vs`, and its nodes are as an append leaves them. -/
def filled (maxNodeSize : Nat) (t : Tree L) (vs : List V) : Assertion :=
  match t.root with
  | .leaf l => .fact (vs.length ≤ maxNodeSize) * ListLeaf.holds l vs
  | .inner n => .any fun height => filledBranch L maxNodeSize height n vs

theorem leaf_of_filled (h : s.Holds (filled maxNodeSize t vs * R)) (root : t.root = .leaf l) :
    vs.length ≤ maxNodeSize ∧ s.Holds (ListLeaf.holds l vs * R) := by
  rwa [filled, root, mul_assoc, Store.holds_fact_mul] at h

theorem inner_of_filled (h : s.Holds (filled maxNodeSize t vs * R)) (root : t.root = .inner n) :
    ∃ height, s.Holds (filledBranch L maxNodeSize height n vs * R) := by
  rwa [filled, root, Store.holds_any_mul] at h

/-- A tree of filled nodes has a height that reads of its memory reach. -/
theorem filledAt_of_filled (h : s.Holds (filled maxNodeSize t vs * R)) :
    ∃ height ≤ Node.depthBound s.memory,
      s.Holds (filledAt L maxNodeSize height t.ref vs * R) := by
  cases root : t.root with
  | leaf l =>
      obtain ⟨fits, h⟩ := leaf_of_filled h root
      refine ⟨0, Nat.zero_le _, ?_⟩
      simp only [filledAt, mul_assoc, Store.holds_fact_mul]
      exact ⟨fits, holds_leaf_mul.mpr ⟨l, by rw [ref, root], h⟩⟩
  | inner n =>
      obtain ⟨height, h⟩ := inner_of_filled h root
      obtain ⟨_, branch⟩ := h.reads
      have same : n.ref = t.ref := by rw [ref, root]
      exact ⟨height + 1, height_lt_depthBound branch, h.imp_left (filledNode_of_over same)⟩

theorem newRoot_filled {sp : Split} (h : s.Holds (filledAt L maxNodeSize height r vs *
      (filledAt L maxNodeSize height sp.sibling [v] * R)))
    (complete : vs.length = maxNodeSize ^ (height + 1)) (offset : sp.offset = vs.length)
    (size : sp.size = vs.length + 1) (small : vs.length < Slot.countBound) (room : 2 ≤ maxNodeSize)
    (run : newRoot r true sp s = (.ok n, s')) :
    s'.Holds (filledBranch L maxNodeSize height n (vs ++ [v]) * R) := by
  obtain ⟨_, held⟩ := h.reads
  have some : vs ≠ [] := by
    rw [← List.length_pos_iff, complete]
    exact Nat.pow_pos (by omega)
  have whole : sp.size = (vs ++ [v]).length := by simp [size]
  have h := newRoot_compact h whole (stays_of_filled held) run
  rw [offset, complete] at h
  refine holds_filledOver_mul.mpr ⟨[(r, vs), (sp.sibling, [v])], by simp, ?_,
    h.of_eq (by simp [mul_assoc])⟩
  refine ⟨by simp, by simp [some], room, ?_, complete ▸ small⟩
  simp [Regular, complete]

/-- The rest of an append: a tree that split gets a new root. -/
theorem grow_filled {here : List V → Assertion}
    (h : Appended s here (filledAt L maxNodeSize height) (maxNodeSize ^ (height + 1)) vs v R split)
    (whole : ∀ ws, (here ws).Entails (filled maxNodeSize t ws))
    (part : ∀ ws, (here ws).Entails (filledAt L maxNodeSize height t.ref ws))
    (small : vs.length < Slot.countBound) (room : 2 ≤ maxNodeSize)
    (run : (do
      if let some split := split then
        let t ← Edit.self
        setRoot (.inner (← newRoot t.ref true split)) : Edit (Tree L) Unit) (t, s) =
          (.ok (), (t', s'))) :
    t'.maxNodeSize = t.maxNodeSize ∧ s'.Holds (filled maxNodeSize t' (vs ++ [v]) * R) := by
  cases split with
  | none =>
      obtain ⟨-, same⟩ := Edit.pure_ok.mp run
      cases same
      exact ⟨rfl, h.imp_left (whole _)⟩
  | some sp =>
      obtain ⟨complete, offset, size, h⟩ := h
      simp only [Edit.self_bind, Edit.lift_bind_ok, setRoot, Edit.update_apply] at run
      obtain ⟨root, s₁, create, result⟩ := run
      cases result
      refine ⟨rfl, (newRoot_filled (h.imp_left (part vs)) complete offset size small room
        create).imp_left ?_⟩
      exact fun _ _ _ held => ⟨height, held⟩

theorem add_filled (h : s.Holds (filled t.maxNodeSize t vs * R))
    (small : vs.length < Slot.countBound) (room : 2 ≤ t.maxNodeSize)
    (max : t.maxNodeSize < 2 ^ 24 - 2) (run : add v (t, s) = (.ok (), (t', s'))) :
    t'.maxNodeSize = t.maxNodeSize ∧ s'.Holds (filled t.maxNodeSize t' (vs ++ [v]) * R) := by
  simp only [add, insert, Edit.self_bind, Edit.read_bind, true_or, if_true, decide_true] at run
  cases root : t.root with
  | leaf l =>
      simp only [root] at run
      obtain ⟨split, ⟨t₁, s₁⟩, edit, run⟩ := Edit.bind_ok.mp run
      simp only [editLeaf, Edit.self_bind, Edit.inside_ok] at edit
      obtain ⟨l', edit, rfl⟩ := edit
      obtain ⟨fits, h⟩ := leaf_of_filled h root
      have h := appendToLeaf_holds h fits (by omega) max edit
      refine grow_filled (t := ⟨.leaf l', t.maxNodeSize⟩) h
        (fun _ => .refl _) (fun ws => (Assertion.Entails.refl _).mul ?_) small room run
      exact fun _ _ _ held => holds_leaf.mpr ⟨l', rfl, held⟩
  | inner n =>
      simp only [root, Edit.read_bind] at run
      obtain ⟨height, h⟩ := inner_of_filled h root
      obtain ⟨_, branch⟩ := h.reads
      obtain ⟨split, ⟨t₁, s₁⟩, edit, run⟩ := Edit.bind_ok.mp run
      simp only [editInner, Edit.self_bind, Edit.inside_ok] at edit
      obtain ⟨n', edit, rfl⟩ := edit
      have h := appendsBelow (by omega) max _ (height_lt_depthBound branch) h small edit
      refine grow_filled (t := ⟨.inner n', t.maxNodeSize⟩) h ?_ ?_ small room run
      · exact fun ws m base own held => ⟨height, held⟩
      · exact fun ws => filledNode_of_over rfl

end Append

/-! ### The shape -/

section Read

variable [ListLeaf L]

theorem Fills.complete (fills : Fills maxNodeSize per (before ++ [k])) (most : k.2.length ≤ per)
    (full : (values (before ++ [k])).length = maxNodeSize * per) :
    before.length + 1 = maxNodeSize ∧ k.2.length = per := by
  have some : 0 < k.2.length := List.length_pos_iff.mpr (fills.full k (by simp))
  have count := fills.most
  rw [List.length_append, List.length_singleton] at count
  rw [fills.length] at full
  -- Fewer children or a smaller last one would make the sum smaller.
  have upper : (before.length + 1) * per ≤ maxNodeSize * per := Nat.mul_le_mul_right _ count
  rw [Nat.succ_mul] at upper
  have last : k.2.length = per := by omega
  refine ⟨Nat.eq_of_mul_eq_mul_right (show 0 < per by omega) ?_, last⟩
  rw [Nat.succ_mul, ← full, last]

theorem filledWith_over {shapeOf : Ref → Shape}
    (fills : Fills maxNodeSize (maxNodeSize ^ (height + 1)) kids)
    (node : (compact n (Slot.tag (maxNodeSize ^ (height + 1))) kids).holds m base own)
    (most : ∀ k ∈ kids, k.2.length ≤ maxNodeSize ^ (height + 1))
    (each : ∀ k ∈ kids, (shapeOf k.1).FilledWith maxNodeSize height k.2.length) :
    (Branch.innerShape m n none kids shapeOf).FilledWith maxNodeSize (height + 1)
      (values kids).length := by
  obtain ⟨before, k, rfl⟩ := List.eq_nil_or_concat' kids |>.resolve_left fills.ne
  have per : Branch.perChild m n = maxNodeSize ^ (height + 1) := by
    rw [Branch.perChild_of_compact node, Slot.untag_tag fills.small]
  have last := each k (by simp)
  have whole := Branch.regular_sizes.mp fills.regular
  refine ⟨⟨per, by simpa using fills.most, (refs before).map shapeOf, shapeOf k.1, by simp, ?_,
    last.filled⟩, ?_, fun full => ?_⟩
  · simp only [refs, List.forall_mem_map]
    exact fun j inside => (each j (by simp [inside])).complete (whole j inside)
  · have counts : ((refs (before ++ [k])).map shapeOf).map Shape.elements =
        sizes (before ++ [k]) := by
      rw [refs, List.map_map, List.map_map]
      exact List.map_congr_left fun j inside => (each j inside).elements
    rw [Branch.innerShape, Shape.elements, Shape.elementsIn_eq, counts, Branch.sum_sizes]
  · rw [pow_succ'] at full
    obtain ⟨count, full⟩ := fills.complete (most k (by simp)) full
    refine ⟨per, by simpa using count, ?_⟩
    simp only [refs, List.forall_mem_map, List.forall_mem_append, List.forall_mem_singleton]
    exact ⟨fun j inside => (each j (by simp [inside])).complete (whole j inside),
      last.complete full⟩

theorem filledWith_of_filled {fuel : Nat}
    (h : (filledAt L maxNodeSize height r vs).holds m base own)
    (small : vs.length < Slot.countBound) (deep : height ≤ fuel) :
    (Branch.shapeWithin m (fun r => Leaf.size (Leaf.load m r : L)) fuel r).FilledWith maxNodeSize
      height vs.length := by
  induction height generalizing fuel r vs own with
  | zero =>
      obtain ⟨fits, leaf⟩ := Assertion.fact_mul.mp h
      rw [shapeWithin_leaf leaf]
      exact ⟨fits, rfl, fun full => by rwa [Nat.zero_add, pow_one] at full⟩
  | succ height ih =>
      obtain ⟨fuel, rfl⟩ : ∃ k, fuel = k + 1 := Nat.exists_eq_succ_of_ne_zero (by omega)
      obtain ⟨n, h⟩ := h
      obtain ⟨rfl, branch⟩ := Assertion.fact_mul.mp h
      obtain ⟨kids, rfl, fills, x, y, -, -, node, below⟩ := holds_filledOver.mp branch
      have kid (k) (inside : k ∈ kids) := forest_mem inside below
      rw [Branch.shapeWithin_inner (fills.inner _ _ _ node) ?_ small]
      · refine filledWith_over fills node (fun k inside => ?_) (fun k inside => ?_)
        · obtain ⟨_, kid⟩ := kid k inside
          exact length_filled kid
        · obtain ⟨_, kid⟩ := kid k inside
          exact ih kid (Nat.lt_of_le_of_lt (length_le_values inside) small)
            (Nat.le_of_succ_le_succ deep)
      · intro k inside
        obtain ⟨_, kid⟩ := kid k inside
        exact (ref_treeAt (treeAt_of_built (built_of_filled kid))).2

end Read

/-! ### Runs of appends -/

variable [LawfulLeaf L] [OwnOps L X]

theorem create_filled (sound : s.Sound) (run : create maxNodeSize s = (.ok t, s')) :
    t.maxNodeSize = maxNodeSize ∧ s'.Holds (filled maxNodeSize t ([] : List V) * 1) := by
  simp only [create, StoreM.bind_ok, StoreM.pure_ok] at run
  obtain ⟨l, _, made, rfl, rfl⟩ := run
  refine ⟨rfl, ?_⟩
  simp only [filled, mul_assoc, Store.holds_fact_mul]
  exact ⟨Nat.zero_le _, LawfulLeaf.create (Store.holds_one sound) made⟩

theorem run_adds {us : List V} (h : s.Holds (filled maxNodeSize t us * R))
    (same : t.maxNodeSize = maxNodeSize) (small : (us ++ vs).length < Slot.countBound)
    (room : 2 ≤ maxNodeSize) (max : maxNodeSize < 2 ^ 24 - 2)
    (ok : run (vs.map .add : List (Op V X)) (t, s) = (.ok (), (t', s'))) :
    s'.Holds (filled maxNodeSize t' (us ++ vs) * R) := by
  induction vs generalizing t s us with
  | nil =>
      obtain ⟨-, same⟩ := Edit.pure_ok.mp ok
      cases same
      rwa [List.append_nil]
  | cons v vs ih =>
      rw [List.map_cons, run, Edit.bind_ok] at ok
      obtain ⟨_, ⟨t₁, s₁⟩, first, rest⟩ := ok
      subst same
      have shorter : us.length < Slot.countBound := by
        rw [List.length_append] at small
        omega
      obtain ⟨same, h⟩ := add_filled h shorter room max first
      rw [List.append_cons] at small ⊢
      exact ih h same small rest

/-- A tree that was created and then only appended to is filled. -/
theorem run_filled {s₀ : Store} (sound : s₀.Sound) (created : create maxNodeSize s₀ = (.ok t, s))
    (room : 2 ≤ maxNodeSize) (max : maxNodeSize < 2 ^ 24 - 2)
    (small : vs.length < Slot.countBound)
    (ok : run (vs.map .add : List (Op V X)) (t, s) = (.ok (), (t', s'))) :
    ∃ height, (t'.shape s'.memory).Filled maxNodeSize height ∧
      (t'.shape s'.memory).elements = vs.length := by
  obtain ⟨same, h⟩ := create_filled sound created
  have h : s'.Holds (filled maxNodeSize t' vs * 1) := run_adds h same small room max ok
  obtain ⟨height, deep, h⟩ := filledAt_of_filled h
  obtain ⟨_, held⟩ := h.reads
  have shape := filledWith_of_filled held small deep
  exact ⟨height, shape.filled, shape.elements⟩

theorem run_filled_split : ∃ (t t' : Tree Node) (s s' : Store),
    create 2 (.empty {}) = (.ok t, s) ∧
      run (List.map .add [3, 9, 300] : List (Op Int64 AdjustOp)) (t, s) = (.ok (), (t', s')) ∧
      ∃ height, (t'.shape s'.memory).Filled 2 height ∧ (t'.shape s'.memory).elements = 3 := by
  obtain ⟨t, t', s, s', created, ok⟩ := exists_run
    (show ((do Edit.on (← (create 2 : StoreM (Tree Node))) (run (List.map .add [3, 9, 300])) :
      StoreM (Unit × Tree Node)) (.empty {})).1.isOk = true by decide +kernel)
  exact ⟨t, t', s, s', created, ok,
    run_filled (Store.sound_empty {}) created (by decide) (by decide) (by decide) ok⟩

end Tree

end ColumnStore
