import ColumnStore.Column.Int
import ColumnStore.Proofs.TreeErase

set_option autoImplicit false

/-!
Updates in place. Every child keeps its size, so that of the inner nodes only refs change.
-/
namespace ColumnStore.Tree

open Branch (Full inner values sizes isInner child childCount)

variable {L V : Type} [Leaf L V] [EditableLeaf L] {s s' : Store} {R : Assertion} {r : Ref}
  {vs new : List V} {v : V} {n n' : Node} {depth fuel least : Nat} {i : Nat} {o : Option Node}
  {before after : List (Ref × List V)} {k : Ref × List V} {b : Build}

/-- The edit leaves `new` in a leaf with the values `vs`. -/
def EditsLeaf (e : Edit L Unit) (vs new : List V) : Prop :=
  ∀ {l l' : L} {s s' : Store} {R : Assertion}, s.Holds (ListLeaf.holds l vs * R) →
    e (l, s) = (.ok (), (l', s')) → s'.Holds (ListLeaf.holds l' new * R)

/-- The edit leaves `new` below an inner node that its fuel suffices for. -/
def EditsBelow (b : Build) (L : Type) {V : Type} [Leaf L V] [ListLeaf L] (fuel : Nat)
    (e : Edit Node Unit) (vs new : List V) : Prop :=
  ∀ {depth least : Nat} {n n' : Node} {s s' : Store} {R : Assertion}, depth < fuel →
    s.Holds (builtOver b least (builtAt b L depth) n vs * R) → e (n, s) = (.ok (), (n', s')) →
      s'.Holds (builtOver b least (builtAt b L depth) n' new * R)

/-- An inner node tells only the size of a child. -/
theorem inner_resized (same : new.length = vs.length) :
    inner n o (before ++ (r, new) :: after) = inner n o (before ++ (r, vs) :: after) := by
  simp only [Branch.inner, Branch.refs_append, Branch.refs_cons, Branch.sizes_append, Branch.sizes_cons,
    Branch.values_append, Branch.values_cons, List.length_append, same]

theorem editChild_holds {leaf : Edit L Unit} {node : Edit Node Unit} (same : new.length = k.2.length)
    (edits : EditsLeaf leaf k.2 new) (editsBelow : EditsBelow b L fuel node k.2 new)
    (deep : depth ≤ fuel)
    (h : s.Holds (inner n o (before ++ k :: after) * (builtAt b L depth k.1 k.2 * R)))
    (run : (if isInner s.memory k.1 then editInnerChild before.length k.1 node
      else editLeafChild before.length k.1 leaf) (n, s) = (.ok (), (n', s'))) :
    ∃ r, s'.Holds (inner n' o (before ++ (r, new) :: after) * (builtAt b L depth r new * R)) := by
  rw [mul_left_comm] at h
  have found : s'.Holds (Over b L depth n' o before k.2 after new * R) := by
    rcases holds_builtAt_mul.mp h with leaf | ⟨below, node, rfl, place, tree⟩
    · obtain ⟨level, fits, l, place, held⟩ := holds_builtLeaf_mul.mp leaf
      obtain ⟨_, here⟩ := held.reads
      simp only [editLeafChild, ← place, ListLeaf.outer here, ListLeaf.load here,
        Bool.false_eq_true, if_false, Edit.read_bind, Edit.lift_bind_ok, Prod.exists, Edit.on_ok] at run
      obtain ⟨_, l', s₁, edited, patched⟩ := run
      rw [← same] at fits
      exact patched_over (holds_builtAt_mul.mpr
        (.inl (holds_builtLeaf_mul.mpr ⟨level, fits, l', rfl, edits held edited⟩))) patched
    · obtain ⟨_, here⟩ := tree.reads
      have here := over_of_built here
      simp only [editInnerChild, Edit.read_bind, ← place, isInner_over here, load_over here, if_true,
        Node.loadM, Edit.lift_bind_ok, Prod.exists, Edit.on_ok] at run
      obtain ⟨_, node', s₁, edited, patched⟩ := run
      refine patched_over ((editsBelow deep tree edited).imp_left ?_) patched
      exact fun m base own held => builtAt_of_over rfl held
  rw [Over, Store.holds_any_mul] at found
  obtain ⟨r, found⟩ := found
  refine ⟨r, ?_⟩
  rwa [inner_resized same, ← mul_assoc]

/-- An edit of the root leaves `new` in the tree. -/
theorem editRoot_built {t t' : Tree L} {leaf : Edit L Unit} {node : Nat → Edit Node Unit}
    (same : new.length = vs.length) (edits : EditsLeaf leaf vs new)
    (editsBelow : ∀ fuel, EditsBelow b L fuel (node fuel) vs new)
    (h : s.Holds (built b least t vs * R))
    (run : (do
      let t ← Edit.self
      match t.root with
      | .leaf l => editLeaf l leaf
      | .inner n => editInner n (node (← StoreM.read Node.depthBound)) : Edit (Tree L) Unit) (t, s) =
        (.ok (), (t', s'))) :
    t'.maxNodeSize = t.maxNodeSize ∧ s'.Holds (built b least t' new * R) := by
  cases root : t.root with
  | leaf l =>
      obtain ⟨fits, h⟩ := leaf_of_built h root
      simp only [Edit.self_bind, root, editLeaf, Edit.inside_ok] at run
      obtain ⟨l', edit, rfl⟩ := run
      refine ⟨rfl, ?_⟩
      simp only [built, mul_assoc, Store.holds_fact_mul]
      exact ⟨same ▸ fits, edits h edit⟩
  | inner n =>
      obtain ⟨depth, deep, tree⟩ := over_of_built_mul h root
      simp only [Edit.self_bind, root, Edit.read_bind, editInner, Edit.inside_ok] at run
      obtain ⟨n', edit, rfl⟩ := run
      exact ⟨rfl, built_inner (editsBelow _ deep tree edit)⟩

/-! ### One value -/

theorem values_set {j : Nat} (inside : j < k.2.length) :
    (values (before ++ k :: after)).set ((values before).length + j) v =
      values before ++ k.2.set j v ++ values after := by
  rw [Branch.values_append, Branch.values_cons, List.set_append_right _ _ (Nat.le_add_right ..),
    Nat.add_sub_cancel_left, List.set_append_left _ _ inside, List.append_assoc]

theorem setBelow_holds (fuel : Nat) (inside : i < vs.length) (small : vs.length < Slot.countBound) :
    EditsBelow b L fuel (setBelow (L := L) v fuel i) vs (vs.set i v) := by
  induction fuel generalizing i vs with
  | zero => exact fun none => absurd none (Nat.not_lt_zero _)
  | succ fuel ih =>
      intro depth least n n' s s' R deep h run
      obtain ⟨o, kids, rfl, -, full, many, fits, h⟩ := holds_builtOver_mul.mp h
      obtain ⟨before, k, after, rfl, lower, upper⟩ := Branch.exists_kid inside
      obtain ⟨_, node⟩ := h.reads
      -- The edit looks the child up by the ends or by division; both give `before.length`.
      have place := Branch.locate_of_inner node rfl full small lower upper
      obtain ⟨j, rfl⟩ := Nat.exists_eq_add_of_le lower
      rw [Nat.add_sub_cancel_left] at place
      have inside : j < k.2.length := by omega
      have shorter := Nat.lt_of_le_of_lt (length_le_values (show k ∈ before ++ k :: after by simp)) small
      have h : s.Holds (inner n o (before ++ k :: after) * (builtAt b L depth k.1 k.2 *
          (forest (builtAt b L depth) before * (forest (builtAt b L depth) after * R)))) :=
        h.of_eq (by simp; ac_rfl)
      simp only [setBelow, Edit.self_bind, Edit.read_bind, Branch.offsets_of_inner node, place,
        child_of_holds h] at run
      obtain ⟨r, h⟩ := editChild_holds List.length_set (fun h edit => EditableLeaf.set h inside edit)
        (ih inside shorter) (Nat.le_of_lt_succ deep) h run
      rw [Branch.full_append, Branch.full_cons] at full
      rw [length_mid] at many fits
      rw [values_set inside]
      refine grown_over h full.1 full.2.2 ?_ many fits
      rw [ne_eq, List.set_eq_nil_iff]
      exact full.2.1

/-! ### Every value -/

/-- The edit maps `f` over a leaf. -/
def MapsLeaf (e : Edit L Unit) (f : V → V) : Prop := ∀ vs, EditsLeaf e vs (vs.map f)

theorem updateChildren_holds {e : Edit L Unit} {f : V → V} (before after : List (Ref × List V))
    (maps : MapsLeaf e f)
    (below : ∀ vs, EditsBelow b L fuel (updateBelow e fuel) vs (vs.map f)) (deep : depth ≤ fuel)
    (h : s.Holds (inner n o (before ++ after) * (forest (builtAt b L depth) (before ++ after) * R)))
    (run : updateChildren e fuel before.length after.length (n, s) = (.ok (), (n', s'))) :
    ∃ after', sizes after' = sizes after ∧ values after' = (values after).map f ∧
      s'.Holds (inner n' o (before ++ after') *
        (forest (builtAt b L depth) (before ++ after') * R)) := by
  induction after generalizing before n s with
  | nil =>
      rw [List.length_nil, updateChildren] at run
      obtain ⟨-, same⟩ := Edit.pure_ok.mp run
      cases same
      exact ⟨[], rfl, rfl, h⟩
  | cons k after ih =>
      have h : s.Holds (inner n o (before ++ k :: after) * (builtAt b L depth k.1 k.2 *
          (forest (builtAt b L depth) before * (forest (builtAt b L depth) after * R)))) :=
        h.of_eq (by simp; ac_rfl)
      rw [List.length_cons, updateChildren] at run
      simp only [Edit.self_bind, Edit.read_bind, child_of_holds h] at run
      -- The two kinds of children differ in their edit only.
      obtain ⟨⟨n₁, s₁⟩, first, rest⟩ : ∃ q, (if isInner s.memory k.1 then
          editInnerChild before.length k.1 (updateBelow e fuel)
          else editLeafChild before.length k.1 e) (n, s) = (.ok (), q) ∧
          updateChildren e fuel (before.length + 1) after.length q = (.ok (), (n', s')) := by
        split at run
        next inner =>
          obtain ⟨_, q, first, rest⟩ := Edit.bind_ok.mp run
          exact ⟨q, by rw [if_pos inner]; exact first, rest⟩
        next leaf =>
          obtain ⟨_, q, first, rest⟩ := Edit.bind_ok.mp run
          exact ⟨q, by rw [if_neg leaf]; exact first, rest⟩
      -- The edited child joins those before it.
      obtain ⟨r, h⟩ := editChild_holds (List.length_map _) (maps k.2) (below k.2) deep h first
      have h : s₁.Holds (inner n₁ o ((before ++ [(r, k.2.map f)]) ++ after) *
          (forest (builtAt b L depth) ((before ++ [(r, k.2.map f)]) ++ after) * R)) :=
        h.of_eq (by simp; ac_rfl)
      have place : before.length + 1 = (before ++ [(r, k.2.map f)]).length := by simp
      rw [place] at rest
      obtain ⟨after', sizes', values', h⟩ := ih _ h rest
      refine ⟨(r, k.2.map f) :: after', ?_, ?_, h.of_eq (by simp)⟩
      · rw [Branch.sizes_cons, Branch.sizes_cons, sizes', List.length_map]
      · rw [Branch.values_cons, Branch.values_cons, values', List.map_append]

theorem updateBelow_holds {e : Edit L Unit} {f : V → V} (maps : MapsLeaf e f) (fuel : Nat) :
    ∀ vs, EditsBelow b L fuel (updateBelow e fuel) vs (vs.map f) := by
  induction fuel with
  | zero => exact fun _ _ _ _ _ _ _ _ none => absurd none (Nat.not_lt_zero _)
  | succ fuel ih =>
      intro vs depth least n n' s s' R deep h run
      obtain ⟨o, kids, rfl, ne, full, many, fits, h⟩ := holds_builtOver_mul.mp h
      obtain ⟨_, node⟩ := h.reads
      simp only [updateBelow, Edit.self_bind, Branch.childCount_of_inner node] at run
      obtain ⟨kids', sizes', values', h⟩ :=
        updateChildren_holds [] kids maps ih (Nat.le_of_lt_succ deep) h run
      rw [← values']
      have count : kids'.length = kids.length := by
        simpa using congrArg List.length sizes'
      refine over_intro depth n' kids' h ?_ ?_ (count ▸ many) (count ▸ fits)
      · rintro rfl
        exact ne (List.map_eq_nil_iff.mp sizes'.symm)
      · rwa [Branch.full_iff_sizes, sizes', ← Branch.full_iff_sizes]

/-! ### Trees -/

theorem set_built {t t' : Tree L} (h : s.Holds (built b least t vs * R)) (inside : i < vs.length)
    (small : vs.length < Slot.countBound) (run : set i v (t, s) = (.ok (), (t', s'))) :
    t'.maxNodeSize = t.maxNodeSize ∧ s'.Holds (built b least t' (vs.set i v) * R) :=
  editRoot_built List.length_set (fun h edit => EditableLeaf.set h inside edit)
    (fun fuel => setBelow_holds fuel inside small) h run

theorem set_holds {t t' : Tree L} (h : s.Holds (holds t vs * R)) (inside : i < vs.length)
    (small : vs.length < Slot.countBound) (run : set i v (t, s) = (.ok (), (t', s'))) :
    t'.maxNodeSize = t.maxNodeSize ∧ s'.Holds (holds t' (vs.set i v) * R) := by
  rw [← built_any] at h ⊢
  exact set_built h inside small run

theorem updateLeaves_holds {t t' : Tree L} {e : Edit L Unit} {f : V → V} (maps : MapsLeaf e f)
    (h : s.Holds (holds t vs * R)) (run : updateLeaves e (t, s) = (.ok (), (t', s'))) :
    t'.maxNodeSize = t.maxNodeSize ∧ s'.Holds (holds t' (vs.map f) * R) := by
  rw [← built_any] at h ⊢
  exact editRoot_built (List.length_map _) (maps vs) (fun fuel => updateBelow_holds maps fuel vs) h
    run

end ColumnStore.Tree

namespace ColumnStore.IntColumn

variable {s s' : Store} {c c' : IntColumn} {vs : List Int64} {R : Assertion} {d : Int64} {i : Nat}

theorem adjust_holds (h : s.Holds (Tree.holds c vs * R)) (inside : i < vs.length)
    (small : vs.length < Slot.countBound) (run : adjust i d (c, s) = (.ok (), (c', s'))) :
    c'.maxNodeSize = c.maxNodeSize ∧ s'.Holds (Tree.holds c' (vs.modify i (· + d)) * R) := by
  obtain ⟨_, here⟩ := h.reads
  simp only [adjust, Edit.self_bind, Edit.read_bind, Tree.get_of_holds here small inside] at run
  rw [List.modify_eq_set, List.getElem?_eq_getElem inside]
  exact Tree.set_holds h inside small run

theorem addAll_maps (d : Int64) :
    Tree.MapsLeaf (do let leaf ← Edit.self; Node.adjustRange 0 leaf.size d) (· + d) := by
  intro vs l l' s s' R h run
  obtain ⟨_, here⟩ := h.reads
  simp only [Edit.self_bind, Node.size_of_packed here] at run
  have h := Node.adjustRange_holds h (Nat.le_refl _) run
  have all : Node.addBetween 0 vs.length d vs = vs.map (· + d) := by
    apply List.ext_getElem (by simp)
    intro i inside _
    rw [Branch.length_addBetween] at inside
    rw [Branch.getElem_addBetween (by simpa using inside) inside, if_pos ⟨Nat.zero_le i, inside⟩,
      List.getElem_map]
  rwa [all] at h

theorem adjustAll_holds (h : s.Holds (Tree.holds c vs * R))
    (run : adjustAll d (c, s) = (.ok (), (c', s'))) :
    c'.maxNodeSize = c.maxNodeSize ∧ s'.Holds (Tree.holds c' (vs.map (· + d)) * R) :=
  Tree.updateLeaves_holds (addAll_maps d) h run

end ColumnStore.IntColumn
