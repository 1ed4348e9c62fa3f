import ColumnStore.Proofs.TreeInsert
import ColumnStore.Tree.Erase

set_option autoImplicit false

/-!
Removal from a tree. A child with a single element stays as it was until its parent frees it, also
when the search for the element brought inner nodes into the general form on the way.
-/
namespace ColumnStore

open Branch (Full inner values sizes isInner child childCount)

variable {L V : Type} [Leaf L V] [EditableLeaf L] {s s' : Store} {R : Assertion} {r : Ref}
  {vs ws : List V} {n n' : Node} {o : Option Node} {kids before after : List (Ref × List V)}
  {k : Ref × List V} {depth fuel least c : Nat} {i : Option Nat} {offsets : Option Node}
  {gone : Bool}

/-! ### Frees -/

theorem Branch.destroy_holds (h : s.Holds (inner n o kids * R))
    (run : Branch.destroy n s = (.ok (), s')) : s'.Holds R := by
  -- The node is freed last, whatever became of its ends.
  have last {first : Int64} {refs : List Ref} {total : Nat} {t : Store}
      (h : t.Holds (Node.packed .inner n (Branch.slots first refs total) * R))
      (run : n.destroy t = (.ok (), s')) : s'.Holds R := by
    have freed := Node.destroy_holds (h.imp_left Node.packed_entails)
    cases run
    exact freed
  cases o with
  | none =>
      obtain ⟨first, compact, -, h⟩ := Branch.holds_compact.mp h
      have slot : n.get s.memory 0 = first := (Node.packed_of_holds h).get (by simp)
      simp only [Branch.destroy, StoreM.read_bind, slot, compact, Bool.false_eq_true, if_false] at run
      exact last h run
  | some o =>
      have h := Branch.holds_general.mp h
      have slot : n.get s.memory 0 = Slot.ofRef o.ref := (Node.packed_of_holds h).get (by simp)
      rw [mul_left_comm] at h
      have stored := (Node.packed_of_holds h).live.stored
      simp only [Branch.destroy, StoreM.read_bind, slot, stored.isRef, if_true,
        Slot.toRef_ofRef stored.bound] at run
      obtain ⟨_, s₁, ends, run⟩ := StoreM.bind_ok.mp run
      exact last (Node.destroyDeepRef_holds (Node.owning_plain _ _) h ends) run

namespace Tree

variable {b : Build}

/-- The first child is all there is to an inner node with a single one. -/
theorem holds_first {n : Node} (h : s.Holds (builtOver b least (builtAt b L depth) n vs * R)) :
    ∃ o k kids, childCount n = kids.length + 1 ∧ child s.memory n 0 = k.1 ∧
      values (k :: kids) = vs ∧ s.Holds (inner n o (k :: kids) *
        (builtAt b L depth k.1 k.2 * (forest (builtAt b L depth) kids * R))) := by
  obtain ⟨o, kids, whole, some, full, -, -, h⟩ := holds_builtOver_mul.mp h
  obtain ⟨k, kids, rfl⟩ := List.exists_cons_of_ne_nil some
  rw [forest_cons, mul_assoc] at h
  obtain ⟨own, node⟩ := h.reads
  have first : child s.memory n ([] : List (Ref × List V)).length = k.1 := child_of_holds h
  exact ⟨o, k, kids, Branch.childCount_of_inner node, first, whole, h⟩

theorem destroyBranch_holds (h : s.Holds (builtAt b L depth r vs * R))
    (loose : ∀ v ∈ vs, EditableLeaf.Loose L v)
    (run : destroyBranch L fuel r s = (.ok (), s')) : s'.Holds R := by
  induction fuel generalizing depth r vs s R with
  | zero =>
      obtain ⟨-, rfl⟩ := StoreM.pure_ok.mp run
      exact h.right
  | succ fuel ih =>
      rcases holds_builtAt_mul.mp h with leaf | ⟨below, n, -, rfl, tree⟩
      · obtain ⟨-, -, l, rfl, held⟩ := holds_builtLeaf_mul.mp leaf
        obtain ⟨own, here⟩ := held.reads
        simp only [destroyBranch, StoreM.read_bind, ListLeaf.outer here, ListLeaf.load here,
          Bool.false_eq_true, if_false] at run
        exact EditableLeaf.destroy held loose run
      · obtain ⟨own, here⟩ := tree.reads
        have here := over_of_built here
        obtain ⟨o, k, kids, -, first, whole, tree⟩ := holds_first tree
        simp only [destroyBranch, StoreM.read_bind, isInner_over here, Node.loadM, load_over here,
          first, if_true] at run
        obtain ⟨_, s₁, freed, run⟩ := StoreM.bind_ok.mp run
        have loose : ∀ v ∈ k.2, EditableLeaf.Loose L v := fun v inside =>
          loose v (by simp [← whole, inside])
        -- The other children are not freed, and what they are is of no interest any more.
        exact (ih (Branch.destroy_holds tree freed) loose run).right

/-! ### The child that loses an element -/

/-- A node that is found at its old ref as before, should it have a single child. -/
def Kept (n n' : Node) (kids : List (Ref × List V)) : Assertion :=
  .either (.fact (kids.length = 1 → n'.ref = n.ref)) (inner n none kids)

theorem kept_of_ref (h : s.Holds (inner n' offsets kids * R))
    (same : kids.length = 1 → n'.ref = n.ref) :
    s.Holds (inner n' offsets kids * (Kept n n' kids * R)) := by
  rw [mul_left_comm, Kept, Store.holds_either_mul, Store.holds_fact_mul]
  exact .inl ⟨same, h⟩

theorem ensureOffsets_kept {o' : Node} (h : s.Holds (inner n o kids * R))
    (run : Branch.ensureOffsets (n, s) = (.ok o', (n', s'))) :
    s'.Holds (inner n' (some o') kids * (Kept n n' kids * R)) := by
  obtain ⟨own, here⟩ := h.reads
  cases o with
  | some o =>
      obtain ⟨rfl, rfl, rfl⟩ := Branch.ensureOffsets_general_ok (Branch.offsets_of_inner here) run
      exact kept_of_ref h fun _ => rfl
  | none =>
      by_cases image : n.ref < s.baseline
      · have h := Branch.ensureOffsets_holds (Branch.image_twice h image) run
        rw [mul_left_comm, Kept, Store.holds_either_mul]
        exact .inr (h.of_eq (mul_left_comm _ _ _))
      · apply kept_of_ref (Branch.ensureOffsets_holds h run)
        intro single
        obtain ⟨k, rfl⟩ := List.length_eq_one_iff.mp single
        exact Branch.ensureOffsets_ref h (Nat.le_of_not_lt image) run

theorem offsetsToErase_holds (h : s.Holds (inner n o kids * R))
    (run : offsetsToErase i (n, s) = (.ok offsets, (n', s'))) :
    s'.Holds (inner n' offsets kids * (Kept n n' kids * R)) ∧ (i ≠ none → offsets ≠ none) := by
  cases i with
  | none =>
      obtain ⟨own, here⟩ := h.reads
      obtain rfl := Branch.offsets_of_inner here
      simp only [offsetsToErase, Edit.self_bind, Option.isNone_none, if_true, Edit.lift_ok] at run
      obtain ⟨rfl, result⟩ := run
      cases result
      exact ⟨kept_of_ref h fun _ => rfl, fun some => absurd rfl some⟩
  | some i =>
      simp only [offsetsToErase, Edit.self_bind, Option.isNone_some, Bool.false_eq_true, if_false] at run
      obtain ⟨o', ⟨n₁, s₁⟩, general, run⟩ := Edit.bind_ok.mp run
      obtain ⟨rfl, same⟩ := Edit.pure_ok.mp run
      cases same
      exact ⟨ensureOffsets_kept h general, fun _ => Option.some_ne_none _⟩

theorem erasureChild_of_holds (h : s.Holds (inner n o kids * R)) (full : Full kids)
    (inside : i.getD ((values kids).length - 1) < (values kids).length)
    (small : (values kids).length < Slot.countBound) :
    ∃ before k after j, kids = before ++ k :: after ∧ j.getD (k.2.length - 1) < k.2.length ∧
      (values before).length + j.getD (k.2.length - 1) = i.getD ((values kids).length - 1) ∧
      (i = none → after = []) ∧ erasureChild s.memory n o i = (before.length, j) := by
  obtain ⟨own, here⟩ := h.reads
  have count := Branch.childCount_of_inner here
  cases i with
  | none =>
      have some : kids ≠ [] := by
        rintro rfl
        simp at inside
      obtain ⟨before, k, rfl⟩ := List.eq_nil_or_concat' kids |>.resolve_left some
      have last : k.2 ≠ [] := full k (by simp)
      have last := List.length_pos_iff.mpr last
      refine ⟨before, k, [], none, rfl, Nat.sub_one_lt_of_lt last, ?_, fun _ => rfl, ?_⟩
      · simp
        omega
      · simp [erasureChild, count]
  | some i =>
      rw [Option.getD_some] at inside ⊢
      obtain ⟨before, k, after, rfl, lower, upper⟩ := Branch.exists_kid inside
      have place := Branch.locate_of_inner here rfl full small lower upper
      refine ⟨before, k, after, some (i - (values before).length), rfl, ?_, ?_, nofun, ?_⟩
      · exact Nat.sub_lt_left_of_lt_add lower upper
      · exact Nat.add_sub_cancel' lower
      · simp [erasureChild, place]

/-- What an erasure leaves: the list without the element, or everything as it was, found at the
old ref and at the new one. -/
def Erased (b : Build) (L : Type) {V : Type} [Leaf L V] [ListLeaf L] (depth : Nat) (s : Store)
    (n n' : Node) (old new : List V) (R : Assertion) : Bool → Prop
  | false => s.Holds (builtOver b 0 (builtAt b L depth) n' new * R)
  | true => old.length = 1 ∧ s.Holds (builtOver b 0 (builtAt b L depth) n' old * R) ∧
      s.Holds (builtAt b L (depth + 1) n.ref old * R)

/-- The element at a place refers to no node. -/
def LooseAt (L : Type) {V : Type} [Leaf L V] [EditableLeaf L] (vs : List V) (i : Nat) : Prop :=
  ∀ v, vs[i]? = some v → EditableLeaf.Loose L v

theorem LooseAt.child {j : Nat} (inside : j < k.2.length)
    (loose : LooseAt L (values (before ++ k :: after)) ((values before).length + j)) :
    LooseAt L k.2 j := by
  intro v here
  refine loose v ?_
  rw [Branch.values_append, Branch.values_cons, List.getElem?_append_right (Nat.le_add_right ..),
    Nat.add_sub_cancel_left, List.getElem?_append_left inside, here]

theorem LooseAt.all {j : Nat} (loose : LooseAt L vs j) (inside : j < vs.length)
    (single : vs.length = 1) : ∀ v ∈ vs, EditableLeaf.Loose L v := by
  obtain ⟨v, rfl⟩ := List.length_eq_one_iff.mp single
  obtain rfl : j = 0 := Nat.lt_one_iff.mp inside
  intro w here
  rw [List.mem_singleton.mp here]
  exact loose v rfl

/-- What is known of erasures with less fuel, for the node above. -/
def ErasesBelow (b : Build) (L : Type) {V : Type} [Leaf L V] [EditableLeaf L] (fuel : Nat) :
    Prop :=
  ∀ {depth least : Nat} {n n' : Node} {vs : List V} {i : Option Nat} {s s' : Store}
    {R : Assertion} {gone : Bool}, depth < fuel →
    s.Holds (builtOver b least (builtAt b L depth) n vs * R) →
    i.getD (vs.length - 1) < vs.length → vs.length < Slot.countBound →
    LooseAt L vs (i.getD (vs.length - 1)) → eraseBelow L fuel i (n, s) = (.ok gone, (n', s')) →
      Erased b L depth s' n n' vs (vs.eraseIdx (i.getD (vs.length - 1))) R gone

theorem ne_nil_of_over (h : s.Holds (builtOver b least (builtAt b L depth) n vs * R)) :
    vs ≠ [] := by
  obtain ⟨o, kids, rfl, some, full, -⟩ := holds_builtOver_mul.mp h
  obtain ⟨k, kids, rfl⟩ := List.exists_cons_of_ne_nil some
  rw [Branch.full_cons] at full
  simp [full.1]

/-- The child that loses an element holds what is left, or is still there as it was. -/
def ErasedChild (b : Build) (L : Type) {V : Type} [Leaf L V] [ListLeaf L] (depth : Nat)
    (s : Store) (n n' : Node) (o : Option Node) (before : List (Ref × List V)) (k : Ref × List V)
    (after : List (Ref × List V)) (new : List V) (R : Assertion) : Bool → Prop
  | false => new ≠ [] ∧ s.Holds (Over b L depth n' o before k.2 after new * R)
  | true => k.2.length = 1 ∧ n' = n ∧
      s.Holds (inner n o (before ++ k :: after) * (builtAt b L depth k.1 k.2 * R))

theorem eraseFromLeaf_holds {l : L} (h : s.Holds (ListLeaf.holds l k.2 *
      (inner n o (before ++ k :: after) * R))) (at_ref : Leaf.ref l = k.1)
    (level : b.level → depth = 0) (fits : b.fits k.2.length)
    (inside : i.getD (k.2.length - 1) < k.2.length)
    (run : eraseFromLeaf L before.length k.1 i (n, s) = (.ok gone, (n', s'))) :
    ErasedChild b L depth s' n n' o before k after (k.2.eraseIdx (i.getD (k.2.length - 1))) R gone := by
  obtain ⟨own, leaf⟩ := h.reads
  simp only [eraseFromLeaf, Edit.read_bind, ← at_ref, ListLeaf.load leaf, ListLeaf.size leaf] at run
  by_cases single : k.2.length = 1
  · rw [if_pos single] at run
    obtain ⟨rfl, same⟩ := Edit.pure_ok.mp run
    cases same
    refine ⟨single, rfl, ?_⟩
    rw [mul_left_comm]
    exact holds_builtAt_mul.mpr (.inl (holds_builtLeaf_mul.mpr ⟨level, fits, l, at_ref, h⟩))
  · simp only [if_neg single, Edit.lift_bind_ok, Prod.exists, Edit.on_ok] at run
    obtain ⟨_, l', s₁, edited, run⟩ := run
    obtain ⟨_, ⟨n₁, s₂⟩, patched, run⟩ := Edit.bind_ok.mp run
    obtain ⟨rfl, same⟩ := Edit.pure_ok.mp run
    cases same
    have h := EditableLeaf.erase h inside edited
    have length := List.length_eraseIdx_of_lt inside
    have fits := b.fewer fits (length.trans_le (Nat.sub_le _ 1))
    refine ⟨?_, patched_over (holds_builtAt_mul.mpr
      (.inl (holds_builtLeaf_mul.mpr ⟨level, fits, l', rfl, h⟩))) patched⟩
    apply List.ne_nil_of_length_pos
    omega

theorem eraseFromChild_holds (erases : ErasesBelow b L fuel) (deep : depth ≤ fuel)
    (h : s.Holds (inner n o (before ++ k :: after) * (builtAt b L depth k.1 k.2 * R)))
    (inside : i.getD (k.2.length - 1) < k.2.length) (small : k.2.length < Slot.countBound)
    (loose : LooseAt L k.2 (i.getD (k.2.length - 1)))
    (run : eraseFromChild L (eraseBelow L fuel) before.length k.1 i (n, s) = (.ok gone, (n', s'))) :
    ErasedChild b L depth s' n n' o before k after (k.2.eraseIdx (i.getD (k.2.length - 1))) R gone := by
  rw [mul_left_comm] at h
  rcases holds_builtAt_mul.mp h with leaf | ⟨below, node, rfl, same, tree⟩
  · obtain ⟨level, fits, l, at_ref, held⟩ := holds_builtLeaf_mul.mp leaf
    obtain ⟨own, here⟩ := held.reads
    have outer : isInner s.memory k.1 = false := at_ref ▸ ListLeaf.outer here
    simp only [eraseFromChild, Edit.read_bind, outer, Bool.false_eq_true, if_false] at run
    exact eraseFromLeaf_holds held at_ref level fits inside run
  · obtain ⟨own, here⟩ := tree.reads
    have isInner := isInner_over (over_of_built here)
    have load := load_over (over_of_built here)
    simp only [eraseFromChild, Edit.read_bind, ← same, isInner, load, if_true, Node.loadM,
      Edit.lift_bind_ok, Prod.exists, Edit.on_ok] at run
    obtain ⟨gone', node', s₁, edited, run⟩ := run
    have erased := erases deep tree inside small loose edited
    cases gone' with
    | true =>
        obtain ⟨rfl, known⟩ := Edit.pure_ok.mp run
        cases known
        obtain ⟨single, -, old⟩ := erased
        rw [same, mul_left_comm] at old
        exact ⟨single, rfl, old⟩
    | false =>
        simp only [Bool.false_eq_true, if_false] at run
        obtain ⟨_, ⟨n₁, s₂⟩, patched, run⟩ := Edit.bind_ok.mp run
        obtain ⟨rfl, known⟩ := Edit.pure_ok.mp run
        cases known
        refine ⟨ne_nil_of_over erased, patched_over (erased.imp_left ?_) patched⟩
        exact fun m base own held => builtAt_of_over rfl held

/-! ### The node above it -/

theorem tag_pred (n : Nat) : Slot.tag (n + 1) + (-2) = Slot.tag n := by
  rw [← Slot.tag_add n 1]
  grind

theorem removeChild_holds
    (h : s.Holds (inner n o (before ++ k :: after) * (builtAt b L depth k.1 k.2 * R)))
    (single : k.2.length = 1) (loose : ∀ v ∈ k.2, EditableLeaf.Loose L v)
    (more : before ++ after ≠ []) (compact : o = none → after = [])
    (run : removeChild L o before.length k.1 (n, s) = (.ok (), (n', s'))) :
    ∃ o', s'.Holds (Branch.form n' o' (Branch.refs (before ++ after)) (sizes (before ++ after))
      (values (before ++ k :: after)).length * R) := by
  obtain ⟨_, ⟨n₁, s₁⟩, erase, run⟩ := Edit.bind_ok.mp run
  cases o with
  | none =>
      obtain rfl := compact rfl
      simp only [Edit.read_bind] at run
      obtain ⟨rfl, freed⟩ := Edit.lift_ok.mp run
      have h := Branch.removeCompact_holds h erase
      rw [mul_left_comm] at h
      rw [List.append_nil]
      exact ⟨none, destroyBranch_holds h loose freed⟩
  | some o =>
      obtain ⟨_, ⟨n₂, s₂⟩, ends, run⟩ := Edit.bind_ok.mp run
      simp only [Edit.read_bind] at run
      obtain ⟨rfl, freed⟩ := Edit.lift_ok.mp run
      obtain ⟨o', h⟩ := Branch.removeGeneral_holds h single more erase ends
      rw [mul_left_comm] at h
      exact ⟨some o', destroyBranch_holds h loose freed⟩

theorem shrinkEnds_holds {new : List V} {s₁ : Store} {n₁ : Node}
    (h : s.Holds (inner n o (before ++ (r, ws) :: after) * R)) (length : ws.length = new.length + 1)
    (compact : o = none → after = [])
    (run : shrinkEnds o before.length (n, s) = (.ok (), (n₁, s₁)))
    (total : Branch.addTotal (-2) (n₁, s₁) = (.ok (), (n', s'))) :
    ∃ o', s'.Holds (inner n' o' (before ++ (r, new) :: after) * R) := by
  have less : Slot.tag (values (before ++ (r, ws) :: after)).length + (-2) =
      Slot.tag (values (before ++ (r, new) :: after)).length := by
    have lengths : (values (before ++ (r, ws) :: after)).length =
        (values (before ++ (r, new) :: after)).length + 1 := by
      simp only [Branch.values_append, Branch.values_cons, List.length_append, length]
      omega
    rw [lengths, tag_pred]
  cases o with
  | none =>
      obtain rfl := compact rfl
      obtain ⟨-, same⟩ := Edit.pure_ok.mp run
      cases same
      exact ⟨none, Branch.resizeLast_holds h less total⟩
  | some o =>
      rw [Branch.inner, Branch.sizes_append, Branch.sizes_cons] at h
      rw [← Branch.length_sizes before, shrinkEnds] at run
      have one : Int64.ofNat ws.length + (-1) = Int64.ofNat new.length := by
        rw [length]
        exact Branch.ofNat_sub
      obtain ⟨o', h⟩ := Branch.resizeEnd_holds h one run
      have h := Branch.addTotal_holds h less total
      have node : inner n' (some o') (before ++ (r, new) :: after) =
          Branch.form n' (some o') (Branch.refs (before ++ (r, ws) :: after))
            (sizes before ++ new.length :: sizes after)
            (values (before ++ (r, new) :: after)).length := by
        simp [Branch.inner]
      exact ⟨some o', h.of_eq (by rw [node])⟩

theorem values_eraseIdx {j : Nat} (inside : j < k.2.length) :
    (values (before ++ k :: after)).eraseIdx ((values before).length + j) =
      values before ++ k.2.eraseIdx j ++ values after := by
  rw [Branch.values_append, Branch.values_cons, List.eraseIdx_append_of_length_le (by omega),
    Nat.add_sub_cancel_left, List.eraseIdx_append_of_lt_length inside, List.append_assoc]

/-- The last child is gone, and the node with it. -/
theorem erased_single
    (h : s.Holds (inner n' o [k] * (builtAt b L depth k.1 k.2 * (Kept n n' [k] * R))))
    (fits : b.fits 1) (single : k.2.length = 1) (new : List V) :
    Erased b L depth s n n' (values [k]) new R true := by
  have full : Full [k] := by
    rw [Branch.full_cons]
    exact ⟨List.ne_nil_of_length_pos (by omega), Branch.full_nil⟩
  have whole {n : Node} {o : Option Node} {R : Assertion}
      (h : s.Holds (inner n o [k] * (builtAt b L depth k.1 k.2 * R))) :
      s.Holds (builtOver b 0 (builtAt b L depth) n (values [k]) * R) :=
    over_intro depth n [k] (o := o) (h.of_eq (by simp)) (by simp) full (Nat.zero_le 1) fits
  refine ⟨by simp [single], ?_, ?_⟩
  · have h := whole h
    rw [mul_left_comm] at h
    exact h.right
  · have h : s.Holds (Kept n n' [k] * (inner n' o [k] * (builtAt b L depth k.1 k.2 * R))) :=
      h.of_eq (by ac_rfl)
    rw [Kept, Store.holds_either_mul, Store.holds_fact_mul] at h
    apply holds_builtAt_mul.mpr
    rcases h with ⟨same, h⟩ | h
    · exact .inr ⟨depth, n', rfl, same rfl, whole h⟩
    · rw [mul_left_comm] at h
      exact .inr ⟨depth, n, rfl, rfl, whole h.right⟩

/-- The child held one element only, and others are left. -/
theorem childRemoved_holds {n₁ : Node} {s₁ : Store}
    (h : s.Holds (inner n o (before ++ k :: after) * (builtAt b L depth k.1 k.2 *
      (forest (builtAt b L depth) before * (forest (builtAt b L depth) after * R)))))
    (single : k.2.length = 1) (loose : ∀ v ∈ k.2, EditableLeaf.Loose L v)
    (more : before ++ after ≠ []) (full : Full before) (full' : Full after)
    (fits : b.fits (before.length + 1 + after.length)) (compact : o = none → after = [])
    (remove : removeChild L o before.length k.1 (n, s) = (.ok (), (n₁, s₁)))
    (total : Branch.addTotal (-2) (n₁, s₁) = (.ok (), (n', s'))) :
    s'.Holds (builtOver b 0 (builtAt b L depth) n' (values before ++ values after) * R) := by
  obtain ⟨o', h⟩ := removeChild_holds h single loose more compact remove
  have less : Slot.tag (values (before ++ k :: after)).length + (-2) =
      Slot.tag (values (before ++ after)).length := by
    have lengths : (values (before ++ k :: after)).length =
        (values (before ++ after)).length + 1 := by
      simp only [Branch.values_append, Branch.values_cons, List.length_append, single]
      omega
    rw [lengths, tag_pred]
  have h := Branch.addTotal_holds h less total
  have h : s'.Holds (inner n' o' (before ++ after) *
      (forest (builtAt b L depth) (before ++ after) * R)) :=
    h.of_eq (by rw [Branch.inner, forest_append]; ac_rfl)
  have fits := b.fewer fits (show (before ++ after).length ≤ _ by simp)
  have h := over_intro depth n' (before ++ after) h more
    ((Branch.full_append _ _).mpr ⟨full, full'⟩) (Nat.zero_le _) fits
  exact h.of_eq (by rw [Branch.values_append])

theorem childShrunk_holds {new : List V} {n₁ : Node} {s₁ : Store}
    (h : s.Holds (Over b L depth n o before k.2 after new *
      (forest (builtAt b L depth) before * (forest (builtAt b L depth) after * R))))
    (some : new ≠ []) (length : k.2.length = new.length + 1) (full : Full before)
    (full' : Full after) (fits : b.fits (before.length + 1 + after.length))
    (compact : o = none → after = [])
    (shrink : shrinkEnds o before.length (n, s) = (.ok (), (n₁, s₁)))
    (total : Branch.addTotal (-2) (n₁, s₁) = (.ok (), (n', s'))) :
    s'.Holds (builtOver b 0 (builtAt b L depth) n' (values before ++ new ++ values after) * R) := by
  rw [Over, Store.holds_any_mul] at h
  obtain ⟨r, h⟩ := h
  obtain ⟨o', h⟩ := shrinkEnds_holds (h.of_eq (mul_assoc _ _ _)) length compact shrink total
  exact grown_over h full full' some (Nat.zero_le _) fits

theorem erasesBelow (fuel : Nat) : ErasesBelow b L fuel := by
  induction fuel with
  | zero => exact fun none => absurd none (Nat.not_lt_zero _)
  | succ fuel ih =>
      intro depth least n n' vs i s s' R gone deep h inside small loose run
      have deep := Nat.le_of_lt_succ deep
      obtain ⟨o, kids, rfl, -, full, -, fits, h⟩ := holds_builtOver_mul.mp h
      simp only [eraseBelow] at run
      obtain ⟨offsets, ⟨n₁, s₁⟩, general, run⟩ := Edit.bind_ok.mp run
      obtain ⟨h, form⟩ := offsetsToErase_holds h general
      obtain ⟨before, k, after, j, rfl, within, index, last, found⟩ :=
        erasureChild_of_holds h full inside small
      have compact : offsets = none → after = [] :=
        fun none => last (Classical.not_not.mp fun some => form some none)
      have h : s₁.Holds (inner n₁ offsets (before ++ k :: after) * (builtAt b L depth k.1 k.2 *
          (forest (builtAt b L depth) before * (forest (builtAt b L depth) after *
            (Kept n n₁ (before ++ k :: after) * R))))) := h.of_eq (by simp; ac_rfl)
      obtain ⟨own, node⟩ := h.reads
      have count := Branch.childCount_of_inner node
      have shorter := Nat.lt_of_le_of_lt
        (length_le_values (show k ∈ before ++ k :: after by simp)) small
      simp only [Edit.self_bind, Edit.read_bind, found, child_of_holds h, count] at run
      obtain ⟨gone', ⟨n₂, s₂⟩, child, rest⟩ := Edit.bind_ok.mp run
      rw [← index] at loose
      have loose := loose.child within
      have erased := eraseFromChild_holds ih deep h within shorter loose child
      rw [← index, values_eraseIdx within]
      rw [Branch.full_append, Branch.full_cons] at full
      rw [length_mid] at fits
      cases gone' with
      | true =>
          obtain ⟨single, rfl, h⟩ := erased
          have nothing : k.2.eraseIdx (j.getD (k.2.length - 1)) = [] := by
            apply List.eq_nil_of_length_eq_zero
            rw [List.length_eraseIdx_of_lt within, single]
          rw [nothing, List.append_nil]
          by_cases more : before ++ after = []
          · -- The node goes with its last child; the caller destroys what it remembers.
            obtain ⟨rfl, rfl⟩ := List.append_eq_nil_iff.mp more
            obtain ⟨rfl, same⟩ := Edit.pure_ok.mp rest
            cases same
            exact erased_single (o := offsets) (R := R)
              (h.of_eq (by simp only [forest_nil, one_mul, List.nil_append])) fits single _
          · have many : (before ++ k :: after).length ≠ 1 := by
              intro one
              simp only [List.length_append, List.length_cons] at one
              exact more (List.append_eq_nil_iff.mpr ⟨List.eq_nil_of_length_eq_zero (by omega),
                List.eq_nil_of_length_eq_zero (by omega)⟩)
            simp only [if_true, if_neg many] at rest
            obtain ⟨_, ⟨n₃, s₃⟩, remove, rest⟩ := Edit.bind_ok.mp rest
            obtain ⟨_, ⟨n₄, s₄⟩, total, rest⟩ := Edit.bind_ok.mp rest
            obtain ⟨rfl, same⟩ := Edit.pure_ok.mp rest
            cases same
            have h := childRemoved_holds h single (loose.all within single) more full.1 full.2.2
              fits compact remove total
            rw [mul_left_comm] at h
            exact h.right
      | false =>
          obtain ⟨some, h⟩ := erased
          simp only [Bool.false_eq_true, if_false] at rest
          obtain ⟨_, ⟨n₃, s₃⟩, shrink, rest⟩ := Edit.bind_ok.mp rest
          obtain ⟨_, ⟨n₄, s₄⟩, total, rest⟩ := Edit.bind_ok.mp rest
          obtain ⟨rfl, same⟩ := Edit.pure_ok.mp rest
          cases same
          have length : k.2.length = (k.2.eraseIdx (j.getD (k.2.length - 1))).length + 1 := by
            rw [List.length_eraseIdx_of_lt within]
            omega
          have h := childShrunk_holds h some length full.1 full.2.2 fits compact shrink total
          rw [mul_left_comm] at h
          exact h.right

/-! ### The root -/

variable {t t' : Tree L} {root : Root L}

/-- The search for a root that branches ends before its fuel does. -/
theorem collapse_holds (t : Tree L) (deep : depth < fuel) (atMost : least ≤ 2)
    (h : s.Holds (builtAt b L depth r vs * R)) (run : collapse L fuel r s = (.ok root, s')) :
    s'.Holds (built b least { t with root } vs * R) := by
  induction fuel generalizing depth r s with
  | zero => exact absurd deep (Nat.not_lt_zero depth)
  | succ fuel ih =>
      rcases holds_builtAt_mul.mp h with leaf | ⟨below, n, rfl, same, tree⟩
      · obtain ⟨-, fits, l, at_ref, held⟩ := holds_builtLeaf_mul.mp leaf
        obtain ⟨own, here⟩ := held.reads
        simp only [collapse, StoreM.read_bind, ← at_ref, ListLeaf.outer here, Bool.false_eq_true,
          if_false] at run
        cases run
        have load := ListLeaf.load here
        simp only [load, built, mul_assoc, Store.holds_fact_mul]
        exact ⟨fits, held⟩
      · obtain ⟨own, here⟩ := tree.reads
        have isInner := isInner_over (over_of_built here)
        have load := load_over (over_of_built here)
        obtain ⟨o, k, kids, count, first, whole, below⟩ := holds_first tree
        simp only [collapse, StoreM.read_bind, ← same, isInner, Node.loadM, load, count, if_true] at run
        cases kids with
        | nil =>
            rw [if_neg (by simp)] at run
            simp only [StoreM.read_bind, first] at run
            obtain ⟨_, s₁, freed, run⟩ := StoreM.bind_ok.mp run
            have h := Branch.destroy_holds below freed
            rw [forest_nil, one_mul] at h
            rw [Branch.values_cons, Branch.values_nil, List.append_nil] at whole
            exact whole ▸ ih (Nat.lt_of_succ_lt_succ deep) (whole ▸ h) run
        | cons k' kids =>
            rw [if_pos (by simp)] at run
            cases run
            exact built_inner (tree.imp_left (builtOver_many (atMost.trans (by simp [count]))))

theorem eraseBelowRoot_holds {replace : Option (Root L)} (t : Tree L)
    (h : s.Holds (builtOver b least (builtAt b L depth) n vs * R))
    (deep : depth < Node.depthBound s.memory) (atMost : least ≤ 2) (inside : i.getD (vs.length - 1) < vs.length)
    (small : vs.length < Slot.countBound) (loose : LooseAt L vs (i.getD (vs.length - 1)))
    (run : eraseBelowRoot L i (n, s) = (.ok replace, (n', s'))) :
    s'.Holds (built b least ({ t with root := replace.getD (.inner n') } : Tree L)
      (vs.eraseIdx (i.getD (vs.length - 1))) * R) := by
  simp only [eraseBelowRoot, Edit.read_bind] at run
  obtain ⟨gone, ⟨n₁, s₁⟩, erase, run⟩ := Edit.bind_ok.mp run
  have erased := erasesBelow _ deep h inside small loose erase
  simp only [Edit.self_bind] at run
  cases gone with
  | true =>
      obtain ⟨single, tree, -⟩ := erased
      simp only [if_true, Edit.lift_bind_ok] at run
      obtain ⟨fresh, s₂, create, _, s₃, freed, run⟩ := run
      obtain ⟨rfl, same⟩ := Edit.pure_ok.mp run
      cases same
      have nothing : vs.eraseIdx (i.getD (vs.length - 1)) = [] := by
        apply List.eq_nil_of_length_eq_zero
        rw [List.length_eraseIdx_of_lt inside, single]
      obtain ⟨o, kids, -, -, -, -, fits, -⟩ := holds_builtOver_mul.mp tree
      have h := EditableLeaf.create (holds_builtAt_mul.mpr (.inr ⟨depth, n', rfl, rfl, tree⟩)) create
      rw [mul_left_comm] at h
      simp only [nothing, built, Option.getD_some, mul_assoc, Store.holds_fact_mul]
      exact ⟨b.fewer fits (Nat.zero_le _), destroyBranch_holds h (loose.all inside single) freed⟩
  | false =>
      obtain ⟨o, k, kids, count, first, whole, below⟩ := holds_first erased
      simp only [Bool.false_eq_true, if_false, count] at run
      cases kids with
      | nil =>
          rw [if_neg (by simp)] at run
          simp only [Edit.read_bind, first, Edit.lift_bind_ok] at run
          obtain ⟨_, s₂, freed, root, s₃, found, run⟩ := run
          obtain ⟨rfl, same⟩ := Edit.pure_ok.mp run
          cases same
          have h := Branch.destroy_holds below freed
          rw [forest_nil, one_mul] at h
          rw [Branch.values_cons, Branch.values_nil, List.append_nil] at whole
          exact whole ▸ collapse_holds t deep atMost h found
      | cons k' kids =>
          rw [if_pos (by simp)] at run
          obtain ⟨rfl, same⟩ := Edit.pure_ok.mp run
          cases same
          exact built_inner (erased.imp_left (builtOver_many (atMost.trans (by simp [count]))))

/-- The erased element must refer to no node: a leaf may go with it. -/
theorem eraseLoose_built (h : s.Holds (built b least t vs * R)) (atMost : least ≤ 2)
    (inside : i.getD (vs.length - 1) < vs.length) (small : vs.length < Slot.countBound)
    (loose : LooseAt L vs (i.getD (vs.length - 1))) (run : erase i (t, s) = (.ok (), (t', s'))) :
    t'.maxNodeSize = t.maxNodeSize ∧
      s'.Holds (built b least t' (vs.eraseIdx (i.getD (vs.length - 1))) * R) := by
  cases root : t.root with
  | leaf l =>
      obtain ⟨fits, h⟩ := leaf_of_built h root
      obtain ⟨own, here⟩ := h.reads
      simp only [erase, Edit.self_bind, root, editLeaf, ListLeaf.size here, Edit.inside_ok] at run
      obtain ⟨l', edit, rfl⟩ := run
      refine ⟨rfl, ?_⟩
      simp only [built, mul_assoc, Store.holds_fact_mul]
      refine ⟨b.fewer fits ?_, EditableLeaf.erase h inside edit⟩
      exact (List.length_eraseIdx_of_lt inside).trans_le (Nat.sub_le _ 1)
  | inner n =>
      obtain ⟨depth, deep, tree⟩ := over_of_built_mul h root
      simp only [erase, Edit.self_bind, root] at run
      obtain ⟨replace, ⟨t₁, s₁⟩, edit, run⟩ := Edit.bind_ok.mp run
      simp only [editInner, Edit.self_bind, Edit.inside_ok] at edit
      obtain ⟨n', edit, rfl⟩ := edit
      have h := eraseBelowRoot_holds t tree deep atMost inside small loose edit
      cases replace with
      | none =>
          obtain ⟨-, same⟩ := Edit.pure_ok.mp run
          cases same
          exact ⟨rfl, h⟩
      | some root =>
          cases run
          exact ⟨rfl, h⟩

theorem eraseLoose_holds (h : s.Holds (holds t vs * R))
    (inside : i.getD (vs.length - 1) < vs.length) (small : vs.length < Slot.countBound)
    (loose : LooseAt L vs (i.getD (vs.length - 1))) (run : erase i (t, s) = (.ok (), (t', s'))) :
    t'.maxNodeSize = t.maxNodeSize ∧
      s'.Holds (holds t' (vs.eraseIdx (i.getD (vs.length - 1))) * R) := by
  rw [← built_any] at h ⊢
  exact eraseLoose_built h (Nat.zero_le 2) inside small loose run

theorem erase_holds {L V : Type} [Leaf L V] [LawfulLeaf L] {t t' : Tree L} {vs : List V}
    (h : s.Holds (holds t vs * R)) (inside : i.getD (vs.length - 1) < vs.length)
    (small : vs.length < Slot.countBound) (run : erase i (t, s) = (.ok (), (t', s'))) :
    t'.maxNodeSize = t.maxNodeSize ∧
      s'.Holds (holds t' (vs.eraseIdx (i.getD (vs.length - 1))) * R) :=
  eraseLoose_holds h inside small (fun _ _ => trivial) run

end Tree

end ColumnStore
