import ColumnStore.Proofs.TreeErase

set_option autoImplicit false

/-!
A tree is freed as a whole by following its refs, so a tree owns every node that is found below it,
together with what its values refer to.
-/
namespace ColumnStore

open Branch (inner)

variable {L V : Type} [Leaf L V] [EditableLeaf L] {s s' : Store} {R : Assertion} {vs : List V}
  {n : Node} {m : Memory} {base : Nat} {own : Set Nat} {E : V → Assertion}

theorem Branch.childRefs_slots {first : Int64} {refs : List Ref} {total : Nat}
    (each : ∀ r ∈ refs, Slot.isRef (Slot.ofRef r) = true ∧ r < Store.addressSpace) :
    Node.childRefs (slots first refs total) =
      (if Slot.isRef first then [Slot.toRef first] else []) ++ refs := by
  rw [slots, Node.childRefs_cons, Node.childRefs_append, Node.childRefs_ofRef each,
    Node.childRefs_cons, Slot.isRef_tag]
  simp

namespace Tree

theorem owning_over {below : Ref → List V → Assertion}
    (each : ∀ r vs, Node.Owning (below r vs) r)
    (bound : ∀ {r vs own}, (below r vs).holds m base own →
      Slot.isRef (Slot.ofRef r) = true ∧ r < Store.addressSpace)
    (h : (overKids below n vs).holds m base own) (depth : Nat) :
    (Node.blocks (Node.subtreeWithin m depth (Node.load m n.ref)) * .some).holds m base own := by
  obtain ⟨o, kids, -, -, -, h⟩ := holds_over.mp h
  have refs : ∀ r ∈ Branch.refs kids, Slot.isRef (Slot.ofRef r) = true ∧ r < Store.addressSpace := by
    simp only [Branch.refs, List.mem_map]
    rintro _ ⟨k, inside, rfl⟩
    obtain ⟨x, y, -, -, -, trees⟩ := h
    obtain ⟨_, kid⟩ := forest_mem inside trees
    exact bound kid
  -- All below the node is reached through its slots: the ends, if there are any, and the children.
  let kin := kids.map fun k => (k.1, below k.1 k.2)
  have kinRefs : kin.map Prod.fst = Branch.refs kids := by
    simp [kin, Branch.refs]
  have trees : (kin.map Prod.snd).prod = forest below kids := by
    rw [forest, List.map_map]
    rfl
  have eachKin : ∀ k ∈ kin, Node.Owning k.2 k.1 := by
    simp only [kin, List.mem_map]
    rintro _ ⟨k, -, rfl⟩
    exact each _ _
  rw [Branch.inner, Branch.form, Assertion.any_mul] at h
  obtain ⟨first, h⟩ := h
  cases o with
  | none =>
      simp only [Branch.head] at h
      rw [mul_comm (Node.packed _ _ _), mul_assoc, Assertion.fact_mul, ← trees] at h
      refine Node.owning_packed eachKin (fun _ => ?_) depth m base own h.2
      rw [Branch.childRefs_slots refs, h.1.1, kinRefs]
      rfl
  | some o =>
      have ends : (Node.packed .plain o (Branch.ends (Branch.sizes kids)) * forest below kids) =
          (((o.ref, Node.packed .plain o (Branch.ends (Branch.sizes kids))) :: kin).map Prod.snd).prod := by
        rw [List.map_cons, List.prod_cons, trees]
      simp only [Branch.head] at h
      rw [mul_left_comm (Node.packed _ _ _), mul_assoc, Assertion.fact_mul, mul_assoc, ends] at h
      obtain ⟨rfl, h⟩ := h
      have stored : o.Stored m base := by
        obtain ⟨x, y, -, -, -, h⟩ := h
        rw [← ends] at h
        obtain ⟨z, w, -, -, h, -⟩ := h
        exact h.2.1
      refine Node.owning_packed ?_ (fun _ => ?_) depth m base own h
      · simp only [List.forall_mem_cons]
        exact ⟨Node.owning_plain _ _, eachKin⟩
      · rw [Branch.childRefs_slots refs, stored.isRef, if_pos rfl, List.map_cons, kinRefs,
          Slot.toRef_ofRef stored.bound]
        rfl

/-- What the values of leaves refer to is all that is found below them. -/
structure Refers (L : Type) {V : Type} [Leaf L V] [ListLeaf L] (E : V → Assertion) : Prop where
  owning (l : L) (vs : List V) :
    Node.Owning (ListLeaf.holds l vs * (vs.map E).prod) (Leaf.ref l)
  destroy {l : L} {vs : List V} {s s' : Store} {R : Assertion} :
    s.Holds (ListLeaf.holds l vs * ((vs.map E).prod * R)) → Leaf.destroy l s = (.ok (), s') →
      s'.Holds R

theorem no_refs {V : Type} (vs : List V) : (vs.map fun _ => (1 : Assertion)).prod = 1 := by simp

theorem refers_lawful {L V : Type} [Leaf L V] [LawfulLeaf L] : Refers L fun _ : V => 1 where
  owning l vs := by
    rw [no_refs, mul_one]
    exact LawfulLeaf.owning l vs
  destroy h run := by
    rw [no_refs, one_mul] at h
    exact LawfulLeaf.destroy h run

/-- What the values refer to stands with the child that has them. -/
theorem forest_refers (below : Ref → List V → Assertion) (kids : List (Ref × List V)) :
    forest below kids * ((Branch.values kids).map E).prod =
      forest (fun r vs => below r vs * (vs.map E).prod) kids := by
  induction kids with
  | nil => simp
  | cons k kids ih =>
      rw [forest_cons, forest_cons, Branch.values_cons, List.map_append, List.prod_append, ← ih]
      ac_rfl

theorem over_refers {below : Ref → List V → Assertion}
    (h : (overKids below n vs * (vs.map E).prod).holds m base own) :
    (overKids (fun r vs => below r vs * (vs.map E).prod) n vs).holds m base own := by
  rw [overKids, Assertion.any_mul] at h
  obtain ⟨p, h⟩ := h
  simp only [mul_assoc, Assertion.fact_mul] at h
  obtain ⟨facts, h⟩ := h
  rw [← facts.1, forest_refers] at h
  exact holds_over.mpr ⟨p.1, p.2, facts.1, facts.2.1, facts.2.2, h⟩

theorem owning_treeAt (refers : Refers L E) (depth : Nat) (r : Ref) (vs : List V) :
    Node.Owning (treeAt L depth r vs * (vs.map E).prod) r := by
  have leaf {r : Ref} {vs : List V} {fuel : Nat} {m : Memory} {base : Nat} {own : Set Nat}
      (h : (leafHolds L r vs * (vs.map E).prod).holds m base own) :
      (Node.blocks (Node.subtreeWithin m fuel (Node.load m r)) * .some).holds m base own := by
    rw [leafHolds, Assertion.any_mul] at h
    obtain ⟨l, h⟩ := h
    simp only [mul_assoc, Assertion.fact_mul] at h
    obtain ⟨rfl, h⟩ := h
    exact refers.owning l vs fuel m base own h
  induction depth generalizing r vs with
  | zero => exact fun fuel m base own h => leaf h
  | succ depth ih =>
      intro fuel m base own h
      rw [treeAt, Assertion.either_mul, Assertion.any_mul] at h
      rcases h with h | ⟨n, h⟩
      · exact leaf h
      · simp only [mul_assoc, Assertion.fact_mul] at h
        obtain ⟨rfl, h⟩ := h
        refine owning_over ih (fun h => ?_) (over_refers h) fuel
        obtain ⟨x, y, -, -, tree, -⟩ := h
        exact ref_treeAt tree

theorem owning_tree (refers : Refers L E) (r : Ref) (vs : List V) :
    Node.Owning (tree L r vs * (vs.map E).prod) r := by
  intro fuel m base own h
  rw [tree, Assertion.any_mul] at h
  obtain ⟨depth, h⟩ := h
  exact owning_treeAt refers depth r vs fuel m base own h

variable {b : Build} {least : Nat}

theorem clearAll_built {t t' : Tree L} (refers : Refers L E) (fits : b.fits 0)
    (h : s.Holds (holds t vs * ((vs.map E).prod * R)))
    (run : clear (t, s) = (.ok (), (t', s'))) :
    t'.maxNodeSize = t.maxNodeSize ∧ s'.Holds (built b least t' [] * R) := by
  simp only [clear, Edit.lift_bind_ok, Edit.self_bind] at run
  obtain ⟨fresh, s₁, create, _, s₂, freed, run⟩ := run
  cases run
  have h := EditableLeaf.create (h.imp_left (holds_entails t vs)) create
  have h := Node.destroyDeepRef_holds (R := ListLeaf.holds fresh [] * R)
    (owning_tree refers t.ref vs) (h.of_eq (by ac_rfl)) freed
  refine ⟨rfl, ?_⟩
  simp only [built, mul_assoc, Store.holds_fact_mul]
  exact ⟨fits, h⟩

theorem clearAll_holds {t t' : Tree L} (refers : Refers L E)
    (h : s.Holds (holds t vs * ((vs.map E).prod * R)))
    (run : clear (t, s) = (.ok (), (t', s'))) :
    t'.maxNodeSize = t.maxNodeSize ∧ s'.Holds (holds t' [] * R) := by
  rw [← built_any]
  exact clearAll_built refers trivial h run

theorem destroyAll_holds {t : Tree L} (refers : Refers L E)
    (h : s.Holds (holds t vs * ((vs.map E).prod * R))) (run : t.destroy s = (.ok (), s')) :
    s'.Holds R := by
  cases root : t.root with
  | leaf l =>
      rw [holds, root] at h
      rw [destroy, root] at run
      exact refers.destroy h run
  | inner n =>
      obtain ⟨below, -, tree⟩ := over_of_holds_mul h root
      obtain ⟨_, here⟩ := tree.reads
      rw [destroy, root] at run
      have owning := owning_treeAt refers (below + 1) n.ref vs
      refine Node.destroyDeep_holds owning (load_over here) ?_ run
      rw [← mul_assoc] at tree
      refine tree.imp_left fun m base own h => ?_
      refine Assertion.holds_mul_mono (fun _ h => ?_) (fun _ h => h) h
      exact holds_treeAt_succ.mpr (.inr ⟨n, rfl, h⟩)

theorem clear_built {L V : Type} [Leaf L V] [LawfulLeaf L] {t t' : Tree L} {vs : List V}
    (fits : b.fits 0) (h : s.Holds (built b least t vs * R))
    (run : clear (t, s) = (.ok (), (t', s'))) :
    t'.maxNodeSize = t.maxNodeSize ∧ s'.Holds (built b least t' [] * R) :=
  clearAll_built refers_lawful fits
    ((h.imp_left holds_of_built).of_eq (by rw [no_refs, one_mul])) run

theorem clear_holds {L V : Type} [Leaf L V] [LawfulLeaf L] {t t' : Tree L} {vs : List V}
    (h : s.Holds (holds t vs * R)) (run : clear (t, s) = (.ok (), (t', s'))) :
    t'.maxNodeSize = t.maxNodeSize ∧ s'.Holds (holds t' [] * R) :=
  clearAll_holds refers_lawful (h.of_eq (by rw [no_refs, one_mul])) run

theorem destroy_holds {L V : Type} [Leaf L V] [LawfulLeaf L] {t : Tree L} {vs : List V}
    (h : s.Holds (holds t vs * R)) (run : t.destroy s = (.ok (), s')) : s'.Holds R :=
  destroyAll_holds refers_lawful (h.of_eq (by rw [no_refs, one_mul])) run

end Tree

end ColumnStore
