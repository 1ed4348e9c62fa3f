import ColumnStore.Leaf.Bytes
import ColumnStore.Proofs.Assertion
import ColumnStore.Proofs.Packed
import ColumnStore.Proofs.Slot

set_option autoImplicit false

/-!
Nodes as assertions: what an edit of one node does, with whatever else the store holds beside it.
-/
namespace ColumnStore.Node

open Store (Evolves Turns)

variable {s s' : Store} {n n' : Node} {vs vs' : List Int64} {role : Role} {R : Assertion}
  {m : Memory} {base : Nat} {own : Set Nat}

/-- A node in the image is below the baseline, and any other node owns its bytes. -/
theorem Stored.reads (stored : n.Stored m base) {i : Nat} (inside : i ∈ n.bytes) :
    i ∈ n.region base ∨ i < base := by
  by_cases image : n.ref < base
  · exact .inr (Nat.lt_of_lt_of_le inside.2 (stored.image image))
  · exact .inl (stored.bytes_subset (Nat.le_of_not_lt image) inside)

theorem Stored.isRef (stored : n.Stored m base) : Slot.isRef (Slot.ofRef n.ref) = true :=
  Slot.isRef_ofRef stored.positive (Nat.dvd_trans (by decide) stored.aligned) stored.bound

/-- The block of a node, whatever its elements are. -/
def stored (n : Node) : Assertion where
  holds m base own := own = n.region base ∧ n.Stored m base
  stable same := by
    rintro ⟨rfl, h⟩
    exact ⟨rfl, h.congr fun i inside => same i (h.reads inside)⟩

/-- The flags of a node that was made for a role. -/
def HasRole (n : Node) (role : Role) : Prop :=
  n.head.inner = decide (role = .inner) ∧ n.head.hasRefs = decide (role ≠ .plain)

instance (n : Node) (role : Role) : Decidable (n.HasRole role) :=
  inferInstanceAs (Decidable (_ ∧ _))

/-- A node of packed integers. -/
def packed (role : Role) (n : Node) (vs : List Int64) : Assertion where
  holds m base own := own = n.region base ∧ n.Stored m base ∧ n.head.layout = .bits ∧
    n.HasRole role ∧ n.toList m = vs
  stable {m m'} base own same := by
    rintro ⟨rfl, h, layout, for_, list⟩
    have bytes (i : Nat) (inside : i ∈ n.bytes) : m'.get i = m.get i := same i (h.reads inside)
    refine ⟨rfl, h.congr bytes, layout, for_, ?_⟩
    rw [← list]
    apply toList_of_data h.legal layout rfl rfl
    intro k inside
    apply bytes
    rw [data, Nat.add_assoc]
    exact ⟨Nat.le_add_right _ _, Nat.add_lt_add_left inside _⟩

theorem packed_entails : (packed role n vs).Entails (stored n) :=
  fun _ _ _ h => ⟨h.1, h.2.1⟩

theorem live_of_holds (h : s.Holds (stored n * R)) : Live s n := by
  obtain ⟨sound, _, owns, rfl, stored⟩ := h.left
  exact ⟨sound, owns, stored⟩

theorem packed_of_holds (h : s.Holds (packed role n vs * R)) : Packed s n vs := by
  obtain ⟨sound, _, owns, rfl, stored, layout, -, list⟩ := h.left
  exact ⟨⟨sound, owns, stored⟩, layout, list⟩

theorem region_apart {k : Node} {role' : Role} {ws : List Int64}
    (h : s.Holds (packed role n vs * (packed role' k ws * R))) :
    Disjoint (n.region s.baseline) (k.region s.baseline) := by
  obtain ⟨-, _, -, _, _, rfl, apart, ⟨rfl, -⟩, _, _, rfl, -, ⟨rfl, -⟩, -⟩ := h
  exact apart.mono_right Set.subset_union_left

/-- Above the image, nodes that are held apart have refs of their own. -/
theorem ref_ne_of_holds {k : Node} {role' : Role} {ws : List Int64}
    (h : s.Holds (packed role n vs * (packed role' k ws * R))) (mutable : s.baseline ≤ n.ref) :
    n.ref ≠ k.ref := by
  intro same
  have first := (packed_of_holds h).live.stored.ref_mem mutable
  have second := (packed_of_holds h.right).live.stored.ref_mem (same ▸ mutable)
  exact Set.disjoint_left.mp (region_apart h) first (same ▸ second)

theorem turns_of_edited (edit : Packed s n vs → Edited s n s' n' vs') :
    Turns s (packed role n vs) s' (packed role n' vs') := by
  rintro _ sound owns ⟨rfl, stored, layout, for_, list⟩
  have edited := edit ⟨⟨sound, owns, stored⟩, layout, list⟩
  refine ⟨_, edited.evolves, rfl, edited.packed.live.stored, edited.packed.layout, ?_,
    edited.packed.list⟩
  exact ⟨edited.inner.trans for_.1, edited.refs.trans for_.2⟩

/-! ### Edits -/

section Edits

variable (h : s.Holds (packed role n vs * R))
include h

theorem set_holds {i : Nat} {v : Int64} (inside : i < vs.length)
    (run : set i v (n, s) = (.ok (), (n', s'))) : s'.Holds (packed role n' (vs.set i v) * R) :=
  h.turn (turns_of_edited fun packed => set_ok packed inside run)

theorem insert_holds {i : Nat} {v : Int64} (inside : i ≤ vs.length) (small : vs.length + 1 < 2 ^ 24)
    (run : insert i v (n, s) = (.ok (), (n', s'))) :
    s'.Holds (packed role n' (vs.insertIdx i v) * R) :=
  h.turn (turns_of_edited fun packed => insert_ok packed inside small run)

theorem add_holds {v : Int64} (small : vs.length + 1 < 2 ^ 24)
    (run : add v (n, s) = (.ok (), (n', s'))) : s'.Holds (packed role n' (vs ++ [v]) * R) :=
  h.turn (turns_of_edited fun packed => add_ok packed small run)

theorem erase_holds {i : Nat} (inside : i < vs.length)
    (run : erase i (n, s) = (.ok (), (n', s'))) : s'.Holds (packed role n' (vs.eraseIdx i) * R) :=
  h.turn (turns_of_edited fun packed => erase_ok packed inside run)

theorem truncate_holds {size : Nat} (inside : size ≤ vs.length)
    (run : truncate size (n, s) = (.ok (), (n', s'))) :
    s'.Holds (packed role n' (vs.take size) * R) :=
  h.turn (turns_of_edited fun packed => truncate_ok packed inside run)

theorem adjust_holds {i : Nat} {d : Int64} (inside : i < vs.length)
    (run : adjust i d (n, s) = (.ok (), (n', s'))) :
    s'.Holds (packed role n' (vs.modify i (· + d)) * R) :=
  h.turn (turns_of_edited fun packed => adjust_ok packed inside run)

theorem adjustRange_holds {d : Int64} {start stop : Nat} (inside : stop ≤ vs.length)
    (run : adjustRange start stop d (n, s) = (.ok (), (n', s'))) :
    s'.Holds (packed role n' (addBetween start stop d vs) * R) :=
  h.turn (turns_of_edited fun packed => adjustRange_ok packed inside run)

theorem patchSlot_holds {i : Nat} {r : Ref} (inside : i < vs.length)
    (run : patchSlot i r (n, s) = (.ok (), (n', s'))) :
    s'.Holds (packed role n' (vs.set i (Slot.ofRef r)) * R) := by
  simp only [patchSlot, Edit.self_bind, Edit.read_bind, getRef,
    (packed_of_holds h).get inside] at run
  by_cases same : Slot.toRef vs[i] = r
  · rw [if_neg (not_not_intro same), Edit.pure_ok] at run
    obtain ⟨-, known⟩ := run
    cases known
    rwa [← same, Slot.ofRef_toRef, List.set_getElem_self]
  · rw [if_pos same] at run
    exact set_holds h inside run

end Edits

theorem createPacked_holds (h : s.Holds R) (run : createPacked role s = (.ok n, s')) :
    s'.Holds (packed role n [] * R) := by
  rw [← one_mul R] at h
  refine h.turn ?_
  rintro _ sound - rfl
  obtain ⟨packed, -, head, evolves⟩ := createPacked_ok sound run
  refine ⟨_, evolves, rfl, packed.live.stored, packed.layout, ?_, packed.list⟩
  rw [HasRole, head]
  cases role <;> exact ⟨rfl, rfl⟩

/-! ### Writes that stay in place -/

/-- Room that is there already is only written into the header. -/
theorem reserve_room {count width : Nat}
    (room : Header.bytesFor count width n.head.layout ≤ n.capacity) :
    reserve count width (n, s) =
      (.ok (), (n, s.withMemory ((s.memory.setHeaderWidth n.ref width).setHeaderSize n.ref count))) := by
  simp only [reserve, Edit.self_bind]
  rw [if_neg (Nat.not_lt_of_le room)]
  rfl

/-- A node with room for its elements at any width does not move when one of them is set. -/
theorem set_ref {i : Nat} {v : Int64} (mutable : s.baseline ≤ n.ref)
    (room : Header.bytesFor n.size 64 n.head.layout ≤ n.capacity)
    (run : set i v (n, s) = (.ok (), (n', s'))) : n'.ref = n.ref := by
  simp only [set, Edit.bind_ok, copyOnWrite_mutable mutable, Edit.self_bind,
    Edit.modifyMemory_apply] at run
  obtain ⟨_, _, same, _, ⟨n₂, s₂⟩, widen, result⟩ := run
  cases same
  injection result with _ result
  injection result with node _
  rw [← node]
  simp only [ensureWidth, Edit.self_bind] at widen
  cases fits : Width.fits n.width v with
  | true =>
      simp only [fits, Bool.not_true, Bool.false_eq_true, if_false, Edit.pure_ok] at widen
      rw [← congrArg Prod.fst widen.2]
  | false =>
      have narrow := Width.le_of_legal (Width.ofValue_legal v)
      have wide := reserve_room (s := s)
        (Nat.le_trans (Header.bytesFor_mono (Nat.le_refl n.size) narrow n.head.layout) room)
      simp only [fits, Bool.not_false, if_true, Edit.bind_ok, copyOnWrite_mutable mutable,
        setKnownWidth, Edit.update_bind, Edit.self_bind, Edit.modifyMemory_apply] at widen
      obtain ⟨_, _, same, _, _, grown, result⟩ := widen
      cases same
      rw [wide] at grown
      cases grown
      injection result with _ result
      injection result with node _
      rw [← node]

/-! ### Frees -/

theorem destroy_holds (h : s.Holds (stored n * R)) : (s.release n.ref n.footprint).Holds R := by
  have freed : (s.release n.ref n.footprint).Holds (1 * R) := by
    refine h.turn ?_
    rintro _ sound owns ⟨rfl, stored⟩
    exact ⟨∅, destroy_ok ⟨sound, owns, stored⟩, rfl⟩
  rwa [one_mul] at freed

def blocks (ns : List Node) : Assertion := (ns.map stored).prod

@[simp] theorem blocks_nil : blocks [] = 1 := rfl

@[simp] theorem blocks_cons (n : Node) (ns : List Node) : blocks (n :: ns) = stored n * blocks ns :=
  List.prod_cons

@[simp] theorem blocks_append (ns ns' : List Node) : blocks (ns ++ ns') = blocks ns * blocks ns' := by
  simp [blocks]

theorem destroyEach_holds {ns : List Node} (h : s.Holds (blocks ns * R))
    (run : (forIn ns PUnit.unit fun d _ => do
      d.destroy
      pure (.yield PUnit.unit) : StoreM PUnit) s = (.ok .unit, s')) : s'.Holds R := by
  induction ns generalizing s with
  | nil =>
      obtain ⟨-, rfl⟩ := StoreM.pure_ok.mp run
      simpa using h
  | cons d ns ih =>
      rw [blocks_cons, mul_assoc] at h
      simp only [List.forIn_cons, destroy, bind_assoc, StoreM.free_bind, pure_bind] at run
      exact ih (destroy_holds h) run

/-- Whatever depth is looked at, the nodes below `r` are blocks that `A` owns. -/
def Owning (A : Assertion) (r : Ref) : Prop :=
  ∀ depth m base own, A.holds m base own →
    (blocks (subtreeWithin m depth (load m r)) * .some).holds m base own

def childRefs (vs : List Int64) : List Ref := (vs.filter Slot.isRef).map Slot.toRef

@[simp] theorem childRefs_nil : childRefs [] = [] := rfl

theorem childRefs_cons (v : Int64) (vs : List Int64) :
    childRefs (v :: vs) = (if Slot.isRef v then [Slot.toRef v] else []) ++ childRefs vs := by
  rw [childRefs, List.filter_cons]
  split <;> simp [childRefs]

@[simp] theorem childRefs_append (vs vs' : List Int64) :
    childRefs (vs ++ vs') = childRefs vs ++ childRefs vs' := by
  simp [childRefs]

theorem childRefs_ofRef {refs : List Ref}
    (each : ∀ r ∈ refs, Slot.isRef (Slot.ofRef r) = true ∧ r < Store.addressSpace) :
    childRefs (refs.map Slot.ofRef) = refs := by
  induction refs with
  | nil => rfl
  | cons r refs ih =>
      obtain ⟨isRef, bound⟩ := each r (by simp)
      rw [List.map_cons, childRefs_cons, if_pos isRef, Slot.toRef_ofRef bound,
        ih fun r' inside => each r' (by simp [inside])]
      rfl

theorem subtreeWithin_childless (childless : n.hasRefs = false) (depth : Nat) :
    subtreeWithin m depth n = [n] := by
  cases depth with
  | zero => rfl
  | succ depth => simp [subtreeWithin, children, childless]

theorem blocks_below {kids : List (Ref × Assertion)} (each : ∀ k ∈ kids, Owning k.2 k.1)
    (depth : Nat) (h : (kids.map Prod.snd).prod.holds m base own) :
    (blocks ((kids.map Prod.fst).flatMap fun r => subtreeWithin m depth (load m r)) *
      .some).holds m base own := by
  induction kids generalizing own with
  | nil => simpa using Assertion.holds_some
  | cons k kids ih =>
      rw [List.map_cons, List.prod_cons] at h
      have both := Assertion.holds_mul_mono (fun _ => each k (by simp) depth m base _)
        (fun _ => ih fun k' inside => each k' (by simp [inside])) h
      rw [mul_mul_mul_comm, ← blocks_append] at both
      exact Assertion.holds_mul_mono (fun _ => id) (fun _ _ => Assertion.holds_some) both

theorem owning_packed {kids : List (Ref × Assertion)} (each : ∀ k ∈ kids, Owning k.2 k.1)
    (refs : n.hasRefs = true → childRefs vs = kids.map Prod.fst) :
    Owning (packed role n vs * (kids.map Prod.snd).prod) n.ref := by
  intro depth m base own h
  obtain ⟨x, y, rfl, apart, ⟨rfl, here, layout, -, list⟩, below⟩ := h
  have single : (blocks [n]).holds m base (n.region base) := by
    simpa using ⟨rfl, here⟩
  rw [here.load]
  cases depth with
  | zero => exact ⟨_, _, rfl, apart, single, Assertion.holds_some⟩
  | succ depth =>
      cases parent : n.hasRefs with
      | false =>
          rw [subtreeWithin_childless parent]
          exact ⟨_, _, rfl, apart, single, Assertion.holds_some⟩
      | true =>
          have kin : children m n = kids.map Prod.fst := by
            rw [children, if_pos parent, list]
            exact refs parent
          rw [subtreeWithin, kin, blocks_append, mul_comm (blocks _), mul_assoc]
          exact ⟨_, _, rfl, apart, single, blocks_below each depth below⟩

theorem destroyDeepRef_holds {A : Assertion} {r : Ref} (owning : Owning A r) (h : s.Holds (A * R))
    (run : destroyDeepRef r s = (.ok (), s')) : s'.Holds R := by
  simp only [destroyDeepRef, loadM, StoreM.read_bind, destroyDeep] at run
  obtain ⟨sound, _, owns, x, y, rfl, apart, a, rest⟩ := h
  have below : s.Holds (blocks (subtree s.memory (load s.memory r)) * .some * R) :=
    ⟨sound, _, owns, x, y, rfl, apart, owning _ _ _ _ a, rest⟩
  rw [mul_assoc] at below
  obtain ⟨_, _, freed, done⟩ := StoreM.bind_ok.mp run
  obtain ⟨-, rfl⟩ := StoreM.pure_ok.mp done
  exact (destroyEach_holds below freed).right

end ColumnStore.Node
