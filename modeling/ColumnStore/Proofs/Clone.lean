import ColumnStore.Node.Clone
import ColumnStore.Proofs.Attach
import ColumnStore.Proofs.Outcome
import ColumnStore.Proofs.View

set_option autoImplicit false

/-!
Deep copies in another store. A node without children is copied as it is; a node with children is
built anew around their copies, so that its refs and its width may differ. Whatever else the target
holds stays there, and a copy that is not finished was refused a block.
-/
namespace ColumnStore

open Assertion (fact above any)

namespace Node

open Store (Evolves)

variable {m m' : Memory} {r r' : Ref} {t t' s s' : Store} {n n' : Node} {vs vs' : List Int64}
  {v : Int64} {role : Role} {c : Bool} {R : Assertion} {base : Nat} {own : Set Nat} {depth : Nat}
  {e : Error}

/-! ### Copies -/

/-- The node at `r'` in `m'` says what the node at `r` in `m` says: it has the same flags, the same
number of elements and the same elements, where a ref stands for a node that mirrors the child. The
width of a node with children may differ, as may the capacities. -/
inductive Mirrors (m m' : Memory) : Ref → Ref → Prop
  | bytes {r r' : Ref} (childless : (load m r).hasRefs = false)
      (head : (load m' r').head = { (load m r).head with capacity := (load m' r').capacity })
      (data : SameData m (load m r) m' (load m' r')) : Mirrors m m' r r'
  | slots {r r' : Ref} (parent : (load m r).hasRefs = true)
      (head : (load m' r').head =
        { (load m r).head with width := (load m' r').width, capacity := (load m' r').capacity })
      (scalars : ∀ i < (load m r).size, Slot.isRef ((load m r).get m i) = false →
        (load m' r').get m' i = (load m r).get m i)
      (refs : ∀ i < (load m r).size, Slot.isRef ((load m r).get m i) = true →
        Slot.isRef ((load m' r').get m' i) = true)
      (children : ∀ i < (load m r).size, Slot.isRef ((load m r).get m i) = true →
        Mirrors m m' ((load m r).getRef m i) ((load m' r').getRef m' i)) : Mirrors m m' r r'

/-- A block of the store itself, with the node that is loaded from it. -/
def taken (n : Node) : Assertion where
  holds m base own := own = block n.ref n.footprint ∧ base ≤ n.ref ∧ load m n.ref = n
  stable {m m'} base own same := by
    rintro ⟨rfl, mutable, loaded⟩
    have header : m'.header n.ref = m.header n.ref := by
      apply Memory.header_congr
      intro i inside
      have := n.length_le_byteSize
      exact same _ (.inl ⟨Nat.le_add_right _ _, by rw [footprint]; omega⟩)
    refine ⟨rfl, mutable, ?_⟩
    rwa [load, header]

/-- The bytes of a node, in a block of the store itself. -/
def twin (m : Memory) (n : Node) (r' : Ref) : Assertion where
  holds m' base own := own = block r' n.byteSize ∧
    (base ≤ r' ∧ 8 ∣ r' ∧ 0 < r' ∧ r' < Store.addressSpace) ∧
    (load m' r').head = { n.head with capacity := n.byteSize % 2 ^ 24 } ∧ SameData m n m' (load m' r')
  stable {m' m''} base own same := by
    rintro ⟨rfl, place, head, data⟩
    have whole := n.length_le_byteSize
    refine ⟨rfl, place, ?_, fun k inside => ?_⟩
    · rw [← head]
      apply Memory.header_congr
      intro i inside
      exact same _ (.inl ⟨Nat.le_add_right _ _, by omega⟩)
    · refine (same _ (.inl ?_)).trans (data k inside)
      rw [Node.data, load, Nat.add_assoc]
      exact ⟨Nat.le_add_right _ _, Nat.add_lt_add_left inside _⟩

/-- A node with children as far as it is built. -/
def part (role : Role) (c : Bool) (n : Node) (vs : List Int64) : Assertion :=
  fact (n.head.context = c) * (above n.ref * packed role n vs)

/-- What stands for the slot `v`; `copy` tells where children were copied to. -/
def slotCopy (copy : Ref → Ref → Assertion) (v v' : Int64) : Assertion :=
  if Slot.isRef v then fact (Slot.isRef v' = true) * copy (Slot.toRef v) (Slot.toRef v')
  else fact (v' = v)

def slotCopies (copy : Ref → Ref → Assertion) (vs vs' : List Int64) : Assertion :=
  (List.zipWith (slotCopy copy) vs vs').prod

/-- A copy at `r'` of the node at `r` of `m`, and of everything below it. -/
def copyWithin (m : Memory) : Nat → Ref → Ref → Assertion
  | 0, r, r' => twin m (load m r) r'
  | depth + 1, r, r' =>
      if (load m r).hasRefs then
        any fun n : Node => any fun vs : List Int64 =>
          fact (n.ref = r' ∧ vs.length = (load m r).size) *
            (part (load m r).role (load m r).head.context n vs *
              slotCopies (copyWithin m depth) ((load m r).toList m) vs)
      else twin m (load m r) r'

theorem part_mul : s.Holds (part role c n vs * R) ↔
    n.head.context = c ∧ s.baseline ≤ n.ref ∧ s.Holds (packed role n vs * R) := by
  rw [part, mul_assoc, mul_assoc, Store.holds_fact_mul, Store.holds_above_mul]

/-! ### One step -/

/-- Why a copy of the node at `r` was not finished in a store that has reached `s`: a block was
refused, or a node outgrew the largest capacity, which no node of a moderate tree does. -/
inductive Unfinished (m : Memory) (r : Ref) (s : Store) : Error → Prop
  | refused {e : Error} (size : Nat) (refusal : s.allocate size = (.error e, s)) : Unfinished m r s e
  | full {needed : Nat} (large : Header.maxCapacity < needed) (immoderate : ¬ Moderate m r) :
      Unfinished m r s (.capacityExceeded needed Header.maxCapacity)

theorem Unfinished.parent {child : Ref} (unfinished : Unfinished m child s e)
    (below : child ∈ (load m r).children m) : Unfinished m r s e := by
  cases unfinished with
  | refused size refusal => exact .refused size refusal
  | full large immoderate =>
      refine .full large fun moderate => immoderate ?_
      obtain ⟨-, -, each⟩ := moderate
      exact each child below

theorem unfinished_allocate {size : Nat} (failed : s.allocate size = (.error e, s')) :
    Unfinished m r s' e := by
  obtain rfl := Store.allocate_error failed
  exact .refused size failed

/-- The bytes of a node, written to `p` with the capacity of that block. -/
def copyTo (m : Memory) (n : Node) (p : Ref) (m' : Memory) : Memory :=
  (m'.write p (m.read n.ref n.byteSize)).setHeaderCapacity p n.byteSize

theorem get_copyTo_outside {p i : Nat} (outside : i ∉ block p n.byteSize) :
    (copyTo m n p m').get i = m'.get i := by
  have whole := n.length_le_byteSize
  rw [Header.length] at whole
  rw [mem_block] at outside
  rw [copyTo, Memory.get_setHeaderCapacity _ (by omega), Memory.get_write, Memory.size_read,
    if_neg outside]

theorem data_copyTo (p : Ref) : SameData m n (copyTo m n p m') (load (copyTo m n p m') p) := by
  intro k inside
  rw [Header.length] at inside
  show (copyTo m n p m').get (p + 8 + k) = m.get (n.ref + 8 + k)
  rw [copyTo, Memory.get_setHeaderCapacity _ (by omega), Memory.get_write, Memory.size_read,
    if_pos (by omega), Memory.get_read, if_pos (by omega)]
  congr 1
  omega

theorem header_copyTo (header : m.header n.ref = n.head) (p : Ref) :
    (load (copyTo m n p m') p).head = { n.head with capacity := n.byteSize % 2 ^ 24 } := by
  have whole := n.length_le_byteSize
  have copied : (m'.write p (m.read n.ref n.byteSize)).header p = n.head := by
    rw [← header]
    apply Memory.header_congr
    intro i inside
    rw [Memory.get_write, Memory.size_read, if_pos (by omega), Nat.add_sub_cancel_left,
      Memory.get_read, if_pos (by omega)]
  rw [load, copyTo, Memory.header_setHeaderCapacity, copied]

theorem twin_ends (m : Memory) (r : Ref) (h : t.Holds R) :
    StoreM.Ends (do
      let target ← StoreM.allocate (load m r).byteSize
      StoreM.modifyMemory (copyTo m (load m r) target)
      return target) t (fun r' t' => t'.Holds (twin m (load m r) r' * R))
      (fun e t' => Unfinished m r t' e) := by
  have whole := (load m r).length_le_byteSize
  rw [Header.length] at whole
  rw [StoreM.Ends]
  split
  next r' t' run =>
    rw [← one_mul R] at h
    refine h.turn ?_
    rintro _ sound - rfl
    simp only [StoreM.bind_ok, StoreM.modifyMemory_bind, StoreM.pure_ok] at run
    obtain ⟨p, u, allocation, rfl, rfl⟩ := run
    have allocated := Store.allocate_allocated sound (whole_byteSize _) (by omega) allocation
    have kept (i : Nat) := @get_copyTo_outside m u.memory (load m r) p i
    have head := @header_copyTo m u.memory (load m r) rfl p
    have data := @data_copyTo m u.memory (load m r) p
    generalize copyTo m (load m r) p u.memory = m' at kept head data ⊢
    have step := Store.write_evolves allocated.evolves.sound allocated.evolves.owns kept
    have mutable : u.baseline ≤ p := allocated.evolves.baseline.symm ▸ allocated.mutable
    exact ⟨_, allocated.evolves.trans step, rfl, ⟨mutable, allocated.start, allocated.positive sound,
      allocated.bound (by omega)⟩, head, data⟩
  next e t' run =>
    obtain failed | ⟨_, _, -, failed⟩ := StoreM.bind_error.mp run
    · exact unfinished_allocate failed
    · cases failed

/-! ### Building a node with children -/

theorem reserve_unfinished {count width : Nat}
    (few : Moderate m r → Header.bytesFor count width n.head.layout ≤ Header.maxCapacity)
    (failed : reserve count width (n, s) = (.error e, (n', s'))) : Unfinished m r s' e := by
  simp only [reserve, Edit.self_bind] at failed
  split at failed
  next =>
    split at failed
    next large =>
      rw [Edit.throw_bind] at failed
      cases failed
      exact .full large fun moderate => Nat.not_lt_of_le (few moderate) large
    next =>
      obtain failed | ⟨_, _, -, failed⟩ := Edit.bind_error.mp failed
      · obtain ⟨-, failed⟩ := Edit.lift_error.mp failed
        obtain failed | ⟨_, _, -, failed⟩ := StoreM.bind_error.mp failed
        · exact unfinished_allocate failed
        · cases failed
      · cases failed
  next => cases failed

theorem insert_context {i : Nat} (mutable : s.baseline ≤ n.ref)
    (run : insert i v (n, s) = (.ok (), (n', s'))) : n'.head.context = n.head.context := by
  rw [insert, Edit.bind_apply, copyOnWrite_mutable mutable] at run
  simp only [setKnownWidth, setKnownSize, Edit.self_bind, Edit.bind_ok, Edit.update_bind,
    Edit.update_apply, Edit.modifyMemory_bind] at run
  obtain ⟨_, ⟨n₁, s₁⟩, room, result⟩ := run
  cases result
  obtain ⟨_, _, -, -, ⟨-, rfl, -⟩ | ⟨_, _, _, _, -, -, -, -, -, rfl, -⟩⟩ := reserve_cases room
  · rfl
  · rfl

/-- An element is added to what is built, or there is no room for it. -/
theorem add_ends (few : Moderate m r → vs.length + 1 ≤ slotLimit) (small : vs.length + 1 < 2 ^ 24)
    (h : s.Holds (part role c n vs * R)) :
    (add v).Ends (n, s) (fun _ q => q.2.Holds (part role c q.1 (vs ++ [v]) * R))
      (fun e s' => Unfinished m r s' e) := by
  obtain ⟨context, mutable, h⟩ := part_mul.mp h
  have packed := packed_of_holds h
  rw [Edit.Ends]
  split
  next _ q run =>
    obtain ⟨n', s'⟩ := q
    have kept : n'.head.context = n.head.context := by
      rw [add, Edit.self_bind] at run
      exact insert_context mutable run
    exact part_mul.mpr ⟨kept.trans context, add_mutable packed run, add_holds h small run⟩
  next e q run =>
    obtain ⟨n', s'⟩ := q
    rw [add, Edit.self_bind, insert, Edit.bind_apply, copyOnWrite_mutable mutable] at run
    simp only [Edit.self_bind] at run
    obtain failed | ⟨_, _, -, failed⟩ := Edit.bind_error.mp run
    · refine reserve_unfinished (fun moderate => ?_) failed
      have narrow := Width.fitted_le packed.live.stored.legal v
      rw [packed.layout]
      refine Nat.le_trans (Header.bytesFor_mono ?_ narrow .bits)
        (show Header.bytesFor slotLimit 64 .bits ≤ Header.maxCapacity by decide)
      exact packed.length ▸ few moderate
    · cases failed

theorem setContext_ends {failed : Error → Store → Prop} (h : s.Holds (part role false n vs * R)) :
    (setContext true).Ends (n, s) (fun _ q => q.2.Holds (part role true q.1 vs * R)) failed := by
  obtain ⟨context, mutable, h⟩ := part_mul.mp h
  have run : setContext true (n, s) = (.ok (), (⟨n.ref, { n.head with context := true }⟩,
      s.withMemory (s.memory.setHeaderContext n.ref true))) := by
    simp only [setContext, Edit.self_bind]
    rw [if_pos (by rw [context]; decide), Edit.bind_apply, copyOnWrite_mutable mutable]
    simp only [Edit.update_bind, Edit.self_bind, Edit.modifyMemory_apply]
  rw [Edit.Ends, run]
  refine part_mul.mpr ⟨rfl, mutable, h.turn ?_⟩
  exact turns_of_edited fun packed =>
    (setContext_lists packed.lists run).edited packed packed.length_lt

theorem createPacked_ends (role : Role) (h : t.Holds R) :
    (createPacked role).Ends t (fun n s => s.Holds (part role false n [] * R))
      (fun e s => Unfinished m r s e) := by
  rw [StoreM.Ends]
  split
  next n s run =>
    obtain ⟨-, mutable, head, -⟩ := createPacked_ok h.sound run
    have context : n.head.context = false := by
      rw [head]
      rfl
    exact part_mul.mpr ⟨context, mutable, createPacked_holds h run⟩
  next e s run =>
    obtain failed | ⟨_, _, -, failed⟩ := StoreM.bind_error.mp run
    · exact unfinished_allocate failed
    · cases failed

/-! ### The whole tree -/

theorem place_of_copy (h : (copyWithin m depth r r').holds m' base own) :
    8 ∣ r' ∧ 0 < r' ∧ r' < Store.addressSpace := by
  have twins (h : (twin m (load m r) r').holds m' base own) :
      8 ∣ r' ∧ 0 < r' ∧ r' < Store.addressSpace := h.2.1.2
  cases depth with
  | zero => exact twins h
  | succ depth =>
      rw [copyWithin] at h
      split at h
      next =>
        obtain ⟨n, vs, h⟩ := h
        obtain ⟨⟨rfl, -⟩, _, _, -, -, built, -⟩ := Assertion.fact_mul.mp h
        obtain ⟨-, _, _, -, -, -, -, stored, -⟩ := Assertion.fact_mul.mp built
        exact ⟨stored.aligned, stored.positive, stored.bound⟩
      next => exact twins h

theorem slotCopy_ref {child : Ref} (isRef : Slot.isRef v = true) :
    (copyWithin m depth (Slot.toRef v) child).Entails
      (slotCopy (copyWithin m depth) v (Slot.ofRef child)) := by
  intro m' base own h
  obtain ⟨aligned, positive, bound⟩ := place_of_copy h
  rw [slotCopy, if_pos isRef, Slot.toRef_ofRef bound]
  exact Assertion.fact_mul.mpr
    ⟨Slot.isRef_ofRef positive (Nat.dvd_trans (by decide) aligned) bound, h⟩

theorem slotCopy_scalar (copy : Ref → Ref → Assertion) (scalar : Slot.isRef v = false) :
    Assertion.Entails 1 (slotCopy copy v v) := by
  intro m' base own h
  rw [slotCopy, if_neg (by rw [scalar]; decide)]
  exact ⟨h, rfl⟩

/-- Every node of this height is copied, unless a block is refused on the way. -/
def Clones (m : Memory) (depth : Nat) : Prop :=
  ∀ ⦃r : Ref⦄ ⦃t : Store⦄ ⦃R : Assertion⦄, WellFormed m r → Shallow m depth r → t.Holds R →
    (cloneWithin m (depth + 1) (load m r)).Ends t
      (fun r' t' => t'.Holds (copyWithin m depth r r' * R)) (fun e t' => Unfinished m r t' e)

theorem cloneSlots_ends (clones : Clones m depth)
    (below : ∀ v ∈ vs', Slot.isRef v = true → Slot.toRef v ∈ (load m r).children m ∧
      WellFormed m (Slot.toRef v) ∧ Shallow m depth (Slot.toRef v))
    (few : Moderate m r → vs.length + vs'.length ≤ slotLimit)
    (small : vs.length + vs'.length < 2 ^ 24)
    (h : s.Holds (part role c n vs * R)) :
    (cloneSlots m (depth + 1) vs').Ends (n, s)
      (fun _ q => ∃ vs'', vs''.length = vs'.length ∧
        q.2.Holds (part role c q.1 (vs ++ vs'') * (slotCopies (copyWithin m depth) vs' vs'' * R)))
      (fun e s' => Unfinished m r s' e) := by
  induction vs' generalizing n s vs R with
  | nil =>
      rw [cloneSlots]
      refine .pure ⟨[], rfl, ?_⟩
      rwa [List.append_nil, slotCopies, List.zipWith_nil_left, List.prod_nil, one_mul]
  | cons v vs' ih =>
      have rest v' inside := below v' (List.mem_cons_of_mem v inside)
      rw [List.length_cons] at few small
      -- What stands for the slot joins the slots, and what it refers to is kept beside them.
      have next {w : Int64} {n : Node} {s : Store}
          (h : s.Holds (part role c n (vs ++ [w]) * (slotCopy (copyWithin m depth) v w * R))) :
          (cloneSlots m (depth + 1) vs').Ends (n, s)
            (fun _ q => ∃ vs'', vs''.length = (v :: vs').length ∧ q.2.Holds
              (part role c q.1 (vs ++ vs'') * (slotCopies (copyWithin m depth) (v :: vs') vs'' * R)))
            (fun e s' => Unfinished m r s' e) := by
        refine (ih rest ?_ ?_ h).mono fun _ q => ?_
        · rw [List.length_append, List.length_singleton, Nat.add_right_comm]
          exact few
        · rwa [List.length_append, List.length_singleton, Nat.add_right_comm]
        · rintro ⟨vs'', length, h⟩
          refine ⟨w :: vs'', congrArg (· + 1) length, h.of_eq ?_⟩
          rw [slotCopies, slotCopies, List.zipWith_cons_cons, List.prod_cons, List.append_assoc,
            List.singleton_append]
          ac_rfl
      have few' (moderate : Moderate m r) : vs.length + 1 ≤ slotLimit :=
        Nat.le_trans (by omega) (few moderate)
      rw [cloneSlots]
      split
      next isRef =>
        obtain ⟨child, formed, shallow⟩ := below v (by simp) isRef
        have cloned := (clones formed shallow h).mono (fun _ _ h => h.imp_left (slotCopy_ref isRef))
          fun _ _ unfinished => unfinished.parent child
        refine .bind (.lift cloned) fun w q => ?_
        obtain ⟨n₁, s₁⟩ := q
        rintro ⟨rfl, h⟩
        exact .bind (add_ends few' (by omega) (h.of_eq (mul_left_comm ..))) fun _ q h => next h
      next scalar =>
        have scalar := Bool.eq_false_of_not_eq_true scalar
        rw [← one_mul R] at h
        refine .bind (add_ends few' (by omega) h) fun _ q h => next (w := v) (h.mono ?_)
        exact .mul (.refl _) (.mul (slotCopy_scalar _ scalar) (.refl _))

theorem copyWithin_childless (childless : (load m r).hasRefs = false) (depth : Nat) (r' : Ref) :
    copyWithin m depth r r' = twin m (load m r) r' := by
  cases depth with
  | zero => rfl
  | succ depth => rw [copyWithin, if_neg (by rw [childless]; decide)]

theorem clone_bytes (childless : (load m r).hasRefs = false) (depth : Nat) (h : t.Holds R) :
    (cloneWithin m (depth + 1) (load m r)).Ends t
      (fun r' t' => t'.Holds (copyWithin m depth r r' * R)) (fun e t' => Unfinished m r t' e) := by
  simp only [copyWithin_childless childless]
  rw [cloneWithin, if_neg (by rw [childless]; decide)]
  exact twin_ends m r h

theorem clone_slots (clones : Clones m depth) (formed : WellFormed m r)
    (shallow : Shallow m (depth + 1) r) (parent : (load m r).hasRefs = true) (h : t.Holds R) :
    (cloneWithin m (depth + 1 + 1) (load m r)).Ends t
      (fun r' t' => t'.Holds (copyWithin m (depth + 1) r r' * R))
      (fun e t' => Unfinished m r t' e) := by
  have below (v : Int64) (inside : v ∈ (load m r).toList m) (isRef : Slot.isRef v = true) :
      Slot.toRef v ∈ (load m r).children m ∧ WellFormed m (Slot.toRef v) ∧
        Shallow m depth (Slot.toRef v) := by
    have child := mem_children parent inside isRef
    exact ⟨child, formed.child child, shallow parent _ child⟩
  have all : ([] : List Int64).length + ((load m r).toList m).length = (load m r).size := by simp
  have few (moderate : Moderate m r) :
      ([] : List Int64).length + ((load m r).toList m).length ≤ slotLimit := by
    obtain ⟨-, slots, -⟩ := moderate
    rw [all]
    exact slots parent
  have small : ([] : List Int64).length + ((load m r).toList m).length < 2 ^ 24 :=
    all ▸ m.size_header r
  rw [cloneWithin, if_pos parent]
  refine .bind (createPacked_ends _ h) fun n s h => ?_
  refine .bind (.on (?_ : Edit.Ends _ _ (fun _ q => ∃ vs, vs.length = (load m r).size ∧
    q.2.Holds (part (load m r).role (load m r).head.context q.1 vs *
      (slotCopies (copyWithin m depth) ((load m r).toList m) vs * R))) _)) ?_
  · -- The context flag is set before the slots are added.
    have slots {n : Node} {s : Store} {c : Bool} (h : s.Holds (part (load m r).role c n [] * R)) :=
      cloneSlots_ends clones below few small h
    simp only [List.nil_append, length_toList] at slots
    cases context : (load m r).head.context with
    | false =>
        simp only [Bool.false_eq_true, if_false]
        exact slots h
    | true =>
        simp only [if_true]
        exact .bind (setContext_ends h) fun _ q h => slots h
  · rintro ⟨_, n⟩ s ⟨vs, length, h⟩
    refine .pure ?_
    rw [copyWithin, if_pos parent, Store.holds_any_mul]
    refine ⟨n, Store.holds_any_mul.mpr ⟨vs, ?_⟩⟩
    rw [mul_assoc, Store.holds_fact_mul, mul_assoc]
    exact ⟨⟨rfl, length⟩, h⟩

theorem clones (m : Memory) (depth : Nat) : Clones m depth := by
  induction depth with
  | zero =>
      intro r t R _ leaf h
      exact clone_bytes (Bool.eq_false_of_not_eq_true leaf) 0 h
  | succ depth ih =>
      intro r t R formed shallow h
      cases parent : (load m r).hasRefs with
      | false => exact clone_bytes parent (depth + 1) h
      | true => exact clone_slots ih formed shallow parent h

/-! ### Reading a copy -/

end Node

end ColumnStore
