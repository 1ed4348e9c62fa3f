import ColumnStore.Leaf.Scalar
import ColumnStore.Proofs.BytesLeaf
import ColumnStore.Proofs.Height
import ColumnStore.Proofs.Outcome
import ColumnStore.Proofs.Room
import ColumnStore.Proofs.ScalarLeaf

set_option autoImplicit false

/-!
Empty leaves. With room for their nodes they are made without fail, and freeing them gives the room
back.
-/
namespace ColumnStore

open Assertion (fact above any)

/-! ### Making and freeing -/

/-- A value as `A` says is made, and a failure leaves all that was there. With room for so many more
nodes there is no failure. -/
structure StoreM.Makes {α : Type} (x : StoreM α) (nodes : Nat) (A : α → Assertion) : Prop where
  made {s s' : Store} {R : Assertion} {a : α} : s.Holds R → x s = (.ok a, s') → s'.Holds (A a * R)
  failed {s s' : Store} {R : Assertion} {e : Error} : s.Holds R → x s = (.error e, s') → s'.Holds R
  roomy {s : Store} {R : Assertion} {total used : Nat} : s.Holds R → s.Roomy total used →
    used + nodes ≤ total → ∃ a s', x s = (.ok a, s') ∧ s'.Roomy total (used + nodes)

/-- What `A` says is freed, and there is room for so many more nodes. -/
def StoreM.Frees (x : StoreM Unit) (nodes : Nat) (A : Assertion) : Prop :=
  ∀ ⦃s : Store⦄ ⦃R : Assertion⦄, s.Holds (A * R) → ∃ s', x s = (.ok (), s') ∧ s'.Holds R ∧
    ∀ {total used}, s.Roomy total (used + nodes) → s'.Roomy total used

namespace StoreM

variable {α β γ : Type} {x : StoreM α} {y : StoreM β} {m n : Nat} {A : α → Assertion}
  {B : β → Assertion} {C : γ → Assertion} {s s' : Store} {R : Assertion}

theorem Makes.run {total used : Nat} (makes : x.Makes n A) (h : s.Holds R)
    (roomy : s.Roomy total used) (fits : used + n ≤ total) :
    ∃ a s', x s = (.ok a, s') ∧ s'.Holds (A a * R) ∧ s'.Roomy total (used + n) := by
  obtain ⟨a, s', run, roomy⟩ := makes.roomy h roomy fits
  exact ⟨a, s', run, makes.made h run, roomy⟩

theorem Makes.spares (makes : x.Makes n A) : x.Spares (·.Holds R) := by
  intro s h
  refine ⟨?_, fun _ _ => trivial⟩
  rcases run : x s with ⟨e | a, s'⟩
  · exact makes.failed h run
  · exact (makes.made h run).right

theorem Makes.map {f : α → γ} (makes : x.Makes n A) (each : ∀ a, (A a).Entails (C (f a))) :
    (f <$> x).Makes n C where
  made h run := by
    obtain ⟨a, ran, rfl⟩ := map_ok.mp run
    exact (makes.made h ran).imp_left (each a)
  failed h run := makes.failed h (map_error.mp run)
  roomy h roomy fits := by
    obtain ⟨a, s', run, roomy⟩ := makes.roomy h roomy fits
    exact ⟨f a, s', map_ok.mpr ⟨a, run, rfl⟩, roomy⟩

theorem Makes.both {f : α → β → γ} (first : x.Makes m A) (second : y.Makes n B)
    (each : ∀ a b, (A a * B b).Entails (C (f a b))) :
    StoreM.Makes (do
      let a ← x
      let b ← y
      return f a b) (m + n) C where
  made h run := by
    obtain ⟨a, s₁, ran, rest⟩ := bind_ok.mp run
    obtain ⟨b, s₂, ran', rest⟩ := bind_ok.mp rest
    obtain ⟨rfl, rfl⟩ := pure_ok.mp rest
    exact ((second.made (first.made h ran) ran').of_eq (by ac_rfl)).imp_left (each a b)
  failed h run := by
    obtain failed | ⟨a, s₁, ran, rest⟩ := bind_error.mp run
    · exact first.failed h failed
    obtain failed | ⟨_, _, -, rest⟩ := bind_error.mp rest
    · exact (second.failed (first.made h ran) failed).right
    · cases rest
  roomy h roomy fits := by
    obtain ⟨a, s₁, run, h, roomy⟩ := first.run h roomy (by omega)
    obtain ⟨b, s₂, run', roomy⟩ := second.roomy h roomy (by omega)
    refine ⟨f a b, s₂, bind_ok.mpr ⟨a, s₁, run, bind_ok.mpr ⟨b, s₂, run', rfl⟩⟩, ?_⟩
    rwa [← Nat.add_assoc]

theorem Frees.none : StoreM.Frees (pure ()) 0 1 := by
  intro s R h
  rw [one_mul] at h
  exact ⟨s, rfl, h, id⟩

theorem Frees.seq {x y : StoreM Unit} {A B : Assertion} (first : x.Frees m A)
    (second : y.Frees n B) :
    StoreM.Frees (do
      x
      y) (m + n) (A * B) := by
  intro s R h
  rw [mul_assoc] at h
  obtain ⟨s₁, run, h, roomy⟩ := first h
  obtain ⟨s₂, run', h, roomy'⟩ := second h
  refine ⟨s₂, bind_ok.mpr ⟨(), s₁, run, run'⟩, h, fun {total used} room => roomy' (roomy ?_)⟩
  rwa [Nat.add_assoc, Nat.add_comm n]

end StoreM

namespace Node

variable {s s' : Store} {n n' : Node} {role : Role} {layout : Layout} {width total used i : Nat}
  {R : Assertion} {m : Memory} {base : Nat} {own : Set Nat} {v : Int64}

/-- A new block that is not in the image, whatever the node holds. -/
def young (n : Node) : Assertion :=
  fact (n.capacity = Header.initialCapacity) * (above n.ref * stored n)

theorem young_mul : s.Holds (n.young * R) ↔
    n.capacity = Header.initialCapacity ∧ s.baseline ≤ n.ref ∧ s.Holds (stored n * R) := by
  rw [young, mul_assoc, mul_assoc, Store.holds_fact_mul, Store.holds_above_mul]

/-- The same of a node without elements. -/
def blank (n : Node) : Assertion := fact (n.size = 0) * n.young

theorem blank_mul : s.Holds (n.blank * R) ↔ n.size = 0 ∧ s.Holds (n.young * R) := by
  rw [blank, mul_assoc, Store.holds_fact_mul]

theorem create_made {width : Nat} (legal : width ∈ Width.legal) (h : s.Holds R)
    (run : create role layout width s = (.ok n, s')) :
    n.head = Header.new role layout width ∧ s'.baseline ≤ n.ref ∧ s'.Holds (stored n * R) := by
  obtain ⟨-, mutable, head, -⟩ := create_ok h.sound legal run
  refine ⟨head, mutable, ?_⟩
  rw [← one_mul R] at h
  refine h.turn ?_
  rintro _ sound - rfl
  obtain ⟨live, -, -, evolves⟩ := create_ok sound legal run
  exact ⟨_, evolves, rfl, live.stored⟩

/-- Nothing but the allocation of its block can fail. -/
theorem create_failed {e : Error} (run : create role layout width s = (.error e, s')) : s' = s := by
  obtain run | ⟨_, _, -, run⟩ := StoreM.bind_error.mp run
  · rw [StoreM.allocate, Store.allocate] at run
    split at run
    next => cases run
    next =>
      split at run
      next =>
        cases run
        rfl
      next =>
        split at run
        next => cases run
        next =>
          cases run
          rfl
  · rw [StoreM.modifyMemory_bind] at run
    cases run

theorem create_roomy (role : Role) (layout : Layout) (width : Nat) (roomy : s.Roomy total used)
    (more : used < total) :
    ∃ n s', create role layout width s = (.ok n, s') ∧ s'.Roomy total (used + 1) := by
  obtain ⟨r, t, allocation, roomy⟩ := roomy.allocate more
  refine ⟨⟨r, Header.new role layout width⟩,
    t.withMemory (t.memory.setHeader r (Header.new role layout width)), ?_, roomy.withMemory _⟩
  rw [create, StoreM.bind_apply, StoreM.allocate, allocation]
  exact StoreM.modifyMemory_bind ..

theorem stored_of_blank (h : s.Holds (n.blank * R)) : n.Stored s.memory s.baseline :=
  (live_of_holds (young_mul.mp (blank_mul.mp h).2).2.2).stored

theorem create_makes (role : Role) (layout : Layout) (width : Nat)
    (legal : width ∈ Width.legal) : (create role layout width).Makes 1 blank where
  made {s s' R n} h run := by
    obtain ⟨head, mutable, h⟩ := create_made legal h run
    refine blank_mul.mpr ⟨?_, young_mul.mpr ⟨?_, mutable, h⟩⟩
    · rw [size, head]
      rfl
    · rw [capacity, head]
      rfl
  failed h run := create_failed run ▸ h
  roomy _ roomy fits := create_roomy role layout width roomy fits

theorem destroy_young (h : s.Holds (n.young * R)) : (s.release n.ref n.footprint).Holds R ∧
    ∀ {total used}, s.Roomy total (used + 1) → (s.release n.ref n.footprint).Roomy total used := by
  obtain ⟨capacity, mutable, h⟩ := young_mul.mp h
  have whole : n.footprint = Header.initialCapacity :=
    (Nat.max_eq_left ((live_of_holds h).stored.room mutable)).trans capacity
  refine ⟨destroy_holds h, fun roomy => ?_⟩
  rw [whole]
  exact roomy.release mutable

def youngs (ns : List Node) : Assertion := (ns.map young).prod

@[simp] theorem youngs_nil : youngs [] = 1 := rfl

@[simp] theorem youngs_cons (n : Node) (ns : List Node) : youngs (n :: ns) = n.young * youngs ns :=
  List.prod_cons

/-- The nodes below a new node are freed with it. -/
theorem destroyDeep_youngs {ns : List Node} (below : n.subtree s.memory = ns)
    (h : s.Holds (youngs ns * R)) : ∃ s', n.destroyDeep s = (.ok (), s') ∧ s'.Holds R ∧
      ∀ {total used}, s.Roomy total (used + ns.length) → s'.Roomy total used := by
  have each : ∀ (ns : List Node) (s : Store), s.Holds (youngs ns * R) →
      ∃ s', (forIn ns PUnit.unit fun d _ => do
        d.destroy
        pure (.yield PUnit.unit) : StoreM PUnit) s = (.ok .unit, s') ∧ s'.Holds R ∧
          ∀ {total used}, s.Roomy total (used + ns.length) → s'.Roomy total used := by
    intro ns
    induction ns with
    | nil =>
        intro s h
        rw [youngs_nil, one_mul] at h
        exact ⟨s, rfl, h, id⟩
    | cons n ns ih =>
        intro s h
        rw [youngs_cons, mul_assoc] at h
        obtain ⟨h, roomy⟩ := destroy_young h
        obtain ⟨s', run, h, roomy'⟩ := ih _ h
        refine ⟨s', ?_, h, fun room => roomy' (roomy room)⟩
        simp only [List.forIn_cons, destroy, bind_assoc, StoreM.free_bind, pure_bind]
        exact run
  obtain ⟨s', run, done⟩ := each ns s h
  refine ⟨s', ?_, done⟩
  rw [destroyDeep, StoreM.read_bind, below, StoreM.bind_apply, run]
  rfl

theorem subtreeWithin_blank (empty : n.size = 0) (m : Memory) (depth : Nat) :
    subtreeWithin m depth n = [n] := by
  have none : n.children m = [] := by
    rw [children, toList, empty]
    split <;> rfl
  cases depth with
  | zero => rfl
  | succ depth => rw [subtreeWithin, none, List.flatMap_nil, List.nil_append]

theorem destroy_frees (n : Node) : n.destroy.Frees 1 n.blank := by
  intro s R h
  obtain ⟨h, roomy⟩ := destroy_young (blank_mul.mp h).2
  exact ⟨_, rfl, h, roomy⟩

theorem destroyDeep_frees (n : Node) : n.destroyDeep.Frees 1 n.blank := by
  intro s R h
  obtain ⟨empty, h⟩ := blank_mul.mp h
  refine destroyDeep_youngs (subtreeWithin_blank empty _ _) ?_
  rwa [youngs_cons, youngs_nil, mul_one]

/-- A node with room for one more element stays where it is. -/
theorem add_room (legal : n.width ∈ Width.legal) (mutable : s.baseline ≤ n.ref)
    (room : Header.bytesFor (n.size + 1) 64 n.head.layout ≤ n.capacity) :
    ∃ n' m, add v (n, s) = (.ok (), (n', s.withMemory m)) ∧ n'.ref = n.ref ∧
      n'.size = n.size + 1 ∧ n'.capacity = n.capacity ∧ n'.head.layout = n.head.layout := by
  have narrow := Width.fitted_le legal v
  have fits := Nat.le_trans (Header.bytesFor_mono (Nat.le_refl _) narrow n.head.layout) room
  simp only [add, insert, Edit.self_bind]
  rw [Edit.bind_apply, copyOnWrite_mutable mutable]
  simp only [Edit.self_bind]
  rw [Edit.bind_apply, reserve_room fits]
  simp only [setKnownWidth, setKnownSize, Edit.update_bind, Edit.self_bind, Edit.modifyMemory_bind,
    Edit.update_apply, Store.withMemory_withMemory]
  generalize insertElement _ _ _ _ _ _ _ = m
  exact ⟨_, m, rfl, rfl, rfl, rfl, rfl⟩

end Node

/-! ### Leaves -/

/-- Empty leaves and the number of their nodes. -/
class BlankLeaf (L : Type) {V : outParam Type} [Leaf L V] where
  nodes : Nat
  blank : L → Assertion
  create : (Leaf.create : StoreM L).Makes nodes blank
  destroy (l : L) : (Leaf.destroy l).Frees nodes (blank l)

instance : BlankLeaf Node where
  nodes := 1
  blank := Node.blank
  create := Node.create_makes .plain .bits 0 (by decide)
  destroy := Node.destroyDeep_frees

instance : BlankLeaf RefLeaf where
  nodes := 1
  blank l := l.node.blank
  create := (Node.create_makes .refs .bits 0 (by decide)).map fun _ => .refl _
  destroy l := l.node.destroyDeep_frees

instance {α : Type} [Scalar α] [LawfulScalar α] : BlankLeaf (ScalarLeaf α) where
  nodes := 1
  blank l := l.node.blank
  create := (Node.create_makes .plain .bytes _ LawfulScalar.legal).map fun _ => .refl _
  destroy l := l.node.destroy_frees

namespace BytesLeaf

open Node (packed)

variable {l : BytesLeaf} {s : Store} {R : Assertion}

/-- The ends and the blob are empty, and the slots of the top node say where they are. -/
def blank (l : BytesLeaf) : Assertion :=
  fact (l.top.capacity = Header.initialCapacity) * (above l.top.ref *
    (packed .refs l.top l.slots * (l.ends.blank * l.blob.node.blank)))

/-- Two slots fit into the block of a new node, so that filling them cannot fail. -/
theorem fill_room {top : Node} (head : top.head = Header.new .refs .bits 0)
    (h : s.Holds (above top.ref * (packed .refs top [] * R))) (v w : Int64) :
    ∃ n m, (do
        Node.add v
        Node.add w : Edit Node Unit) (top, s) = (.ok (), (n, s.withMemory m)) ∧
      n.capacity = Header.initialCapacity ∧
      (s.withMemory m).Holds (above n.ref * (packed .refs n [v, w] * R)) := by
  obtain ⟨mutable, h⟩ := Store.holds_above_mul.mp h
  obtain ⟨n, m, add, ref, size, capacity, layout⟩ :=
    Node.add_room (v := v) (by rw [Node.width, head]; decide) mutable
      (by rw [Node.size, Node.capacity, head]; decide)
  have h := Node.add_holds h (by decide) add
  obtain ⟨n', m', add', ref', -, capacity', -⟩ :=
    Node.add_room (s := s.withMemory m) (v := w) (Node.packed_of_holds h).live.stored.legal
      (le_of_le_of_eq mutable ref.symm)
      (by rw [size, capacity, layout, Node.size, Node.capacity, head]; decide)
  have h := Node.add_holds h (Nat.lt_of_le_of_lt (Nat.le_refl 2) (by decide)) add'
  refine ⟨n', m', Edit.bind_ok.mpr ⟨(), _, add, add'⟩, ?_, Store.holds_above_mul.mpr ⟨?_, h⟩⟩
  · rw [capacity', capacity, Node.capacity, head]
    rfl
  · exact le_of_le_of_eq mutable (ref'.trans ref).symm

theorem parts_made {top ends node : Node} {s₁ s₂ s₃ : Store} (h : s.Holds R)
    (first : Node.createPacked .refs s = (.ok top, s₁))
    (second : Node.createPacked .plain s₁ = (.ok ends, s₂))
    (third : Node.create .plain .raw 1 s₂ = (.ok node, s₃)) :
    top.head = Header.new .refs .bits 0 ∧ s₃.Holds (above top.ref *
      (packed .refs top [] * (ends.blank * (node.blank * R)))) := by
  obtain ⟨head, mutable, -⟩ := Node.create_made (by decide) h first
  have h := Store.holds_above_mul.mpr ⟨mutable, Node.createPacked_holds h first⟩
  have h := (Node.create_makes .plain .bits 0 (by decide)).made h second
  have h := (Node.create_makes .plain .raw 1 (by decide)).made h third
  exact ⟨head, h.of_eq (by ac_rfl)⟩

theorem create_makes : create.Makes 3 blank where
  made {s s' R l} h run := by
    simp only [create, StoreM.bind_ok, StoreM.pure_ok] at run
    obtain ⟨top, s₁, first, ends, s₂, second, blob, s₃, third, ⟨_, top'⟩, s₄, fill, rfl, rfl⟩ := run
    obtain ⟨node, raw, rfl⟩ := StoreM.map_ok.mp third
    obtain ⟨head, h⟩ := parts_made h first second raw
    obtain ⟨n, m, filled, capacity, h⟩ := fill_room head h (Slot.ofRef ends.ref) (Slot.ofRef node.ref)
    have same := filled.symm.trans (Edit.on_ok.mp fill)
    cases same
    refine Store.Holds.of_eq (Store.holds_fact_mul.mpr ⟨capacity, h⟩) ?_
    simp only [blank, mul_assoc]
    rfl
  failed {s s' R e} h run := by
    obtain failed | ⟨top, s₁, first, run⟩ := StoreM.bind_error.mp run
    · exact Node.create_failed failed ▸ h
    obtain failed | ⟨ends, s₂, second, run⟩ := StoreM.bind_error.mp run
    · exact Node.create_failed failed ▸ (Node.createPacked_holds h first).right
    obtain failed | ⟨blob, s₃, third, run⟩ := StoreM.bind_error.mp run
    · have h := Node.createPacked_holds (Node.createPacked_holds h first) second
      exact Node.create_failed (StoreM.map_error.mp failed) ▸ h.right.right
    obtain ⟨node, raw, rfl⟩ := StoreM.map_ok.mp third
    obtain ⟨head, h⟩ := parts_made h first second raw
    obtain ⟨n, m, filled, -⟩ := fill_room head h (Slot.ofRef ends.ref) (Slot.ofRef node.ref)
    rw [StoreM.bind_apply, Edit.on_ok.mpr filled] at run
    cases run
  roomy {s R total used} h roomy fits := by
    obtain ⟨top, s₁, first, roomy⟩ := Node.create_roomy .refs .bits 0 roomy (by omega)
    obtain ⟨ends, s₂, second, roomy⟩ := Node.create_roomy .plain .bits 0 roomy (by omega)
    obtain ⟨node, s₃, third, roomy⟩ := Node.create_roomy .plain .raw 1 roomy (by omega)
    obtain ⟨head, h⟩ := parts_made h first second third
    obtain ⟨n, m, filled, -⟩ := fill_room head h (Slot.ofRef ends.ref) (Slot.ofRef node.ref)
    refine ⟨⟨n, ends, ⟨node⟩⟩, _, ?_, roomy.withMemory m⟩
    simp only [create, StoreM.bind_ok]
    exact ⟨top, s₁, first, ends, s₂, second, ⟨node⟩, s₃, StoreM.map_ok.mpr ⟨node, third, rfl⟩,
      ((), n), _, Edit.on_ok.mpr filled, rfl⟩

theorem subtree_blank (h : s.Holds (packed .refs l.top l.slots * (l.ends.blank *
    (l.blob.node.blank * R)))) : l.top.subtree s.memory = [l.ends, l.blob.node, l.top] := by
  have top := (Node.packed_of_holds h).live.stored
  have first : s.Holds (l.ends.blank * (packed .refs l.top l.slots * (l.blob.node.blank * R))) :=
    h.of_eq (by ac_rfl)
  have second : s.Holds (l.blob.node.blank * (packed .refs l.top l.slots * (l.ends.blank * R))) :=
    h.of_eq (by ac_rfl)
  have ends := Node.stored_of_blank first
  have blob := Node.stored_of_blank second
  have none := (Node.blank_mul.mp first).1
  have empty := (Node.blank_mul.mp second).1
  obtain ⟨_, -, -, -, role, list⟩ := h.reads
  have refs : l.top.hasRefs = true := role.2
  have children : l.top.children s.memory = [l.ends.ref, l.blob.node.ref] := by
    rw [Node.children, if_pos refs, list]
    show Node.childRefs ([l.ends.ref, l.blob.node.ref].map Slot.ofRef) = _
    refine Node.childRefs_ofRef fun r inside => ?_
    rcases List.mem_pair.mp inside with rfl | rfl
    · exact ⟨ends.isRef, ends.bound⟩
    · exact ⟨blob.isRef, blob.bound⟩
  have some : l.top.ref < Node.depthBound s.memory := by
    refine Node.lt_size_of_flags fun zero => ?_
    have loaded := (congrArg Header.hasRefs top.loaded).trans refs
    simp [Memory.header, Header.ofFlags, zero] at loaded
  obtain ⟨depth, bound⟩ := Nat.exists_eq_succ_of_ne_zero (Nat.ne_zero_of_lt some)
  rw [Node.subtree, bound, Node.subtreeWithin, children]
  simp [ends.load, blob.load, Node.subtreeWithin_blank none, Node.subtreeWithin_blank empty]

/-- The nodes of an empty leaf, in the order in which they are freed. -/
theorem youngs_of_blank (h : s.Holds (l.blank * R)) :
    l.top.subtree s.memory = [l.ends, l.blob.node, l.top] ∧
      s.Holds (Node.youngs [l.ends, l.blob.node, l.top] * R) := by
  rw [blank, mul_assoc, mul_assoc, mul_assoc, mul_assoc, Store.holds_fact_mul,
    Store.holds_above_mul] at h
  obtain ⟨capacity, mutable, h⟩ := h
  refine ⟨subtree_blank h, ?_⟩
  have top := Node.young_mul.mpr ⟨capacity, mutable, h.imp_left Node.packed_entails⟩
  have first : s.Holds (l.ends.blank * (l.blob.node.blank * (l.top.young * R))) :=
    top.of_eq (by ac_rfl)
  have second : s.Holds (l.blob.node.blank * (l.ends.young * (l.top.young * R))) :=
    (Node.blank_mul.mp first).2.of_eq (by ac_rfl)
  refine (Node.blank_mul.mp second).2.of_eq ?_
  rw [Node.youngs_cons, Node.youngs_cons, Node.youngs_cons, Node.youngs_nil, mul_one]
  ac_rfl

theorem destroy_frees (l : BytesLeaf) : l.destroy.Frees 3 l.blank := by
  intro s R h
  obtain ⟨below, h⟩ := youngs_of_blank h
  exact Node.destroyDeep_youngs below h

instance : BlankLeaf BytesLeaf where
  nodes := 3
  blank := blank
  create := create_makes
  destroy := destroy_frees

end BytesLeaf

end ColumnStore
