import ColumnStore.Proofs.Height
import ColumnStore.Proofs.Slot
import ColumnStore.Proofs.Store
import ColumnStore.Proofs.Written

set_option autoImplicit false

/-!
Writing a node with everything below it. Children are written in front of their parents, and each
node in the image is a copy of the one it was written from.
-/
namespace ColumnStore

open Image (Writer)

/-! ### Writers -/

namespace Image

/-- The nodes lie in memory as they do in an image. -/
def Writer.Within (w : Writer) (m : Memory) : Prop := m.Has frameSize w.nodes

/-- Whole nodes were appended. -/
structure Writer.Grows (w w' : Writer) : Prop where
  kept : Memory.Has ⟨w'.nodes⟩ 0 w.nodes
  longer : w.nodes.size ≤ w'.nodes.size
  aligned : 8 ∣ w.nodes.size → 8 ∣ w'.nodes.size

namespace Writer

variable {w w' w'' : Writer} {m : Memory} {node : ByteArray}

theorem Grows.refl (w : Writer) : w.Grows w :=
  ⟨fun i _ => by rw [Nat.zero_add], Nat.le_refl _, id⟩

theorem Grows.trans (first : w.Grows w') (second : w'.Grows w'') : w.Grows w'' where
  kept i inside := by
    have later := second.kept i (Nat.lt_of_lt_of_le inside first.longer)
    have sooner := first.kept i inside
    rw [Nat.zero_add] at later sooner
    rw [Nat.zero_add, later, sooner]
  longer := Nat.le_trans first.longer second.longer
  aligned := second.aligned ∘ first.aligned

theorem Grows.position_le (grows : w.Grows w') : w.position ≤ w'.position :=
  Nat.add_le_add_left grows.longer _

theorem Within.of_grows (within : w'.Within m) (grows : w.Grows w') : w.Within m := by
  intro i inside
  have kept := grows.kept i inside
  rw [Nat.zero_add] at kept
  rw [within i (Nat.lt_of_lt_of_le inside grows.longer), kept]

/-- A whole node was appended at `p`. -/
structure Appended (w : Writer) (node : ByteArray) (p : Ref) (w' : Writer) : Prop where
  grows : w.Grows w'
  place : p = w.position
  high : p + node.size ≤ w'.position
  has : ∀ m, w'.Within m → m.Has p node

theorem append_appended {p : Ref} (whole : 8 ∣ node.size)
    (run : w.append node = (p, w')) : w.Appended node p w' := by
  have none : (8 - node.size % 8) % 8 = 0 := by omega
  rw [append, none] at run
  obtain ⟨rfl, rfl⟩ := Prod.mk.inj run
  rw [Memory.pushZeros]
  refine ⟨⟨?_, by simp, ?_⟩, rfl, ?_, ?_⟩
  · intro i inside
    rw [Nat.zero_add, Memory.get_append, if_pos inside]
  · intro aligned
    rw [ByteArray.size_append]
    exact Nat.dvd_add aligned whole
  · show frameSize + w.nodes.size + node.size ≤ frameSize + (w.nodes ++ node).size
    rw [ByteArray.size_append, Nat.add_assoc]
  · intro m within i inside
    have here := within (w.nodes.size + i) (by simp; omega)
    rw [Memory.get_append, if_neg (by omega), Nat.add_sub_cancel_left] at here
    rw [← here, position, Nat.add_assoc]

end Writer

end Image

namespace Node

/-! ### Copies -/

/-- There is room for the node at `r` below `base`. -/
structure Below (m : Memory) (base : Nat) (r : Ref) : Prop where
  aligned : 8 ∣ r
  positive : 0 < r
  inside : r + (load m r).byteSize ≤ base

/-- The node at `r'` in `m'` holds what the node at `r` in `m` holds: the same flags, the same
number of elements and the same elements, where the copy of a child stands for the child. Copies of
children lie in front of the copies of their parents, and all of them lie below `base`. -/
inductive Copies (m m' : Memory) (base : Nat) : Ref → Ref → Prop
  | bytes {r r' : Ref} (below : Below m' base r') (childless : (load m r).hasRefs = false)
      (head : (load m' r').head = { (load m r).head with capacity := (load m r).byteSize })
      (data : SameData m (load m r) m' (load m' r')) : Copies m m' base r r'
  | slots {r r' : Ref} {width : Nat} (below : Below m' base r') (parent : (load m r).hasRefs = true)
      (packed : (load m r).head.layout = .bits)
      (head : (load m' r').head = { (load m r).head with
        width, capacity := Header.bytesFor (load m r).size width .bits })
      (scalars : ∀ i < (load m r).size, Slot.isRef ((load m r).get m i) = false →
        (load m' r').get m' i = (load m r).get m i)
      (places : ∀ i < (load m r).size, Slot.isRef ((load m r).get m i) = true →
        Slot.isRef ((load m' r').get m' i) = true ∧ (load m' r').getRef m' i < r')
      (children : ∀ i < (load m r).size, Slot.isRef ((load m r).get m i) = true →
        Copies m m' base ((load m r).getRef m i) ((load m' r').getRef m' i)) :
      Copies m m' base r r'

variable {m m' : Memory} {r r' : Ref} {depth : Nat} {n : Node} {w w' : Writer}

/-! ### What can be written -/

/-- Nodes with children are packed, and no way down goes on for ever. -/
inductive WellFormed (m : Memory) : Ref → Prop
  | node {r : Ref} (packed : (load m r).hasRefs = true → (load m r).head.layout = .bits)
      (below : ∀ c ∈ (load m r).children m, WellFormed m c) : WellFormed m r

def Shallow (m : Memory) : Nat → Ref → Prop :=
  Height (fun r => (load m r).hasRefs = true) (fun r c => c ∈ (load m r).children m)

theorem WellFormed.layout (h : WellFormed m r) (parent : (load m r).hasRefs = true) :
    (load m r).head.layout = .bits := by
  obtain ⟨packed, -⟩ := h
  exact packed parent

theorem WellFormed.child (h : WellFormed m r) {c : Ref} (child : c ∈ (load m r).children m) :
    WellFormed m c := by
  obtain ⟨-, below⟩ := h
  exact below c child

theorem children_childless (childless : n.hasRefs = false) : n.children m = [] := by
  rw [children, childless, if_neg Bool.false_ne_true]

theorem WellFormed.childless (h : (load m r).hasRefs = false) : WellFormed m r :=
  .node (fun parent => absurd (h.symm.trans parent) (by decide))
    (fun c inside => by rw [children_childless h] at inside; cases inside)

theorem exists_height {refs : List Ref} (each : ∀ c ∈ refs, ∃ depth, Shallow m depth c) :
    ∃ depth, ∀ c ∈ refs, Shallow m depth c := by
  induction refs with
  | nil => exact ⟨0, fun c inside => nomatch inside⟩
  | cons c refs ih =>
      obtain ⟨depth, first⟩ := each c (by simp)
      obtain ⟨depth', rest⟩ := ih fun c inside => each c (by simp [inside])
      refine ⟨max depth depth', fun c' inside => ?_⟩
      rcases List.mem_cons.mp inside with rfl | inside
      · exact first.mono (Nat.le_max_left ..)
      · exact (rest c' inside).mono (Nat.le_max_right ..)

theorem WellFormed.shallow (h : WellFormed m r) : Shallow m (depthBound m) r := by
  have inside (r : Ref) (parent : (load m r).hasRefs = true) : r < m.bytes.size := by
    apply lt_size_of_flags
    intro none
    simp [load, Memory.header, Header.ofFlags, none] at parent
  -- The induction gives some height; that there are only so many parents bounds it.
  obtain ⟨depth, shallow⟩ : ∃ depth, Shallow m depth r := by
    induction h with
    | node _ _ ih =>
        obtain ⟨depth, below⟩ := exists_height ih
        exact ⟨depth + 1, fun _ c child => below c child⟩
  exact shallow.bounded inside

/-- The slots of a node with children go on as the written children demand. -/
def SlotsFit (fits : Node → Writer → Prop) (write : Node → Writer → Ref × Writer) (m : Memory) :
    List Int64 → Writer → Prop
  | [], _ => True
  | v :: vs, w =>
      if Slot.isRef v then
        fits (load m (Slot.toRef v)) w ∧
          SlotsFit fits write m vs (write (load m (Slot.toRef v)) w).2
      else SlotsFit fits write m vs w

/-- Every node that is written fits the capacity field of its header. -/
def FitsWithin (m : Memory) : Nat → Node → Writer → Prop
  | 0, n, _ => n.byteSize ≤ Header.maxCapacity
  | depth + 1, n, w =>
      if n.hasRefs then
        SlotsFit (FitsWithin m depth) (writeWithin m true depth) m (n.toList m) w ∧
          (encodedHeader n.isInner n.head.context
            (writeSlots m true depth (n.toList m) w).1).byteSize ≤ Header.maxCapacity
      else n.byteSize ≤ Header.maxCapacity

def Fits (m : Memory) (n : Node) : Prop := FitsWithin m (depthBound m) n {}

/-- Slots that fit a node at the largest width. -/
def slotLimit : Nat := (Header.maxCapacity - Header.length) / 8

/-- Neither the node nor any node below it is too large, whatever refs it is written with. -/
inductive Moderate (m : Memory) : Ref → Prop
  | node {r : Ref} (bytes : (load m r).byteSize ≤ Header.maxCapacity)
      (slots : (load m r).hasRefs = true → (load m r).size ≤ slotLimit)
      (below : ∀ c ∈ (load m r).children m, Moderate m c) : Moderate m r

theorem Moderate.childless (h : (load m r).hasRefs = false)
    (bytes : (load m r).byteSize ≤ Header.maxCapacity) : Moderate m r :=
  .node bytes (fun parent => absurd (h.symm.trans parent) (by decide))
    (fun c inside => by rw [children_childless h] at inside; cases inside)

theorem length_writeSlots (m : Memory) (deep : Bool) (depth : Nat) (vs : List Int64) (w : Writer) :
    (writeSlots m deep depth vs w).1.length = vs.length := by
  induction vs generalizing w with
  | nil => rw [writeSlots]
  | cons v vs ih =>
      rw [writeSlots]
      split <;> simp only [List.length_cons, ih]

theorem byteSize_encodedHeader {inner context : Bool} {vs : List Int64} (few : vs.length ≤ slotLimit) :
    (encodedHeader inner context vs).byteSize ≤ Header.maxCapacity := by
  have narrow := Width.le_of_legal (Width.ofValues_legal vs)
  exact Nat.le_trans (Header.bytesFor_mono few narrow .bits) (by decide)

theorem mem_children {v : Int64} (parent : n.hasRefs = true) (inside : v ∈ n.toList m)
    (isRef : Slot.isRef v = true) : Slot.toRef v ∈ n.children m := by
  rw [children, if_pos parent]
  exact List.mem_map_of_mem (List.mem_filter.mpr ⟨inside, isRef⟩)

theorem slotsFit_of_each {fits : Node → Writer → Prop} {write : Node → Writer → Ref × Writer}
    {vs : List Int64} (each : ∀ v ∈ vs, Slot.isRef v = true → ∀ w, fits (load m (Slot.toRef v)) w) :
    SlotsFit fits write m vs w := by
  induction vs generalizing w with
  | nil => trivial
  | cons v vs ih =>
      have rest {w : Writer} : SlotsFit fits write m vs w :=
        ih fun v' inside => each v' (List.mem_cons_of_mem v inside)
      rw [SlotsFit]
      split
      next isRef => exact ⟨each v (by simp) isRef w, rest⟩
      next => exact rest

theorem Moderate.fits (h : Moderate m r) (depth : Nat) (w : Writer) :
    FitsWithin m depth (load m r) w := by
  induction depth generalizing r w with
  | zero =>
      obtain ⟨bytes, -, -⟩ := h
      exact bytes
  | succ depth ih =>
      obtain ⟨bytes, slots, below⟩ := h
      rw [FitsWithin]
      split
      next parent =>
        refine ⟨slotsFit_of_each fun v inside isRef w => ?_, byteSize_encodedHeader ?_⟩
        · exact ih (below _ (mem_children parent inside isRef)) w
        · rw [length_writeSlots, length_toList]
          exact slots parent
      next => exact bytes

/-! ### Writing -/

/-- A copy of the node at `r` lies at `p` among the nodes. -/
structure Placed (m : Memory) (w : Writer) (r p : Ref) : Prop where
  low : Image.frameSize ≤ p
  high : p < w.position
  aligned : 8 ∣ p
  copies : ∀ m' base, w.position ≤ base → w.position ≤ Store.addressSpace → w.Within m' →
    Copies m m' base r p

theorem Placed.mono {p : Ref} (placed : Placed m w r p) (grows : w.Grows w') : Placed m w' r p where
  low := placed.low
  high := Nat.lt_of_lt_of_le placed.high grows.position_le
  aligned := placed.aligned
  copies m' base room small within := placed.copies m' base (Nat.le_trans grows.position_le room)
    (Nat.le_trans grows.position_le small) (within.of_grows grows)

/-- What is written for the slot `v`. -/
structure SlotPlaced (m : Memory) (w : Writer) (v v' : Int64) : Prop where
  scalar : Slot.isRef v = false → v' = v
  ref : Slot.isRef v = true → ∃ p, v' = Slot.ofRef p ∧ Placed m w (Slot.toRef v) p

theorem SlotPlaced.mono {v v' : Int64} (placed : SlotPlaced m w v v') (grows : w.Grows w') :
    SlotPlaced m w' v v' where
  scalar := placed.scalar
  ref isRef := by
    obtain ⟨p, same, placed⟩ := placed.ref isRef
    exact ⟨p, same, placed.mono grows⟩

theorem whole_byteSize (n : Node) : 8 ∣ n.byteSize := Header.even_bytesFor ..

theorem position_aligned (aligned : 8 ∣ w.nodes.size) : 8 ∣ w.position :=
  Nat.dvd_add (by decide) aligned

theorem position_positive (w : Writer) : 0 < w.position :=
  Nat.lt_of_lt_of_le (show 0 < Image.frameSize by decide) (Nat.le_add_right _ _)

theorem write_bytes {p : Ref} (childless : (load m r).hasRefs = false)
    (fits : (load m r).byteSize ≤ Header.maxCapacity) (aligned : 8 ∣ w.nodes.size)
    (run : w.append ((load m r).copyBytes m) = (p, w')) : w.Grows w' ∧ Placed m w' r p := by
  have length := (load m r).length_le_byteSize
  obtain ⟨grows, rfl, high, has⟩ := Writer.append_appended
    (by rw [size_copyBytes]; exact whole_byteSize _) run
  rw [size_copyBytes] at high
  have aligned := position_aligned aligned
  have front := Nat.lt_of_lt_of_le (Nat.lt_add_of_pos_right (Nat.lt_of_lt_of_le (by decide) length)) high
  refine ⟨grows, Nat.le_add_right _ _, front, aligned, fun m' base room _ within => ?_⟩
  have head : (load m' w.position).head = _ := header_copyBytes rfl fits (has m' within)
  refine .bytes ⟨aligned, position_positive w, ?_⟩ childless head fun k inside => data_copyBytes (has m' within) inside
  have same : (load m' w.position).byteSize = (load m r).byteSize := by
    rw [byteSize, head]
    rfl
  rw [same]
  exact Nat.le_trans high room

theorem isRef_place {p : Ref} (placed : Placed m w r p) (small : w.position ≤ Store.addressSpace) :
    Slot.isRef (Slot.ofRef p) = true ∧ Slot.toRef (Slot.ofRef p) = p := by
  have bound : p < 2 ^ 64 := Nat.lt_of_lt_of_le placed.high small
  have positive : 0 < p := Nat.lt_of_lt_of_le (by decide) placed.low
  exact ⟨Slot.isRef_ofRef positive (Nat.dvd_trans (by decide) placed.aligned) bound,
    Slot.toRef_ofRef bound⟩

theorem write_slots {p : Ref} {values : List Int64} (parent : (load m r).hasRefs = true)
    (packed : (load m r).head.layout = .bits) (aligned : 8 ∣ w.nodes.size)
    (placed : List.Forall₂ (SlotPlaced m w) ((load m r).toList m) values)
    (fits : (encodedHeader (load m r).isInner (load m r).head.context values).byteSize ≤
      Header.maxCapacity)
    (run : w.append (encode (load m r).isInner (load m r).head.context values) = (p, w')) :
    w.Grows w' ∧ Placed m w' r p := by
  have length : values.length = (load m r).size := by
    rw [← placed.length_eq, length_toList]
  have room := encode_room (load m r).isInner (load m r).head.context values
  obtain ⟨grows, rfl, high, has⟩ := Writer.append_appended
    (by rw [size_encode]; exact Header.even_bytesFor ..) run
  rw [size_encode] at high
  have some := Nat.lt_of_lt_of_le (show 0 < Header.length by decide) (Nat.le_trans (Nat.le_add_right _ _) room)
  have aligned := position_aligned aligned
  have front := Nat.lt_of_lt_of_le (Nat.lt_add_of_pos_right some) high
  refine ⟨grows, Nat.le_add_right _ _, front, aligned, fun m' base end_ small within => ?_⟩
  have few : values.length < 2 ^ 24 := length ▸ m.size_header r
  have head := header_encode few fits (has m' within)
  have list := elements_encode (has m' within)
  -- The elements that were written are read back, whatever width was chosen for them.
  have slot (i : Nat) (inside : i < (load m r).size) :
      SlotPlaced m w ((load m r).get m i) ((load m' w.position).get m' i) := by
    have each := placed.get (i := i) (by simpa using inside) (by omega)
    have same : (load m' w.position).get m' i = values[i] := by
      have : (m'.elements (w.position + Header.length) (Width.ofValues values) values.length)[i]? =
          values[i]? := by rw [list]
      rw [Memory.getElem?_elements, if_pos (by omega), List.getElem?_eq_getElem (by omega)] at this
      rw [← Option.some.inj this, Node.get, Node.width, Node.data, load, head]
      rfl
    rw [same]
    simpa [toList] using each
  have old : w.position ≤ Store.addressSpace := Nat.le_trans grows.position_le small
  have copied : (load m' w.position).head = { (load m r).head with
      width := Width.ofValues values
      capacity := Header.bytesFor (load m r).size (Width.ofValues values) .bits } := by
    show m'.header w.position = _
    rw [head, encodedHeader, length]
    have parent : (load m r).head.hasRefs = true := parent
    rw [← parent, ← packed]
  refine .slots ⟨aligned, position_positive w, ?_⟩ parent packed copied ?_ ?_ ?_
  · rw [byteSize, load, head]
    exact Nat.le_trans high end_
  · exact fun i inside scalar => (slot i inside).scalar scalar
  · intro i inside isRef
    obtain ⟨p, same, placed⟩ := (slot i inside).ref isRef
    obtain ⟨isRef, ref⟩ := isRef_place placed old
    rw [getRef, same, ref]
    exact ⟨isRef, placed.high⟩
  · intro i inside isRef
    obtain ⟨p, same, placed⟩ := (slot i inside).ref isRef
    rw [getRef, getRef, same, (isRef_place placed old).2]
    exact placed.copies m' base (Nat.le_trans grows.position_le end_) old (within.of_grows grows)

/-- What writing a node at this depth achieves. -/
def Writes (m : Memory) (depth : Nat) : Prop :=
  ∀ {r : Ref} {w w' : Writer} {p : Ref}, WellFormed m r → Shallow m depth r →
    FitsWithin m depth (load m r) w → 8 ∣ w.nodes.size →
      writeWithin m true depth (load m r) w = (p, w') → w.Grows w' ∧ Placed m w' r p

theorem writeSlots_placed (writes : Writes m depth) {vs values : List Int64}
    (below : ∀ v ∈ vs, Slot.isRef v = true →
      WellFormed m (Slot.toRef v) ∧ Shallow m depth (Slot.toRef v))
    (fits : SlotsFit (FitsWithin m depth) (writeWithin m true depth) m vs w)
    (aligned : 8 ∣ w.nodes.size) (run : writeSlots m true depth vs w = (values, w')) :
    w.Grows w' ∧ List.Forall₂ (SlotPlaced m w') vs values := by
  induction vs generalizing w values with
  | nil =>
      rw [writeSlots] at run
      obtain ⟨rfl, rfl⟩ := Prod.mk.inj run
      exact ⟨.refl w, .nil⟩
  | cons v vs ih =>
      have rest v' inside := below v' (List.mem_cons_of_mem v inside)
      rw [writeSlots] at run
      rw [SlotsFit] at fits
      cases isRef : Slot.isRef v with
      | true =>
          simp only [isRef, if_true] at run fits
          obtain ⟨formed, shallow⟩ := below v (by simp) isRef
          cases first : writeWithin m true depth (load m (Slot.toRef v)) w with
          | mk p w₁ =>
              rw [first] at run fits
              -- A child that was placed stays where it is while its siblings are written.
              obtain ⟨grows, placed⟩ := writes formed shallow fits.1 aligned first
              cases others : writeSlots m true depth vs w₁ with
              | mk values₁ w₂ =>
                  simp only [others] at run
                  obtain ⟨rfl, rfl⟩ := Prod.mk.inj run
                  obtain ⟨grows', placed'⟩ := ih rest fits.2 (grows.aligned aligned) others
                  refine ⟨grows.trans grows', .cons ⟨?_, fun _ => ⟨p, rfl, placed.mono grows'⟩⟩ placed'⟩
                  exact fun scalar => absurd (isRef.symm.trans scalar) (by decide)
      | false =>
          simp only [isRef, Bool.false_eq_true, if_false] at run fits
          cases others : writeSlots m true depth vs w with
          | mk values₁ w₂ =>
              simp only [others] at run
              obtain ⟨rfl, rfl⟩ := Prod.mk.inj run
              obtain ⟨grows, placed⟩ := ih rest fits aligned others
              refine ⟨grows, .cons ⟨fun _ => rfl, ?_⟩ placed⟩
              exact fun ref => absurd (isRef.symm.trans ref) (by decide)

/-- The induction is on the depth: a node is placed behind the children that were placed before. -/
theorem writes (m : Memory) (depth : Nat) : Writes m depth := by
  induction depth with
  | zero =>
      intro r w w' p _ leaf fits aligned run
      rw [writeWithin] at run
      exact write_bytes (Bool.eq_false_of_not_eq_true leaf) fits aligned run
  | succ depth ih =>
      intro r w w' p formed shallow fits aligned run
      rw [writeWithin] at run
      rw [FitsWithin] at fits
      cases parent : (load m r).hasRefs with
      | false =>
          simp only [parent, Bool.and_false, Bool.false_eq_true, if_false] at run fits
          exact write_bytes parent fits aligned run
      | true =>
          simp only [parent, Bool.and_true, if_true] at run fits
          cases slots : writeSlots m true depth ((load m r).toList m) w with
          | mk values w₁ =>
              rw [slots] at run fits
              -- The slots are written first, so the children lie in front of the node.
              have below (v : Int64) (inside : v ∈ (load m r).toList m) (isRef : Slot.isRef v = true) :
                  WellFormed m (Slot.toRef v) ∧ Shallow m depth (Slot.toRef v) := by
                have child := mem_children parent inside isRef
                exact ⟨formed.child child, shallow parent _ child⟩
              obtain ⟨grows, placed⟩ := writeSlots_placed ih below fits.1 aligned slots
              obtain ⟨grows', placed'⟩ := write_slots parent (formed.layout parent)
                (grows.aligned aligned) placed fits.2 run
              exact ⟨grows.trans grows', placed'⟩

/-! ### The whole image -/

/-- A store that was attached to an image. -/
structure Attached (s : Store) (image : ByteArray) : Prop where
  memory : s.memory = ⟨image⟩
  baseline : s.baseline = image.size
  sound : s.Sound

theorem ofImage_frame {settings : StoreSettings} {p : Ref} (aligned : 8 ∣ w.nodes.size)
    (placed : Placed m w r p) (small : (w.frame p).size ≤ Store.addressSpace) :
    ∃ s, Store.ofImage settings (w.frame p) = .ok (s, p) ∧ Attached s (w.frame p) ∧
      Copies m s.memory s.baseline r p := by
  have low := placed.low
  have high := placed.high
  have size : (w.frame p).size = w.nodes.size + 2 * Image.frameSize := Image.size_frame ..
  have end_ : Image.frameSize + w.nodes.size ≤ (w.frame p).size := by omega
  have inRange : Image.rootInRange p (w.nodes.size + 2 * Image.frameSize) = true := by
    have room : Image.frameSize + w.nodes.size ≤
        w.nodes.size + 2 * Image.frameSize - Image.frameSize := by omega
    simp only [Image.rootInRange, Bool.or_eq_true, Bool.and_eq_true, decide_eq_true_eq]
    exact .inr ⟨⟨low, Nat.lt_of_lt_of_le high room⟩, Nat.mod_eq_zero_of_dvd placed.aligned⟩
  have accepted := Store.ofImage_frame settings aligned
    (Nat.lt_of_lt_of_le high (Nat.le_trans end_ small)) inRange
  refine ⟨_, accepted, ⟨rfl, rfl, Store.sound_ofImage small accepted⟩, ?_⟩
  exact placed.copies _ _ end_ (Nat.le_trans end_ small) fun i inside =>
    Image.get_frame w.nodes p inside

/-- An image of a well-formed node is accepted, and its root is a copy of the node. -/
theorem image_copies (settings : StoreSettings) (formed : WellFormed m r)
    (fits : Fits m (load m r)) (small : ((load m r).image m).1.size ≤ Store.addressSpace) :
    ∃ s, Store.ofImage settings ((load m r).image m).1 = .ok (s, ((load m r).image m).2) ∧
      Attached s ((load m r).image m).1 ∧
      Copies m s.memory s.baseline r ((load m r).image m).2 := by
  cases run : writeWithin m true (depthBound m) (load m r) {} with
  | mk p w =>
      have image : (load m r).image m = (w.frame p, p) := by
        simp only [Node.image, write, run]
      rw [image] at small ⊢
      obtain ⟨grows, placed⟩ := writes m (depthBound m) formed formed.shallow fits (by simp) run
      exact ofImage_frame (grows.aligned (by simp)) placed small

end Node

end ColumnStore
