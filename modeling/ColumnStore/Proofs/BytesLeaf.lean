import ColumnStore.Leaf.Bytes
import ColumnStore.Proofs.Blob
import ColumnStore.Proofs.Copies
import ColumnStore.Proofs.Leaf

set_option autoImplicit false

/-!
Leaves of byte strings. The ends of the values are those of children, so that what an edit does to a
value it does to the ends by moving the later ones.
-/
namespace ColumnStore.BytesLeaf

open Node (packed)
open Branch (start)
open Assertion (any)

variable {s s' : Store} {l l' : BytesLeaf} {vs before after : List ByteArray} {R : Assertion}
  {m : Memory} {base : Nat} {own : Set Nat} {i : Nat} {v : ByteArray} {ss es es' : List Int64}
  {bs bs' : List UInt8}

/-! ### Joined values -/

def joined (vs : List ByteArray) : List UInt8 := vs.flatMap fun v => v.data.toList

def sizes (vs : List ByteArray) : List Nat := vs.map ByteArray.size

/-- Where each value ends; what follows the last one belongs to no value. -/
def stops (vs : List ByteArray) : List Int64 := Branch.ends (sizes vs ++ [0])

@[simp] theorem sizes_append : sizes (before ++ after) = sizes before ++ sizes after :=
  List.map_append

@[simp] theorem sizes_cons : sizes (v :: vs) = v.size :: sizes vs := rfl

@[simp] theorem length_sizes (vs : List ByteArray) : (sizes vs).length = vs.length :=
  List.length_map ..

@[simp] theorem joined_append : joined (before ++ after) = joined before ++ joined after :=
  List.flatMap_append

@[simp] theorem joined_cons : joined (v :: vs) = v.data.toList ++ joined vs := List.flatMap_cons

theorem length_joined (vs : List ByteArray) : (joined vs).length = (sizes vs).sum :=
  List.length_flatMap

@[simp] theorem length_stops (vs : List ByteArray) : (stops vs).length = vs.length := by
  simp [stops]

theorem start_stops (vs : List ByteArray) (i : Nat) : start (sizes vs ++ [0]) i = start (sizes vs) i := by
  rw [Branch.start_append]
  cases i - (sizes vs).length <;> simp

/-- The sizes after some values, the end of them all included. -/
theorem exists_next (vs : List ByteArray) :
    ∃ a rest, sizes vs ++ [0] = a :: rest ∧ rest.length = vs.length := by
  cases vs with
  | nil => exact ⟨0, [], rfl, rfl⟩
  | cons v vs => exact ⟨v.size, sizes vs ++ [0], rfl, by simp⟩

/-- What is left of the bytes when those of one value are taken out. -/
theorem joined_around (before after : List ByteArray) (v : ByteArray) (spare : List UInt8) :
    (joined before).length + v.size ≤ (joined (before ++ v :: after) ++ spare).length ∧
      (joined (before ++ v :: after) ++ spare).take (joined before).length = joined before ∧
      (joined (before ++ v :: after) ++ spare).drop ((joined before).length + v.size) =
        joined after ++ spare := by
  have length : v.data.toList.length = v.size := Array.length_toList
  rw [joined_append, joined_cons, List.append_assoc, List.append_assoc]
  refine ⟨?_, List.take_left, ?_⟩
  · rw [List.length_append, List.length_append, length]
    omega
  · rw [← List.drop_drop, List.drop_left, List.drop_left' length]

theorem stops_insert (before after : List ByteArray) (v : ByteArray) :
    Node.addBetween (before.length + 1) (before.length + 1 + after.length) (Int64.ofNat v.size)
        ((stops (before ++ after)).insertIdx before.length
          (Int64.ofNat ((joined before).length + v.size))) =
      stops (before ++ v :: after) := by
  obtain ⟨a, rest, next, length⟩ := exists_next after
  rw [stops, stops, sizes_append, sizes_append, sizes_cons, List.append_assoc, List.append_assoc,
    List.cons_append, next, ← Branch.ends_insert (Nat.add_comm v.size a), length_sizes, length,
    length_joined]

theorem stops_remove (before after : List ByteArray) (v : ByteArray) :
    Node.addBetween before.length (before.length + after.length) (-Int64.ofNat v.size)
        ((stops (before ++ v :: after)).eraseIdx before.length) =
      stops (before ++ after) := by
  obtain ⟨a, rest, next, length⟩ := exists_next after
  rw [stops, stops, sizes_append, sizes_append, sizes_cons, List.append_assoc, List.append_assoc,
    List.cons_append, next, ← Branch.ends_remove (a := v.size) (b := a), length_sizes, length]

theorem stops_resize {d : Int64} {w : ByteArray} (moved : Int64.ofNat v.size + d = Int64.ofNat w.size)
    (before after : List ByteArray) :
    Node.addBetween before.length (before.length + 1 + after.length) d (stops (before ++ v :: after)) =
      stops (before ++ w :: after) := by
  rw [stops, stops, sizes_append, sizes_append, sizes_cons, sizes_cons, List.append_assoc,
    List.append_assoc, List.cons_append, List.cons_append, ← Branch.ends_resize moved, length_sizes,
    List.length_append, length_sizes, List.length_singleton, Nat.add_right_comm, Nat.add_assoc]

theorem stops_same {w : ByteArray} (same : Int64.ofNat w.size - Int64.ofNat v.size = 0)
    (before after : List ByteArray) : stops (before ++ v :: after) = stops (before ++ w :: after) := by
  have moved : Int64.ofNat v.size + 0 = Int64.ofNat w.size := by grind
  rw [← stops_resize moved, Branch.addBetween_zero]

theorem stops_take (before after : List ByteArray) :
    (stops (before ++ after)).take before.length = stops before := by
  obtain ⟨a, rest, next, -⟩ := exists_next after
  have front := Branch.ends_take (sizes before) rest a 0
  rwa [length_sizes, ← next, ← List.append_assoc, ← sizes_append] at front

theorem exists_split (inside : i ≤ vs.length) : ∃ before after, vs = before ++ after ∧ before.length = i :=
  ⟨vs.take i, vs.drop i, (List.take_append_drop i vs).symm, List.length_take_of_le inside⟩

theorem exists_split_at (inside : i < vs.length) :
    ∃ before v after, vs = before ++ v :: after ∧ before.length = i := by
  obtain ⟨before, after, rfl, rfl⟩ := exists_split (Nat.le_of_lt inside)
  cases after with
  | nil => simp at inside
  | cons v after => exact ⟨before, v, after, rfl, rfl⟩

/-! ### A leaf -/

/-- The three nodes of a leaf. -/
def parts (l : BytesLeaf) (ss es : List Int64) (bs : List UInt8) : Assertion :=
  packed .refs l.top ss * (packed .plain l.ends es * l.blob.holds bs)

def slots (l : BytesLeaf) : List Int64 := [Slot.ofRef l.ends.ref, Slot.ofRef l.blob.node.ref]

/-- The blob holds the values and `spare` behind them. -/
def padded (l : BytesLeaf) (vs : List ByteArray) (spare : List UInt8) : Assertion :=
  parts l l.slots (stops vs) (joined vs ++ spare)

/-- The blob holds the values and may hold more bytes behind them. -/
def holds (l : BytesLeaf) (vs : List ByteArray) : Assertion :=
  any fun spare => parts l l.slots (stops vs) (joined vs ++ spare)

section Read

variable (h : (packed .plain l.ends (stops vs)).holds m base own) (small : (joined vs).length < 2 ^ 64)
include h small

theorem stopOf_of_ends (inside : i < vs.length) : l.stopOf m i = start (sizes vs) (i + 1) := by
  have bound := Branch.start_le_sum (sizes vs) (i + 1)
  rw [← length_joined] at bound
  rw [stopOf, Node.get_of_packed h (by simpa using inside)]
  simp only [stops, Branch.getElem_ends, start_stops]
  exact Slot.toRef_ofRef (Nat.lt_of_le_of_lt bound small)

theorem startOf_of_ends (inside : i ≤ vs.length) : l.startOf m i = start (sizes vs) i := by
  cases i with
  | zero => simp [startOf]
  | succ i => exact stopOf_of_ends h small inside

end Read

theorem start_between (before after : List ByteArray) :
    start (sizes (before ++ after)) before.length = (joined before).length := by
  rw [sizes_append, Branch.start_append, Branch.start_of_length_le _ (by simp), length_joined]
  simp

theorem start_after (before after : List ByteArray) (v : ByteArray) :
    start (sizes (before ++ v :: after)) (before.length + 1) = (joined before).length + v.size := by
  have last := start_between (before ++ [v]) after
  rw [List.append_assoc, List.singleton_append, List.length_append, List.length_singleton] at last
  rw [last, joined_append, List.length_append, joined_cons]
  simp [joined]

section Reads

variable {spare : List UInt8} (h : (parts l ss (stops vs) (joined vs ++ spare)).holds m base own)
include h

theorem small_of_parts : (joined vs ++ spare).length < 2 ^ 24 := by
  obtain ⟨_, _, rfl, -, -, _, _, rfl, -, -, blob⟩ := h
  -- The bytes are counted by the header of the blob.
  rw [← Blob.size_of_holds blob]
  exact blob.2.1.size_lt

theorem stopOf_of_parts (inside : i < vs.length) : l.stopOf m i = start (sizes vs) (i + 1) := by
  have small := small_of_parts h
  rw [List.length_append] at small
  obtain ⟨_, _, rfl, -, -, _, _, rfl, -, node, -⟩ := h
  exact stopOf_of_ends node (by omega) inside

theorem startOf_of_parts (inside : i ≤ vs.length) : l.startOf m i = start (sizes vs) i := by
  have small := small_of_parts h
  rw [List.length_append] at small
  obtain ⟨_, _, rfl, -, -, _, _, rfl, -, node, -⟩ := h
  exact startOf_of_ends node (by omega) inside

theorem size_of_parts : l.size = vs.length := by
  obtain ⟨_, _, rfl, -, -, _, _, rfl, -, node, -⟩ := h
  rw [size, Node.size_of_packed node, length_stops]

theorem get_of_parts (inside : i < vs.length) : l.get m i = vs[i] := by
  rw [get, startOf_of_parts h (Nat.le_of_lt inside), stopOf_of_parts h inside]
  obtain ⟨before, v, after, rfl, rfl⟩ := exists_split_at inside
  obtain ⟨_, _, rfl, -, -, _, _, rfl, -, -, blob⟩ := h
  have length : v.data.toList.length = v.size := Array.length_toList
  obtain ⟨within, -, -⟩ := joined_around before after v spare
  rw [start_between, start_after]
  -- The value starts where the values before it end.
  have slice := Blob.slice_of_holds blob (Nat.le_add_right ..) within
  rw [joined_append, joined_cons, List.append_assoc, List.append_assoc, List.drop_left,
    Nat.add_sub_cancel_left, List.take_left' length] at slice
  rw [List.getElem_append_right (Nat.le_refl _)]
  simp only [Nat.sub_self, List.getElem_cons_zero]
  exact ByteArray.ext (Array.toList_inj.mp slice)

end Reads

/-! ### Edits -/

section Parts

variable (h : s.Holds (parts l ss es bs * R))
include h

/-- An edit of the ends leaves the other nodes as they are. -/
theorem turn_ends {n : Node}
    (edit : ∀ {R}, s.Holds (packed .plain l.ends es * R) → s'.Holds (packed .plain n es' * R)) :
    s'.Holds (parts { l with ends := n } ss es' bs * R) := by
  have first : s.Holds (packed .plain l.ends es * (packed .refs l.top ss * l.blob.holds bs * R)) :=
    h.of_eq (by rw [parts]; ac_rfl)
  exact (edit first).of_eq (by simp only [parts]; ac_rfl)

theorem turn_blob {b : Blob}
    (edit : ∀ {R}, s.Holds (l.blob.holds bs * R) → s'.Holds (b.holds bs' * R)) :
    s'.Holds (parts { l with blob := b } ss es bs' * R) := by
  have first : s.Holds (l.blob.holds bs * (packed .refs l.top ss * packed .plain l.ends es * R)) :=
    h.of_eq (by rw [parts]; ac_rfl)
  exact (edit first).of_eq (by simp only [parts]; ac_rfl)

theorem turn_top {n : Node} {ss' : List Int64}
    (edit : ∀ {R}, s.Holds (packed .refs l.top ss * R) → s'.Holds (packed .refs n ss' * R)) :
    s'.Holds (parts { l with top := n } ss' es bs * R) := by
  rw [parts, mul_assoc] at h
  rw [parts, mul_assoc]
  exact edit h

theorem moveEnds_holds {d : Int64} (run : moveEnds i d (l, s) = (.ok (), (l', s'))) :
    s'.Holds (parts l' ss (Node.addBetween i es.length d es) bs * R) ∧
      l' = { l with ends := l'.ends } := by
  simp only [moveEnds, editEnds, Edit.self_bind, Edit.focus_ok] at run
  obtain ⟨n, move, rfl⟩ := run
  obtain ⟨_, _, _, rfl, -, -, _, _, rfl, -, node, -⟩ := h.reads
  rw [size, Node.size_of_packed node] at move
  exact ⟨turn_ends h fun h => Node.adjustRange_holds h (Nat.le_refl _) move, rfl⟩

end Parts

theorem patchTop_parts {x y : Int64} (h : s.Holds (parts l [x, y] es bs * R))
    (run : patchTop (l, s) = (.ok (), (l', s'))) : s'.Holds (parts l' l'.slots es bs * R) := by
  simp only [patchTop, editTop, Edit.self_bind, Edit.bind_ok, Edit.focus_ok] at run
  obtain ⟨_, ⟨l₁, s₁⟩, ⟨n₁, first, rfl⟩, n₂, second, rfl⟩ := run
  have h := turn_top h fun h => Node.patchSlot_holds h (i := 0) (by simp) first
  exact turn_top h fun h => Node.patchSlot_holds h (i := 1) (by simp) second

section Padded

variable {spare : List UInt8} (h : s.Holds (padded l vs spare * R))
include h

theorem insert_padded (inside : i ≤ vs.length) (few : vs.length + 1 < 2 ^ 24)
    (run : insert i v (l, s) = (.ok (), (l', s'))) :
    s'.Holds (padded l' (vs.insertIdx i v) spare * R) := by
  obtain ⟨_, reads⟩ := h.reads
  have start := startOf_of_parts reads inside
  obtain ⟨before, after, rfl, rfl⟩ := exists_split inside
  rw [start_between] at start
  simp only [insert, editBlob, editEnds, Edit.self_bind, Edit.read_bind, start, Edit.bind_ok,
    Edit.focus_ok] at run
  obtain ⟨_, ⟨l₁, s₁⟩, ⟨b, put, rfl⟩, _, ⟨l₂, s₂⟩, ⟨n, add, rfl⟩, _, ⟨l₃, s₃⟩, move, patch⟩ := run
  -- The bytes go in first; then an end is opened and those behind it are moved.
  have h := turn_blob h fun h => Blob.replace_holds h (Nat.le_refl _)
    (by simp only [joined_append, List.length_append]; omega) put
  have h := turn_ends h fun h => Node.insert_holds h (by simp) (by simpa using few) add
  obtain ⟨h, -⟩ := moveEnds_holds h move
  have ends := stops_insert before after v
  have count : ((stops (before ++ after)).insertIdx before.length
      (Int64.ofNat ((joined before).length + v.size))).length = before.length + 1 + after.length := by
    rw [List.length_insertIdx_of_le_length (by simp), length_stops, List.length_append,
      Nat.add_right_comm]
  rw [count, ends] at h
  have bytes : (joined (before ++ after) ++ spare).take (joined before).length ++ v.data.toList ++
      (joined (before ++ after) ++ spare).drop (joined before).length =
        joined (before ++ v :: after) ++ spare := by
    simp [List.append_assoc]
  rw [bytes] at h
  rw [Branch.insertIdx_mid]
  exact patchTop_parts h patch

theorem set_padded (inside : i < vs.length) (run : set i v (l, s) = (.ok (), (l', s'))) :
    s'.Holds (padded l' (vs.set i v) spare * R) := by
  obtain ⟨_, reads⟩ := h.reads
  have start := startOf_of_parts reads (Nat.le_of_lt inside)
  have stop := stopOf_of_parts reads inside
  obtain ⟨before, u, after, rfl, rfl⟩ := exists_split_at inside
  rw [start_between] at start
  rw [start_after] at stop
  simp only [set, editBlob, Edit.self_bind, Edit.read_bind, start, stop, Nat.add_sub_cancel_left] at run
  obtain ⟨_, ⟨l₁, s₁⟩, put, run⟩ := Edit.bind_ok.mp run
  obtain ⟨b, put, rfl⟩ := Edit.focus_ok.mp put
  obtain ⟨within, front, back⟩ := joined_around before after u spare
  have h := turn_blob h fun h => Blob.replace_holds h (Nat.le_add_right ..) within put
  rw [front, back, ← List.append_assoc, List.append_assoc (joined before), ← joined_cons,
    ← joined_append] at h
  rw [List.set_append_right _ _ (Nat.le_refl _), Nat.sub_self, List.set_cons_zero]
  -- A value of the same size leaves the ends as they are.
  by_cases same : Int64.ofNat v.size - Int64.ofNat u.size = 0
  · rw [if_neg (not_not_intro same)] at run
    rw [stops_same same] at h
    exact patchTop_parts h run
  · have moved : Int64.ofNat u.size + (Int64.ofNat v.size - Int64.ofNat u.size) = Int64.ofNat v.size := by
      grind
    rw [if_pos same] at run
    obtain ⟨_, ⟨l₂, s₂⟩, move, patch⟩ := Edit.bind_ok.mp run
    obtain ⟨h, -⟩ := moveEnds_holds h move
    have count : (stops (before ++ u :: after)).length = before.length + 1 + after.length := by
      rw [length_stops, List.length_append, List.length_cons]
      omega
    rw [count, stops_resize moved] at h
    exact patchTop_parts h patch

theorem erase_padded (inside : i < vs.length) (run : erase i (l, s) = (.ok (), (l', s'))) :
    s'.Holds (padded l' (vs.eraseIdx i) spare * R) := by
  obtain ⟨_, reads⟩ := h.reads
  have start := startOf_of_parts reads (Nat.le_of_lt inside)
  have stop := stopOf_of_parts reads inside
  obtain ⟨before, v, after, rfl, rfl⟩ := exists_split_at inside
  rw [start_between] at start
  rw [start_after] at stop
  simp only [erase, editBlob, editEnds, Edit.self_bind, Edit.read_bind, start, stop,
    Nat.add_sub_cancel_left, Edit.bind_ok, Edit.focus_ok] at run
  obtain ⟨_, ⟨l₁, s₁⟩, ⟨b, cut, rfl⟩, _, ⟨l₂, s₂⟩, ⟨n, drop, rfl⟩, _, ⟨l₃, s₃⟩, move, patch⟩ := run
  obtain ⟨within, front, back⟩ := joined_around before after v spare
  have h := turn_blob h fun h => Blob.replace_holds h (Nat.le_add_right ..) within cut
  have h := turn_ends h fun h => Node.erase_holds h (by simp) drop
  obtain ⟨h, -⟩ := moveEnds_holds h move
  -- The end of the erased value is gone before the others are moved.
  have count : ((stops (before ++ v :: after)).eraseIdx before.length).length =
      before.length + after.length := by
    rw [List.length_eraseIdx_of_lt (by simp), length_stops, List.length_append, List.length_cons]
    rfl
  have empty : ByteArray.empty.data.toList = [] := rfl
  rw [count, stops_remove, front, back, empty, List.append_nil, ← List.append_assoc, ← joined_append] at h
  rw [List.eraseIdx_append_of_length_le (Nat.le_refl _), Nat.sub_self, List.eraseIdx_cons_zero]
  exact patchTop_parts h patch

/-- Truncation leaves no spare bytes. -/
theorem truncate_padded {size : Nat} (inside : size ≤ vs.length)
    (run : truncate size (l, s) = (.ok (), (l', s'))) :
    s'.Holds (padded l' (vs.take size) [] * R) := by
  obtain ⟨_, reads⟩ := h.reads
  have start := startOf_of_parts reads inside
  obtain ⟨before, after, rfl, rfl⟩ := exists_split inside
  rw [start_between] at start
  simp only [truncate, editBlob, editEnds, Edit.self_bind, Edit.read_bind, start, Edit.bind_ok,
    Edit.focus_ok] at run
  obtain ⟨_, ⟨l₁, s₁⟩, ⟨n, fewer, rfl⟩, _, ⟨l₂, s₂⟩, ⟨b, cut, rfl⟩, patch⟩ := run
  have h := turn_ends h fun h => Node.truncate_holds h (by simp) fewer
  have h := turn_blob h fun h => Blob.truncate_holds h (by simp) cut
  rw [stops_take, joined_append, List.append_assoc, List.take_left] at h
  rw [List.take_left]
  rw [← List.append_nil (joined before)] at h
  exact patchTop_parts h patch

end Padded

section Edits

variable (h : s.Holds (holds l vs * R))
include h

theorem insert_holds (inside : i ≤ vs.length) (few : vs.length + 1 < 2 ^ 24)
    (run : insert i v (l, s) = (.ok (), (l', s'))) :
    s'.Holds (holds l' (vs.insertIdx i v) * R) := by
  obtain ⟨spare, h⟩ := Store.holds_any_mul.mp h
  exact Store.holds_any_mul.mpr ⟨spare, insert_padded h inside few run⟩

theorem set_holds (inside : i < vs.length) (run : set i v (l, s) = (.ok (), (l', s'))) :
    s'.Holds (holds l' (vs.set i v) * R) := by
  obtain ⟨spare, h⟩ := Store.holds_any_mul.mp h
  exact Store.holds_any_mul.mpr ⟨spare, set_padded h inside run⟩

theorem erase_holds (inside : i < vs.length) (run : erase i (l, s) = (.ok (), (l', s'))) :
    s'.Holds (holds l' (vs.eraseIdx i) * R) := by
  obtain ⟨spare, h⟩ := Store.holds_any_mul.mp h
  exact Store.holds_any_mul.mpr ⟨spare, erase_padded h inside run⟩

theorem truncate_holds {size : Nat} (inside : size ≤ vs.length)
    (run : truncate size (l, s) = (.ok (), (l', s'))) : s'.Holds (holds l' (vs.take size) * R) := by
  obtain ⟨spare, h⟩ := Store.holds_any_mul.mp h
  exact Store.holds_any_mul.mpr ⟨[], truncate_padded h inside run⟩

end Edits

theorem create_padded (h : s.Holds R) (run : create s = (.ok l, s')) :
    s'.Holds (padded l [] [] * R) := by
  simp only [create, StoreM.bind_ok, StoreM.pure_ok] at run
  obtain ⟨top, s₁, first, ends, s₂, second, blob, s₃, third, ⟨_, top'⟩, s₄, fill, rfl, rfl⟩ := run
  have h := Node.createPacked_holds h first
  have h := Node.createPacked_holds h second
  have h := Blob.create_holds h third
  simp only [Edit.on_ok, Edit.bind_ok] at fill
  obtain ⟨_, ⟨n, s₅⟩, add, add'⟩ := fill
  have h : s₃.Holds (packed .refs top [] * (packed .plain ends [] * (blob.holds [] * R))) :=
    h.of_eq (by ac_rfl)
  have h := Node.add_holds h (by decide) add
  have h := Node.add_holds h (Nat.lt_of_le_of_lt (Nat.le_refl 2) (by decide)) add'
  exact h.of_eq (by simp only [padded, parts, mul_assoc]; rfl)

theorem create_holds (h : s.Holds R) (run : create s = (.ok l, s')) : s'.Holds (holds l [] * R) :=
  Store.holds_any_mul.mpr ⟨[], create_padded h run⟩

theorem refs_of_parts (h : (parts l ss es bs).holds m base own) :
    ∀ r ∈ [l.ends.ref, l.blob.node.ref],
      Slot.isRef (Slot.ofRef r) = true ∧ r < Store.addressSpace := by
  obtain ⟨_, _, rfl, -, -, _, _, rfl, -, ends, blob⟩ := h
  intro r inside
  rw [List.mem_pair] at inside
  rcases inside with rfl | rfl
  · exact ⟨ends.2.1.isRef, ends.2.1.bound⟩
  · exact ⟨blob.2.1.isRef, blob.2.1.bound⟩

theorem owning (l : BytesLeaf) (vs : List ByteArray) : Node.Owning (holds l vs) l.top.ref := by
  rintro depth m base own ⟨spare, h⟩
  have kids : ∀ k ∈ [(l.ends.ref, packed .plain l.ends (stops vs)),
      (l.blob.node.ref, l.blob.holds (joined vs ++ spare))], Node.Owning k.2 k.1 := by
    intro k inside
    rw [List.mem_pair] at inside
    rcases inside with rfl | rfl
    · exact Node.owning_plain l.ends _
    · exact Node.owning_octets .raw 1 l.blob.node _
  have whole : Node.Owning (packed .refs l.top l.slots * _) l.top.ref :=
    Node.owning_packed kids fun _ => Node.childRefs_ofRef (refs_of_parts h)
  refine whole depth m base own ?_
  simpa [parts] using h

theorem load_of_parts (h : (parts l l.slots es bs).holds m base own) : load m l.top.ref = l := by
  obtain ⟨_, _, rfl, -, top, _, _, rfl, -, ends, blob⟩ := h
  have first : l.top.getRef m 0 = l.ends.ref := by
    rw [Node.getRef, Node.get_of_packed top (Nat.succ_pos 1)]
    exact Slot.toRef_ofRef ends.2.1.bound
  have second : l.top.getRef m 1 = l.blob.node.ref := by
    rw [Node.getRef, Node.get_of_packed top (Nat.lt_succ_self 1)]
    exact Slot.toRef_ofRef blob.2.1.bound
  have blob : Blob.load m l.blob.node.ref = l.blob := congrArg Blob.mk blob.2.1.load
  rw [load, top.2.1.load, first, second, ends.2.1.load, blob]

theorem load_of_holds (h : (holds l vs).holds m base own) : load m l.top.ref = l := by
  obtain ⟨_, h⟩ := h
  exact load_of_parts h

instance : ListLeaf BytesLeaf where
  holds := holds
  load := load_of_holds
  size h := by
    obtain ⟨_, h⟩ := h
    exact size_of_parts h
  small h := by
    obtain ⟨_, _, _, rfl, -, -, _, _, rfl, -, ends, -⟩ := h
    have := ends.2.1.size_lt
    rwa [Node.size_of_packed ends, length_stops] at this
  get h inside := by
    obtain ⟨_, h⟩ := h
    exact get_of_parts h inside
  outer h := by
    obtain ⟨_, _, _, rfl, -, top, -⟩ := h
    exact Node.isInner_of_packed top
  isRef h := by
    obtain ⟨_, _, _, rfl, -, top, -⟩ := h
    exact top.2.1.isRef
  bound h := by
    obtain ⟨_, _, _, rfl, -, top, -⟩ := h
    exact top.2.1.bound

instance : LawfulLeaf BytesLeaf where
  owning := owning
  create := create_holds
  set h inside run := set_holds h inside run
  insert h inside small run := insert_holds h inside small run
  erase h inside run := erase_holds h inside run
  truncate h inside run := truncate_holds h inside run
  destroy h run := by
    obtain ⟨_, reads⟩ := h.reads
    obtain ⟨_, _, _, rfl, -, top, -⟩ := reads
    exact Node.destroyDeep_holds (owning _ _) top.2.1.load h run

theorem padded_copy {m' : Memory} {base' : Nat} {r' : Ref} {spare : List UInt8}
    (small : base' ≤ Store.addressSpace) (h : (padded l vs spare).holds m base own)
    (copy : Node.Copies m m' base' l.top.ref r') :
    ∃ l' : BytesLeaf, l'.top.ref = r' ∧ (padded l' vs spare).holds m' base' ∅ := by
  have places := refs_of_parts h
  obtain ⟨_, _, rfl, -, top, _, _, rfl, -, ends, blob⟩ := h
  obtain ⟨ss, slots, top⟩ := Node.packed_copy_slots small (by decide) top copy
  obtain ⟨refs, rest, rfl, copies, nothing⟩ := Node.copies_refs places slots
  cases nothing
  -- The two children of the top node are the ends and the blob.
  match copies with
  | .cons (b := e) first (.cons (b := b) second .nil) =>
      refine ⟨⟨.load m' r', .load m' e, .load m' b⟩, rfl, ∅, ∅, by simp, by simp, top, ∅, ∅,
        by simp, by simp, Node.packed_copy small ends first, Node.octets_copy small (by decide) blob second⟩

theorem holds_copy {m' : Memory} {base' : Nat} {r' : Ref} (small : base' ≤ Store.addressSpace)
    (h : (holds l vs).holds m base own) (copy : Node.Copies m m' base' l.top.ref r') :
    ∃ l' : BytesLeaf, l'.top.ref = r' ∧ (holds l' vs).holds m' base' ∅ := by
  obtain ⟨spare, h⟩ := h
  obtain ⟨l', place, h⟩ := padded_copy small h copy
  exact ⟨l', place, spare, h⟩

instance : PortableLeaf BytesLeaf where
  alike _ _ _ := Eq
  copy {_ vs _ _ _ _ _ _} small h copy := by
    obtain ⟨l', place, leaf⟩ := holds_copy small h copy
    exact ⟨l', vs, place, by rw [List.forall₂_eq_eq_eq], leaf⟩

end ColumnStore.BytesLeaf
