import ColumnStore.Node.Image
import ColumnStore.Proofs.Frame
import ColumnStore.Proofs.Packed
import Mathlib.Data.List.Forall2

set_option autoImplicit false

/-!
What a written node is read as: the same header with a capacity of just its bytes, and the elements
that were written.
-/
namespace ColumnStore

/-- The bytes lie in memory from `p` on. -/
def Memory.Has (m : Memory) (p : Nat) (bytes : ByteArray) : Prop :=
  ∀ i, i < bytes.size → m.get (p + i) = get ⟨bytes⟩ i

/-- The smallest width that represents all values. -/
def Width.ofValues (vs : List Int64) : Nat := (vs.map Width.ofValue).foldl max 0

namespace Width

theorem ofValues_legal (vs : List Int64) : ofValues vs ∈ legal := raise_legal (by decide) vs

theorem fits_ofValues {vs : List Int64} {v : Int64} (inside : v ∈ vs) :
    fits (ofValues vs) v = true := fits_raise (by decide) inside

end Width

namespace Node

variable {m m' : Memory} {n : Node} {p : Nat}

/-! ### A node as it is -/

@[simp] theorem size_copyBytes (m : Memory) (n : Node) : (n.copyBytes m).size = n.byteSize :=
  Memory.size_read ..

theorem lt_of_le_maxCapacity {c : Nat} (small : c ≤ Header.maxCapacity) : c < 2 ^ 24 :=
  Nat.lt_of_le_of_lt small (by decide)

theorem header_copyBytes (loaded : m.header n.ref = n.head) (small : n.byteSize ≤ Header.maxCapacity)
    (has : m'.Has p (n.copyBytes m)) : m'.header p = { n.head with capacity := n.byteSize } := by
  have whole := n.length_le_byteSize
  -- Cut out of the memory the node is at 0 and keeps its header; then the capacity is set.
  have copied : Memory.header ⟨m.read n.ref n.byteSize⟩ 0 = n.head := by
    rw [← loaded]
    apply Memory.header_congr
    intro i inside
    rw [Memory.get_read, if_pos (by omega), Nat.zero_add]
  have written : Memory.header ⟨n.copyBytes m⟩ 0 = { n.head with capacity := n.byteSize } := by
    have legal : n.head.width ∈ Width.legal := by
      rw [← loaded]
      exact m.width_header n.ref
    have size : n.head.size < 2 ^ 24 := by
      rw [← loaded]
      exact m.size_header n.ref
    rw [← copied, ← Memory.header_setHeader ⟨m.read n.ref n.byteSize⟩ 0
      { Memory.header ⟨m.read n.ref n.byteSize⟩ 0 with capacity := n.byteSize } (copied ▸ legal)
      (copied ▸ size) (lt_of_le_maxCapacity small)]
    apply Memory.header_congr
    intro i inside
    rw [copyBytes, Memory.get_read, if_pos (by omega), Nat.zero_add]
  rw [← written]
  apply Memory.header_congr
  intro i inside
  rw [has i (by rw [size_copyBytes]; omega), Nat.zero_add]

theorem data_copyBytes (has : m'.Has p (n.copyBytes m)) {k : Nat}
    (inside : Header.length + k < n.byteSize) :
    m'.get (p + Header.length + k) = m.get (n.data + k) := by
  rw [Nat.add_assoc, has _ (by rwa [size_copyBytes]), copyBytes, Memory.get_read, if_pos inside,
    Nat.zero_add, Memory.get_setHeader _ (by simp [Header.length]), Memory.get_read, if_pos inside,
    data, Nat.add_assoc]

/-! ### A node at the smallest width -/

theorem fill_correct {w : Nat} (legal : w ∈ Width.legal) {vs : List Int64}
    (fits : ∀ v ∈ vs, Width.fits w v = true) (m : Memory) (i : Nat) :
    Memory.SameBits m (fill m p w i vs) (8 * p + i * w) (vs.length * w) ∧
      ∀ (k : Nat) (inside : k < vs.length), (fill m p w i vs).element p w (i + k) = vs[k] := by
  induction vs generalizing m i with
  | nil => exact ⟨Memory.SameBits.refl _ _ _, fun k inside => nomatch inside⟩
  | cons v vs ih =>
      -- The elements behind the first leave it alone.
      have written := Memory.sameBits_setElement m p w i v legal
      obtain ⟨outside, kept⟩ :=
        ih (fun v' inside => fits v' (by simp [inside])) (m.setElement p w i v) (i + 1)
      rw [Nat.succ_mul i w] at outside
      rw [fill]
      have length : (vs.length + 1) * w = vs.length * w + w := Nat.succ_mul vs.length w
      refine ⟨(written.mono (by omega) (by simp; omega)).trans
        (outside.mono (by omega) (by simp; omega)), ?_⟩
      intro k inside
      cases k with
      | zero =>
          rw [outside.element legal (by rw [Nat.add_zero]; omega)]
          exact Memory.element_setElement_same m legal (fits v (by simp))
      | succ k =>
          rw [show i + (k + 1) = i + 1 + k by omega]
          exact kept k (Nat.lt_of_succ_lt_succ inside)

variable {inner context : Bool} {vs : List Int64}

/-- The header of a node with children that holds `vs`. -/
def encodedHeader (inner context : Bool) (vs : List Int64) : Header where
  inner := inner
  hasRefs := true
  context := context
  layout := .bits
  width := Width.ofValues vs
  size := vs.length
  capacity := Header.bytesFor vs.length (Width.ofValues vs) .bits

@[simp] theorem size_encode (inner context : Bool) (vs : List Int64) :
    (encode inner context vs).size = (encodedHeader inner context vs).byteSize :=
  Memory.size_read ..

theorem get_encode (inner context : Bool) (vs : List Int64) {i : Nat}
    (inside : i < (encodedHeader inner context vs).byteSize) :
    Memory.get ⟨encode inner context vs⟩ i =
      (fill (Memory.empty.setHeader 0 (encodedHeader inner context vs)) Header.length
        (Width.ofValues vs) 0 vs).get i := by
  refine (Memory.get_read _ _ _ _).trans ?_
  rw [Nat.zero_add]
  exact if_pos inside

theorem encode_room (inner context : Bool) (vs : List Int64) :
    Header.length + (vs.length * Width.ofValues vs + 7) / 8 ≤
      (encodedHeader inner context vs).byteSize :=
  Header.length_le_bytesFor vs.length (Width.ofValues vs) .bits

theorem header_encode (length : vs.length < 2 ^ 24)
    (small : (encodedHeader inner context vs).byteSize ≤ Header.maxCapacity)
    (has : m'.Has p (encode inner context vs)) : m'.header p = encodedHeader inner context vs := by
  have room := encode_room inner context vs
  rw [← Memory.header_setHeader .empty 0 (encodedHeader inner context vs) (Width.ofValues_legal vs)
    length (lt_of_le_maxCapacity small)]
  apply Memory.header_congr
  intro i front
  -- The elements are written behind the header.
  obtain ⟨filled, -⟩ := fill_correct (Width.ofValues_legal vs) (fun v => Width.fits_ofValues)
    (Memory.empty.setHeader 0 (encodedHeader inner context vs)) (p := Header.length) 0
  rw [has i (by rw [size_encode]; omega), get_encode _ _ _ (by omega), Nat.zero_add]
  apply Memory.get_eq_of_bits
  intro j place
  exact filled _ (by omega)

theorem elements_encode (has : m'.Has p (encode inner context vs)) :
    m'.elements (p + Header.length) (Width.ofValues vs) vs.length = vs := by
  have room := encode_room inner context vs
  have legal := Width.ofValues_legal vs
  obtain ⟨-, filled⟩ := fill_correct legal (fun v => Width.fits_ofValues)
    (Memory.empty.setHeader 0 (encodedHeader inner context vs)) (p := Header.length) 0
  have same : m'.elements (p + Header.length) (Width.ofValues vs) vs.length =
      (fill (Memory.empty.setHeader 0 (encodedHeader inner context vs)) Header.length
        (Width.ofValues vs) 0 vs).elements Header.length (Width.ofValues vs) vs.length := by
    apply Memory.elements_congr legal
      (show vs.length * Width.ofValues vs ≤ 8 * ((vs.length * Width.ofValues vs + 7) / 8) by omega)
    intro k inside
    rw [Nat.add_assoc, has _ (by rw [size_encode]; omega), get_encode _ _ _ (by omega)]
  rw [same]
  apply Memory.elements_eq rfl
  intro i inside
  have := filled i inside
  rw [Nat.zero_add] at this
  rw [List.getElem?_eq_getElem inside, this]

end Node

end ColumnStore
