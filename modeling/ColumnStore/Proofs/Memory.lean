import ColumnStore.Node.Header
import Mathlib.Algebra.GroupWithZero.Nat

set_option autoImplicit false

/-!
What is read after bytes were copied, moved or written as part of a header.
-/
namespace ColumnStore.Memory

theorem get_eq_getD (m : Memory) (i : Nat) : m.get i = m.bytes.data[i]?.getD 0 := by
  rw [get]
  by_cases inside : i < m.bytes.size
  · have inside' : i < m.bytes.data.size := inside
    rw [dif_pos inside, Array.getElem?_eq_getElem inside']
    rfl
  · have outside : m.bytes.data.size ≤ i := Nat.le_of_not_lt inside
    rw [dif_neg inside, Array.getElem?_eq_none outside]
    rfl

@[simp] theorem size_read (m : Memory) (start n : Nat) : (m.read start n).size = n := by
  simp [read, ByteArray.size_extract]
  omega

theorem get_extract (bytes : ByteArray) (start stop i : Nat) :
    get ⟨bytes.extract start stop⟩ i = if start + i < stop then get ⟨bytes⟩ (start + i) else 0 := by
  rw [get_eq_getD, get_eq_getD]
  by_cases inside : start + i < stop
  · rw [if_pos inside]
    by_cases backed : start + i < bytes.size
    · have : i < min stop bytes.size - start := by omega
      have backed' : start + i < bytes.data.size := backed
      simp [ByteArray.data_extract, this, Array.getElem?_eq_getElem backed']
    · have : ¬ i < min stop bytes.size - start := by omega
      have beyond : bytes.data[start + i]? = none :=
        Array.getElem?_eq_none (Nat.le_of_not_lt backed)
      simp [ByteArray.data_extract, this, beyond]
  · have : ¬ i < min stop bytes.size - start := by omega
    simp [ByteArray.data_extract, this, inside]

theorem get_read (m : Memory) (start n i : Nat) :
    get ⟨m.read start n⟩ i = if i < n then m.get (start + i) else 0 := by
  rw [read, get_pushZeros, get_extract]
  by_cases inside : i < n <;> simp [inside]

theorem get_write (m : Memory) (start : Nat) (data : ByteArray) (i : Nat) :
    (m.write start data).get i =
      if start ≤ i ∧ i < start + data.size then get ⟨data⟩ (i - start) else m.get i := by
  rw [← get_reserve m (start + data.size) i, write]
  have room : start + data.size ≤ (m.reserve (start + data.size)).bytes.size := by
    rw [size_reserve]
    omega
  generalize m.reserve (start + data.size) = m' at room ⊢
  rw [get_eq_getD, get_eq_getD, get_eq_getD]
  have whole : data.data.extract 0 (0 + data.size) = data.data := by
    simp [← ByteArray.size_data]
  have front : (m'.bytes.data.extract 0 start).size = start := by
    simp
    omega
  simp only [ByteArray.copySlice, whole, Array.getElem?_append, Array.size_append, front,
    ByteArray.size_data, Nat.sub_zero, Nat.min_self, Array.getElem?_extract]
  by_cases before : i < start
  · have : i < start + data.size := by omega
    have : ¬ start ≤ i := by omega
    have : i < min start m'.bytes.size := by omega
    simp [*]
  · by_cases inside : i < start + data.size
    · have : start ≤ i := by omega
      simp [*]
    · have : start + data.size + (i - (start + data.size)) = i := by omega
      by_cases backed : i < m'.bytes.size
      · have : i - (start + data.size) < m'.bytes.size - (start + data.size) := by omega
        simp [*]
      · have : ¬ i - (start + data.size) < m'.bytes.size - (start + data.size) := by omega
        have : m'.bytes.data[i]? = none := Array.getElem?_eq_none (Nat.le_of_not_lt backed)
        simp [*]

theorem get_move (m : Memory) (source target n i : Nat) :
    (m.move source target n).get i =
      if target ≤ i ∧ i < target + n then m.get (source + (i - target)) else m.get i := by
  rw [move, get_write, size_read, get_read]
  by_cases inside : target ≤ i ∧ i < target + n
  · have : i - target < n := by omega
    rw [if_pos inside, if_pos inside, if_pos this]
  · rw [if_neg inside, if_neg inside]

/-! ### Headers -/

theorem get_write24 (m : Memory) (p v i : Nat) :
    (m.write24 p v).get i =
      if i = p then UInt8.ofNat (v / 65536)
      else if i = p + 1 then UInt8.ofNat (v / 256)
      else if i = p + 2 then UInt8.ofNat v
      else m.get i := by
  rw [write24]
  by_cases third : i = p + 2
  · have : p + 2 ≠ p := by omega
    have : p + 2 ≠ p + 1 := by omega
    subst third
    simp [*]
  rw [get_set_ne _ _ _ _ third]
  by_cases second : i = p + 1
  · subst second
    simp
  rw [get_set_ne _ _ _ _ second]
  by_cases first : i = p
  · subst first
    simp
  · rw [get_set_ne _ _ _ _ first, if_neg first, if_neg second, if_neg third]

theorem read24_congr {m m' : Memory} {p p' : Nat}
    (same : ∀ i, i < 3 → m.get (p + i) = m'.get (p' + i)) : m.read24 p = m'.read24 p' := by
  have first : m.get p = m'.get p' := same 0 (by omega)
  rw [read24, read24, first, same 1 (by omega), same 2 (by omega)]

theorem read24_lt (m : Memory) (p : Nat) : m.read24 p < 2 ^ 24 := by
  have := (m.get p).toNat_lt
  have := (m.get (p + 1)).toNat_lt
  have := (m.get (p + 2)).toNat_lt
  rw [read24]
  omega

theorem read24_write24 (m : Memory) (p v : Nat) : (m.write24 p v).read24 p = v % 2 ^ 24 := by
  have : p + 2 ≠ p := by omega
  have : p + 2 ≠ p + 1 := by omega
  simp [read24, get_write24, *]
  omega

theorem header_congr {m m' : Memory} {p p' : Nat}
    (same : ∀ i, i < Header.length → m.get (p + i) = m'.get (p' + i)) :
    m.header p = m'.header p' := by
  rw [Header.length] at same
  have capacity : m.read24 p = m'.read24 p' := read24_congr fun i inside => same i (by omega)
  have size : m.read24 (p + 5) = m'.read24 (p' + 5) := by
    apply read24_congr
    intro i inside
    rw [Nat.add_assoc, Nat.add_assoc]
    exact same (5 + i) (by omega)
  rw [header, header, same 4 (by omega), capacity, size]

theorem width_header (m : Memory) (p : Nat) : (m.header p).width ∈ Width.legal := by
  have codes : ∀ c, c < 8 → Width.ofCode c ∈ Width.legal := by decide
  apply codes
  rw [UInt8.toNat_and]
  exact Nat.and_lt_two_pow (n := 3) _ (by decide)

theorem size_header (m : Memory) (p : Nat) : (m.header p).size < 2 ^ 24 := read24_lt m (p + 5)

theorem capacity_header (m : Memory) (p : Nat) : (m.header p).capacity < 2 ^ 24 := read24_lt m p

theorem get_setHeaderSize (m : Memory) {p size i : Nat} (outside : i < p + 5 ∨ p + 8 ≤ i) :
    (m.setHeaderSize p size).get i = m.get i := by
  rw [setHeaderSize, get_write24, if_neg (by omega), if_neg (by omega), if_neg (by omega)]

theorem get_setHeaderCapacity (m : Memory) {p capacity i : Nat} (outside : i < p ∨ p + 3 ≤ i) :
    (m.setHeaderCapacity p capacity).get i = m.get i := by
  rw [setHeaderCapacity, get_write24, if_neg (by omega), if_neg (by omega), if_neg (by omega)]

theorem get_setHeaderWidth (m : Memory) {p width i : Nat} (outside : i ≠ p + 4) :
    (m.setHeaderWidth p width).get i = m.get i :=
  get_set_ne _ _ _ _ outside

theorem get_setHeaderContext (m : Memory) {p i : Nat} {value : Bool} (outside : i ≠ p + 4) :
    (m.setHeaderContext p value).get i = m.get i :=
  get_set_ne _ _ _ _ outside

theorem header_setHeaderSize (m : Memory) (p size : Nat) :
    (m.setHeaderSize p size).header p = { m.header p with size := size % 2 ^ 24 } := by
  have flags : (m.write24 (p + 5) size).get (p + 4) = m.get (p + 4) := by
    simp [get_write24]
  have capacity : (m.write24 (p + 5) size).read24 p = m.read24 p := by
    apply read24_congr
    intro i inside
    rw [get_write24, if_neg (by omega), if_neg (by omega), if_neg (by omega)]
  rw [setHeaderSize, header, header, flags, capacity, read24_write24]
  rfl

theorem header_setHeaderCapacity (m : Memory) (p capacity : Nat) :
    (m.setHeaderCapacity p capacity).header p =
      { m.header p with capacity := capacity % 2 ^ 24 } := by
  have flags : (m.write24 p capacity).get (p + 4) = m.get (p + 4) := by
    simp [get_write24]
  have size : (m.write24 p capacity).read24 (p + 5) = m.read24 (p + 5) := by
    apply read24_congr
    intro i inside
    rw [get_write24, if_neg (by omega), if_neg (by omega), if_neg (by omega)]
  rw [setHeaderCapacity, header, header, flags, size, read24_write24]
  rfl

theorem header_set_flags (m : Memory) (p : Nat) (f : UInt8) :
    (m.set (p + 4) f).header p = .ofFlags f (m.read24 (p + 5)) (m.read24 p) := by
  have size : (m.set (p + 4) f).read24 (p + 5) = m.read24 (p + 5) := by
    apply read24_congr
    intro i inside
    exact get_set_ne _ _ _ _ (by omega)
  have capacity : (m.set (p + 4) f).read24 p = m.read24 p := by
    apply read24_congr
    intro i inside
    exact get_set_ne _ _ _ _ (by omega)
  rw [header, get_set_eq, size, capacity]

/-- The flags are independent of each other: a byte with its three fields replaced. -/
theorem flags_fields : ∀ n, n < 256 → ∀ c, c < 8 →
    let f : UInt8 := UInt8.ofNat n
    let g : UInt8 := f &&& 0xF8 ||| UInt8.ofNat c
    (g &&& 0x80 = f &&& 0x80) ∧ (g &&& 0x40 = f &&& 0x40) ∧ (g &&& 0x20 = f &&& 0x20) ∧
      (((g >>> 3) &&& 3).toNat = ((f >>> 3) &&& 3).toNat) ∧ (g &&& 7).toNat = c := by
  decide +kernel

theorem flags_context : ∀ n, n < 256 → ∀ value : Bool,
    let f : UInt8 := UInt8.ofNat n
    let g : UInt8 := if value then f ||| 0x20 else f &&& 0xDF
    (g &&& 0x80 = f &&& 0x80) ∧ (g &&& 0x40 = f &&& 0x40) ∧ (decide (g &&& 0x20 ≠ 0) = value) ∧
      (((g >>> 3) &&& 3).toNat = ((f >>> 3) &&& 3).toNat) ∧ (g &&& 7 = f &&& 7) := by
  decide +kernel

theorem header_setHeaderWidth (m : Memory) (p width : Nat) (legal : width ∈ Width.legal) :
    (m.setHeaderWidth p width).header p = { m.header p with width } := by
  have code : Width.code width < 8 := by
    have : ∀ w ∈ Width.legal, Width.code w < 8 := by decide +kernel
    exact this _ legal
  obtain ⟨inner, refs, context, layout, value⟩ :=
    flags_fields (m.get (p + 4)).toNat (m.get (p + 4)).toNat_lt _ code
  rw [UInt8.ofNat_toNat] at inner refs context layout value
  rw [setHeaderWidth, header_set_flags, header]
  simp only [Header.ofFlags, inner, refs, context, layout, value, Width.ofCode_code _ legal]

theorem header_setHeaderContext (m : Memory) (p : Nat) (value : Bool) :
    (m.setHeaderContext p value).header p = { m.header p with context := value } := by
  obtain ⟨inner, refs, context, layout, width⟩ :=
    flags_context (m.get (p + 4)).toNat (m.get (p + 4)).toNat_lt value
  rw [UInt8.ofNat_toNat] at inner refs context layout width
  rw [setHeaderContext, header_set_flags, header]
  simp only [Header.ofFlags, inner, refs, context, layout, width]

theorem ofFlags_flags (h : Header) (legal : h.width ∈ Width.legal) :
    Header.ofFlags h.flags h.size h.capacity = h := by
  obtain ⟨inner, refs, context, layout, width, size, capacity⟩ := h
  have fields : ∀ inner refs context : Bool, ∀ layout, ∀ w ∈ Width.legal,
      let h : Header := ⟨inner, refs, context, layout, w, 0, 0⟩
      Header.ofFlags h.flags 0 0 = h := by
    intro inner refs context layout
    cases inner <;> cases refs <;> cases context <;> cases layout <;> decide +kernel
  have same := fields inner refs context layout width legal
  simp only [Header.flags, Header.ofFlags, Header.mk.injEq, and_true] at same ⊢
  exact same

theorem get_setHeader (m : Memory) {p i : Nat} {h : Header} (outside : i < p ∨ p + 8 ≤ i) :
    (m.setHeader p h).get i = m.get i := by
  rw [setHeader, get_write24, if_neg (by omega), if_neg (by omega), if_neg (by omega),
    get_set_ne _ _ _ _ (by omega), get_set_ne _ _ _ _ (by omega), get_write24, if_neg (by omega),
    if_neg (by omega), if_neg (by omega)]

theorem header_setHeader (m : Memory) (p : Nat) (h : Header) (legal : h.width ∈ Width.legal)
    (size : h.size < 2 ^ 24) (capacity : h.capacity < 2 ^ 24) : (m.setHeader p h).header p = h := by
  rw [setHeader]
  have flags : ((((m.write24 p h.capacity).set (p + 3) 0).set (p + 4) h.flags).write24 (p + 5)
      h.size).get (p + 4) = h.flags := by
    simp [get_write24]
  have front : ((((m.write24 p h.capacity).set (p + 3) 0).set (p + 4) h.flags).write24 (p + 5)
      h.size).read24 p = h.capacity := by
    refine Eq.trans ?_ ((read24_write24 m p h.capacity).trans (Nat.mod_eq_of_lt capacity))
    apply read24_congr
    intro i inside
    rw [get_write24, if_neg (by omega), if_neg (by omega), if_neg (by omega),
      get_set_ne _ _ _ _ (by omega), get_set_ne _ _ _ _ (by omega)]
  rw [header, flags, front, read24_write24, Nat.mod_eq_of_lt size, ofFlags_flags h legal]

end ColumnStore.Memory
