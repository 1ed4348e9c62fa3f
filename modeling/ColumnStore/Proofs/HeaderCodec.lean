import ColumnStore.Proofs.Damage

set_option autoImplicit false

/-!
Headers and their eight bytes. Every header that the fields can hold has bytes of its own, all eight
of which it is read back from, and a field that is written in place is the only one that changes.
-/
namespace ColumnStore

namespace Memory

open Header (length)

theorem write24_read24 (m m' : Memory) (p q : Nat) {i : Nat} (inside : i < 3) :
    (m'.write24 q (m.read24 p)).get (q + i) = m.get (p + i) := by
  have high := (m.get p).toNat_lt
  have middle := (m.get (p + 1)).toNat_lt
  have low := (m.get (p + 2)).toNat_lt
  rw [get_write24, read24, ← UInt8.toNat_inj]
  obtain rfl | rfl | rfl : i = 0 ∨ i = 1 ∨ i = 2 := by omega
  · simp
    omega
  · simp
    omega
  · simp

theorem flags_ofFlags (f : UInt8) (size capacity : Nat) (known : (f >>> 3) &&& 3 ≠ 3) :
    (Header.ofFlags f size capacity).flags = f := by
  have bytes : ∀ n, n < 256 → (UInt8.ofNat n >>> 3) &&& 3 ≠ 3 →
      (Header.ofFlags (UInt8.ofNat n) 0 0).flags = UInt8.ofNat n := by
    decide +kernel
  have same := bytes f.toNat f.toNat_lt
  rw [UInt8.ofNat_toNat] at same
  exact same known

/-- A header that was read is written as the bytes it was read from. -/
theorem setHeader_header (m m' : Memory) (p q : Nat) (spare : m.get (p + 3) = 0)
    (known : (m.get (p + 4) >>> 3) &&& 3 ≠ 3) {i : Nat} (inside : i < length) :
    (m'.setHeader q (m.header p)).get (q + i) = m.get (p + i) := by
  rw [length] at inside
  rw [setHeader]
  by_cases size : 5 ≤ i
  · have field := write24_read24 m
      (((m'.write24 q (m.header p).capacity).set (q + 3) 0).set (q + 4) (m.header p).flags) (p + 5) (q + 5)
      (show i - 5 < 3 by omega)
    rwa [Nat.add_assoc, Nat.add_assoc, Nat.add_sub_cancel' size] at field
  rw [get_write24, if_neg (by omega), if_neg (by omega), if_neg (by omega)]
  by_cases flags : i = 4
  · rw [flags, get_set_eq]
    exact flags_ofFlags _ _ _ known
  rw [get_set_ne _ _ _ _ (by omega)]
  by_cases zero : i = 3
  · rw [zero, get_set_eq, spare]
  rw [get_set_ne _ _ _ _ (by omega)]
  exact write24_read24 m m' p q (by omega)

end Memory

namespace Header

/-- The fields hold what the header says. -/
structure Legal (h : Header) : Prop where
  width : h.width ∈ Width.legal
  size : h.size < 2 ^ 24
  capacity : h.capacity < 2 ^ 24

/-- Eight bytes with nothing in them that a header does not say: the spare byte is zero, and there
is such a layout. -/
structure Canonical (buf : ByteArray) : Prop where
  length : buf.size = Header.length
  spare : Memory.get ⟨buf⟩ 3 = 0
  layout : (Memory.get ⟨buf⟩ 4 >>> 3) &&& 3 ≠ 3

variable {h : Header} {buf : ByteArray}

theorem get_encode (h : Header) {i : Nat} (inside : i < length) :
    Memory.get ⟨h.encode⟩ i = (Memory.empty.setHeader 0 h).get i := by
  rw [encode, Memory.get_read, if_pos inside, Nat.zero_add]

theorem legal_header (m : Memory) (p : Nat) : (m.header p).Legal :=
  ⟨m.width_header p, m.size_header p, m.capacity_header p⟩

theorem decode_encode (legal : h.Legal) : decode h.encode = h := by
  have written := Memory.header_setHeader .empty 0 h legal.width legal.size legal.capacity
  refine (Memory.header_congr fun i inside => ?_).trans written
  rw [Nat.zero_add]
  exact get_encode h inside

theorem encode_decode (canonical : Canonical buf) : (decode buf).encode = buf := by
  have size : (decode buf).encode.size = buf.size := by
    rw [encode, Memory.size_read, canonical.length]
  apply Image.eq_of_bytes size
  intro i
  by_cases inside : i < length
  · have same := Memory.setHeader_header ⟨buf⟩ .empty 0 0 canonical.spare canonical.layout inside
    rw [Nat.zero_add] at same
    exact (get_encode _ inside).trans same
  · have beyond : buf.size ≤ i := canonical.length ▸ Nat.le_of_not_lt inside
    have none : Memory.get ⟨(decode buf).encode⟩ i = 0 := by
      apply Memory.get_of_size_le
      rwa [size]
    exact none.trans (Memory.get_of_size_le beyond).symm

theorem canonical_encode (legal : h.Legal) : Canonical h.encode := by
  have layouts : ∀ inner refs context : Bool, ∀ layout, ∀ w ∈ Width.legal,
      (flags ⟨inner, refs, context, layout, w, 0, 0⟩ >>> 3) &&& 3 ≠ 3 := by
    intro inner refs context layout
    cases inner <;> cases refs <;> cases context <;> cases layout <;> decide +kernel
  have known := layouts h.inner h.hasRefs h.context h.layout h.width legal.width
  refine ⟨by rw [encode, Memory.size_read], ?_, ?_⟩
  · rw [get_encode h (by decide)]
    simp [Memory.setHeader, Memory.get_write24, Memory.get_set_ne]
  · have byte : (Memory.empty.setHeader 0 h).get 4 = h.flags := by
      simp [Memory.setHeader, Memory.get_write24]
    rw [get_encode h (by decide), byte]
    exact known

/-- Legal headers and canonical bytes are each other's images, and a setter changes just its field of
whatever header it finds. -/
theorem written_as_read :
    (∀ h : Header, h.Legal → Canonical h.encode ∧ decode h.encode = h) ∧
    (∀ buf, Canonical buf → (decode buf).Legal ∧ (decode buf).encode = buf) ∧
    ∀ (m : Memory) (p : Nat),
      (∀ size < 2 ^ 24, (m.setHeaderSize p size).header p = { m.header p with size }) ∧
      (∀ capacity < 2 ^ 24, (m.setHeaderCapacity p capacity).header p = { m.header p with capacity }) ∧
      (∀ width ∈ Width.legal, (m.setHeaderWidth p width).header p = { m.header p with width }) ∧
      ∀ context, (m.setHeaderContext p context).header p = { m.header p with context } := by
  refine ⟨fun h legal => ⟨canonical_encode legal, decode_encode legal⟩,
    fun buf canonical => ⟨legal_header ⟨buf⟩ 0, encode_decode canonical⟩, fun m p => ?_⟩
  refine ⟨fun size small => ?_, fun capacity small => ?_, m.header_setHeaderWidth p,
    m.header_setHeaderContext p⟩
  · rw [Memory.header_setHeaderSize, Nat.mod_eq_of_lt small]
  · rw [Memory.header_setHeaderCapacity, Nat.mod_eq_of_lt small]

/-- Neighbouring bits of the flags differ, and so do the bytes of size and capacity. -/
def mixed : Header := ⟨true, true, false, .bits, 16, 0x010203, 0x0A0B0C⟩

theorem written_as_read_mixed :
    mixed.encode.data.toList = [0x0A, 0x0B, 0x0C, 0x00, 0xC5, 0x01, 0x02, 0x03] ∧
      mixed.Legal ∧ decode mixed.encode = mixed ∧ (decode mixed.encode).encode = mixed.encode ∧
      (Memory.setHeaderWidth ⟨mixed.encode⟩ 0 2).header 0 = { mixed with width := 2 } := by
  have legal : mixed.Legal := ⟨by decide, by decide, by decide⟩
  obtain ⟨reads, writes, sets⟩ := written_as_read
  obtain ⟨canonical, same⟩ := reads mixed legal
  have narrowed := (sets ⟨mixed.encode⟩ 0).2.2.1 2 (by decide)
  rw [show Memory.header ⟨mixed.encode⟩ 0 = mixed from same] at narrowed
  exact ⟨by decide +kernel, legal, same, (writes _ canonical).2, narrowed⟩

end Header

end ColumnStore
