import ColumnStore.Node.Element
import ColumnStore.Proofs.Width

set_option autoImplicit false

/-!
Memory as a sequence of bits. An element of any width is the field of bits that starts at its
place, and writing it changes no other bit.
-/
namespace ColumnStore

namespace Memory

/-- Bit `k` of memory; every byte has its lowest bit first. -/
def bit (m : Memory) (k : Nat) : Bool := (m.get (k / 8)).toNat.testBit (k % 8)

/-- The number in the `w` bits from bit `k` on. -/
def field (m : Memory) (k : Nat) : Nat → Nat
  | 0 => 0
  | w + 1 => (m.bit k).toNat + 2 * field m (k + 1) w

theorem testBit_field (m : Memory) (k w j : Nat) :
    (m.field k w).testBit j = (decide (j < w) && m.bit (k + j)) := by
  induction w generalizing k j with
  | zero => simp [field]
  | succ w ih =>
      cases j with
      | zero => cases h : m.bit k <;> simp [field, h]
      | succ j =>
          have halved : ((m.bit k).toNat + 2 * m.field (k + 1) w) / 2 = m.field (k + 1) w := by
            cases m.bit k <;> simp
            omega
          rw [field, Nat.testBit_succ, halved, ih]
          have place : k + 1 + j = k + (j + 1) := by omega
          simp [place]

theorem field_lt (m : Memory) (k w : Nat) : m.field k w < 2 ^ w := by
  apply Nat.lt_pow_two_of_testBit
  intro j outside
  have : ¬ j < w := by omega
  simp [testBit_field, this]

theorem field_congr {m m' : Memory} {k k' w : Nat}
    (same : ∀ j, j < w → m.bit (k + j) = m'.bit (k' + j)) : m.field k w = m'.field k' w := by
  apply Nat.eq_of_testBit_eq
  intro j
  by_cases inside : j < w
  · simp [testBit_field, inside, same j inside]
  · simp [testBit_field, inside]

/-- Bits of a field that lies inside another. -/
theorem field_within (m : Memory) (k w d v : Nat) (inside : d + v ≤ w) :
    m.field k w / 2 ^ d % 2 ^ v = m.field (k + d) v := by
  apply Nat.eq_of_testBit_eq
  intro j
  rw [Nat.testBit_mod_two_pow, Nat.testBit_div_two_pow, testBit_field, testBit_field]
  by_cases h : j < v
  · have h' : j + d < w := by omega
    have place : k + (j + d) = k + d + j := by omega
    simp [h, h', place]
  · simp [h]

theorem get_eq_field (m : Memory) (a : Nat) : (m.get a).toNat = m.field (8 * a) 8 := by
  apply Nat.eq_of_testBit_eq
  intro j
  rw [testBit_field]
  by_cases inside : j < 8
  · have byte : (8 * a + j) / 8 = a := by omega
    have place : (8 * a + j) % 8 = j := by omega
    simp [bit, byte, place, inside]
  · have small : (m.get a).toNat < 2 ^ j :=
      Nat.lt_of_lt_of_le (m.get a).toNat_lt (Nat.pow_le_pow_right (by omega) (by omega : 8 ≤ j))
    simp [Nat.testBit_lt_two_pow small, inside]

theorem get_eq_of_bits {m m' : Memory} {a : Nat}
    (same : ∀ j, j < 8 → m.bit (8 * a + j) = m'.bit (8 * a + j)) : m.get a = m'.get a := by
  apply UInt8.toNat_inj.mp
  rw [get_eq_field, get_eq_field]
  exact field_congr same

/-! ### Words -/

theorem toNat_wordOf (m : Memory) (p n : Nat) (fits : n ≤ 8) :
    (m.wordOf p n).toNat = m.field (8 * p) (8 * n) := by
  apply Nat.eq_of_testBit_eq
  intro j
  induction n generalizing p j with
  | zero => simp [wordOf, field]
  | succ n ih =>
      rw [testBit_field]
      have shift : (8 : UInt64).toNat % 64 = 8 := rfl
      simp only [wordOf, UInt64.toNat_or, UInt64.toNat_shiftLeft, Nat.testBit_or,
        Nat.testBit_mod_two_pow, Nat.testBit_shiftLeft, shift]
      by_cases low : j < 8
      · have notHigh : ¬ 8 ≤ j := by omega
        have inside : j < 8 * (n + 1) := by omega
        have byte : (8 * p + j) / 8 = p := by omega
        have place : (8 * p + j) % 8 = j := by omega
        simp [notHigh, inside, bit, byte, place]
      · have high : 8 ≤ j := by omega
        have rest := ih (p + 1) (by omega) (j - 8)
        have place : 8 * (p + 1) + (j - 8) = 8 * p + j := by omega
        have beyond : (m.get p).toNat.testBit j = false := by
          have := (m.get p).toNat_lt
          exact Nat.testBit_lt_two_pow
            (Nat.lt_of_lt_of_le this (Nat.pow_le_pow_right (by omega) high))
        rw [rest, testBit_field, place]
        by_cases inside : j < 8 * (n + 1)
        · have : j - 8 < 8 * n := by omega
          have : j < 64 := by omega
          simp [*]
        · have : ¬ j - 8 < 8 * n := by omega
          simp [*]

theorem toNat_word (m : Memory) (p : Nat) : (m.word p).toNat = m.field (8 * p) 64 := by
  have unfolded : m.word p = m.wordOf p 8 := by
    simp only [word, wordOf, List.range_succ, List.range_zero, List.nil_append, List.cons_append, List.foldr_cons, List.foldr_nil, Nat.add_assoc, Nat.reduceAdd, Nat.add_zero]
  rw [unfolded, toNat_wordOf m p 8 (by omega)]

/-! ### Elements -/

theorem toNat_subByteMask (w : Nat) (narrow : w < 8) : (subByteMask w).toNat = 2 ^ w - 1 := by
  have small : 2 ^ w < 2 ^ 8 := Nat.pow_lt_pow_right (by omega) narrow
  simp [subByteMask]
  omega

/-- What a field of `w` bits stands for: a natural number below eight bits, a signed one from eight
bits up. -/
def decode (w u : Nat) : Int := if w < 8 then u else (u : Int).bmod (2 ^ w)

theorem toInt_signExtend (w : Nat) (u : UInt64) (pos : 0 < w) (small : w ≤ 64) :
    (signExtend w u).toInt = (u.toNat : Int).bmod (2 ^ w) := by
  have amount : ∀ d, d < 64 → (Int64.ofNat d).toBitVec.smod 64 = BitVec.ofNat 64 d := by decide
  obtain ⟨d, rest⟩ : ∃ d, 64 - w = d := ⟨_, rfl⟩
  have even : 2 ∣ 2 ^ w := ⟨2 ^ (w - 1), by rw [← Nat.pow_succ']; congr 1; omega⟩
  have scaled := Int.mod_bmod_mul_of_pos u.toNat (2 ^ w) (Nat.two_pow_pos d) even
  have whole : 2 ^ d * 2 ^ w = 2 ^ 64 := by
    rw [← Nat.pow_add]
    congr 1
    omega
  have positive : ((2 ^ d : Nat) : Int) ≠ 0 := by
    have := Nat.two_pow_pos d
    omega
  have shifted : ((u.toInt64.toBitVec.toNat * 2 ^ d : Nat) : Int) =
      (2 ^ d : Nat) * (u.toNat : Int) := by
    rw [Nat.mul_comm]
    rfl
  rw [whole] at scaled
  rw [signExtend, rest, ← Int64.toInt_toBitVec, Int64.toBitVec_shiftRight,
    Int64.toBitVec_shiftLeft, amount d (by omega), BitVec.toInt_sshiftRight',
    BitVec.shiftLeft_eq', BitVec.toInt_shiftLeft, BitVec.toNat_ofNat, Nat.mod_eq_of_lt (by omega),
    Int.shiftRight_eq_div_pow, Nat.shiftLeft_eq, shifted, scaled,
    Int.mul_ediv_cancel_left _ positive]

theorem toInt_ofByte (b : UInt8) : b.toUInt64.toInt64.toInt = b.toNat := by
  have small := b.toNat_lt
  rw [← Int64.toInt_toBitVec]
  show b.toUInt64.toBitVec.toInt = _
  rw [BitVec.toInt_eq_toNat_of_lt]
  · simp
  · simp
    omega

theorem toInt_element (m : Memory) (p w i : Nat) (legal : w ∈ Width.legal) :
    (m.element p w i).toInt = decode w (m.field (8 * p + i * w) w) := by
  rw [Width.mem_legal] at legal
  by_cases narrow : w < 8
  · rw [element, decode, if_pos narrow]
    by_cases none : w = 0
    · simp [none, field]
    · rw [if_neg none, if_pos narrow, toInt_ofByte]
      congr 1
      apply Nat.eq_of_testBit_eq
      intro j
      have shift : i * w % 8 + w ≤ 8 := by
        rcases legal with h | h | h | h | h | h | h | h <;> subst h <;> omega
      have amount : (UInt8.ofNat (i * w % 8)).toNat % 8 = i * w % 8 := by simp
      have mask : (subByteMask w).toNat = 2 ^ w - 1 := toNat_subByteMask w narrow
      rw [testBit_field, UInt8.toNat_and, UInt8.toNat_shiftRight, Nat.testBit_and,
        Nat.testBit_shiftRight, amount, mask, Nat.testBit_two_pow_sub_one]
      by_cases inside : j < w
      · have byte : (8 * p + i * w + j) / 8 = p + i * w / 8 := by omega
        have place : (8 * p + i * w + j) % 8 = i * w % 8 + j := by omega
        simp [inside, bit, byte, place]
      · simp [inside]
  · have bytes : 8 * (w / 8) = w := by
      rcases legal with h | h | h | h | h | h | h | h <;> subst h <;> omega
    have place : 8 * (p + i * (w / 8)) = 8 * p + i * w := by
      rw [Nat.mul_add, Nat.mul_left_comm, bytes]
    rw [element, decode, if_neg narrow, if_neg (by omega), if_neg narrow,
      toInt_signExtend w _ (by omega) (by omega), toNat_wordOf _ _ _ (by omega), place, bytes]

theorem fits_element (m : Memory) (p w i : Nat) (legal : w ∈ Width.legal) :
    Width.fits w (m.element p w i) = true := by
  have small := m.field_lt (8 * p + i * w) w
  rw [Width.fits_iff, Width.toInt_lower legal, Width.toInt_upper legal, toInt_element _ _ _ _ legal]
  generalize m.field (8 * p + i * w) w = f at small
  rw [Width.mem_legal] at legal
  rcases legal with rfl | rfl | rfl | rfl | rfl | rfl | rfl | rfl <;>
    simp [decode, Int.bmod_def] at small ⊢ <;> omega

theorem bit_set (m : Memory) (a : Nat) (b : UInt8) (k : Nat) :
    (m.set a b).bit k = if k / 8 = a then b.toNat.testBit (k % 8) else m.bit k := by
  by_cases here : k / 8 = a
  · simp [bit, here]
  · simp [bit, here, get_set_ne _ _ _ _ here]

theorem bit_setWordOf (m : Memory) (p n k : Nat) (v : UInt64) :
    (m.setWordOf p v n).bit k =
      if 8 * p ≤ k ∧ k < 8 * p + 8 * n then v.toNat.testBit (k - 8 * p) else m.bit k := by
  induction n generalizing m p v with
  | zero =>
      have : ¬ (8 * p ≤ k ∧ k < 8 * p + 8 * 0) := by omega
      rw [setWordOf, if_neg this]
  | succ n ih =>
      have shift : (8 : UInt64).toNat % 64 = 8 := rfl
      rw [setWordOf, ih, bit_set, UInt64.toNat_shiftRight, shift, Nat.testBit_shiftRight]
      by_cases first : k / 8 = p
      · have notRest : ¬ (8 * (p + 1) ≤ k ∧ k < 8 * (p + 1) + 8 * n) := by omega
        have within : 8 * p ≤ k ∧ k < 8 * p + 8 * (n + 1) := by omega
        have place : k - 8 * p = k % 8 := by omega
        have low : k % 8 < 8 := by omega
        rw [if_neg notRest, if_pos first, if_pos within, place, UInt64.toNat_toUInt8,
          Nat.testBit_mod_two_pow]
        simp [low]
      · rw [if_neg first]
        have place (h : 8 * (p + 1) ≤ k) : 8 + (k - 8 * (p + 1)) = k - 8 * p := by omega
        by_cases rest : 8 * (p + 1) ≤ k ∧ k < 8 * (p + 1) + 8 * n
        · rw [if_pos rest, if_pos (by omega), place rest.1]
        · rw [if_neg rest, if_neg (by omega)]

/-- Some bits of a byte replaced by those of another. -/
theorem testBit_merge (old new mask : UInt8) (w s t : Nat) (inside : t < 8) (start : s < 8)
    (masked : mask.toNat = 2 ^ w - 1) :
    (old &&& ~~~(mask <<< UInt8.ofNat s) ||| (new &&& mask) <<< UInt8.ofNat s).toNat.testBit t =
      if s ≤ t ∧ t < s + w then new.toNat.testBit (t - s) else old.toNat.testBit t := by
  have amount : (UInt8.ofNat s).toNat % 8 = s := by
    simp
    omega
  have low (j : Nat) : mask.toNat.testBit j = decide (j < w) := by
    rw [masked, Nat.testBit_two_pow_sub_one]
  have flipped (x : UInt8) : (~~~x).toNat.testBit t = !x.toNat.testBit t := by
    rw [← UInt8.toNat_toBitVec, UInt8.toBitVec_not, BitVec.testBit_toNat, BitVec.getLsbD_not,
      ← BitVec.testBit_toNat, UInt8.toNat_toBitVec]
    simp [inside]
  simp only [UInt8.toNat_or, UInt8.toNat_and, UInt8.toNat_shiftLeft, Nat.testBit_or,
    Nat.testBit_and, flipped, amount, Nat.testBit_mod_two_pow, Nat.testBit_shiftLeft, low, inside,
    decide_true, Bool.true_and]
  by_cases after : s ≤ t
  · have place : t - s < w ↔ t < s + w := by omega
    by_cases before : t < s + w <;> simp [*]
  · simp [after]

theorem bit_setElement (m : Memory) (p w i : Nat) (v : Int64) (legal : w ∈ Width.legal) (k : Nat) :
    (m.setElement p w i v).bit k =
      if 8 * p + i * w ≤ k ∧ k < 8 * p + (i + 1) * w then
        v.toUInt64.toNat.testBit (k - (8 * p + i * w))
      else m.bit k := by
  rw [Width.mem_legal] at legal
  rw [Nat.succ_mul i w]
  by_cases none : w = 0
  · have : ¬ (8 * p + i * w ≤ k ∧ k < 8 * p + (i * w + w)) := by omega
    rw [setElement, if_pos none, if_neg this]
  by_cases narrow : w < 8
  · rw [setElement, if_neg none, if_pos narrow]
    have shift : i * w % 8 + w ≤ 8 := by
      rcases legal with h | h | h | h | h | h | h | h <;> subst h <;> omega
    simp only [bit_set]
    by_cases byte : k / 8 = p + i * w / 8
    · rw [if_pos byte, testBit_merge _ _ _ w _ _ (by omega) (by omega) (toNat_subByteMask w narrow)]
      by_cases inside : i * w % 8 ≤ k % 8 ∧ k % 8 < i * w % 8 + w
      · have place : k % 8 - i * w % 8 = k - (8 * p + i * w) := by omega
        rw [if_pos inside, if_pos (by omega), place, UInt64.toNat_toUInt8, Nat.testBit_mod_two_pow]
        simp
        omega
      · rw [if_neg inside, if_neg (by omega), bit, byte]
    · rw [if_neg byte, if_neg (by omega)]
  · have bytes : 8 * (w / 8) = w := by
      rcases legal with h | h | h | h | h | h | h | h <;> subst h <;> omega
    have place : 8 * (p + i * (w / 8)) = 8 * p + i * w := by
      rw [Nat.mul_add, Nat.mul_left_comm, bytes]
    rw [setElement, if_neg none, if_neg narrow, bit_setWordOf, place, bytes, Nat.add_assoc]

end Memory

end ColumnStore
