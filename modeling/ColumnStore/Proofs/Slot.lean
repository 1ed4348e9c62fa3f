import ColumnStore.Slot
import Mathlib.Algebra.GroupWithZero.Nat

set_option autoImplicit false

/-!
Refs and tagged counts are told apart by their lowest bit. A count survives the tag as long as it
is below `countBound`.
-/
namespace ColumnStore.Slot

/-- The tag takes one bit and the sign another. -/
def countBound : Nat := 2 ^ 62

theorem toRef_ofRef {r : Ref} (h : r < 2 ^ 64) : toRef (ofRef r) = r := by
  show (UInt64.ofNat r).toNat = r
  rw [UInt64.toNat_ofNat']
  exact Nat.mod_eq_of_lt h

theorem ofRef_toRef (v : Int64) : ofRef (toRef v) = v := by
  show Int64.ofNat v.toUInt64.toNat = v
  rw [← Int64.toBitVec_inj]
  simp

theorem and_one_eq_zero {n : Nat} : Int64.ofNat n &&& 1 = 0 ↔ 2 ∣ n := by
  rw [← Int64.toBitVec_inj, ← BitVec.toNat_inj]
  simp [Nat.and_one_is_mod, Nat.dvd_iff_mod_eq_zero]

theorem ofNat_ne_zero {n : Nat} (positive : 0 < n) (h : n < 2 ^ 64) : Int64.ofNat n ≠ 0 := by
  intro zero
  have : toRef (ofRef n) = toRef (ofRef 0) := congrArg toRef zero
  rw [toRef_ofRef h, toRef_ofRef (by decide)] at this
  exact Nat.ne_of_gt positive this

theorem isRef_ofRef {r : Ref} (positive : 0 < r) (even : 2 ∣ r) (h : r < 2 ^ 64) :
    isRef (ofRef r) = true := by
  simp only [isRef, ofRef, Bool.and_eq_true, bne_iff_ne, beq_iff_eq]
  exact ⟨ofNat_ne_zero positive h, and_one_eq_zero.mpr even⟩

theorem tag_eq (n : Nat) : tag n = Int64.ofNat (2 * n + 1) := by
  simp only [tag, Int64.ofNat_add, Int64.ofNat_mul]
  rw [Int64.add_comm]
  rfl

theorem isRef_tag (n : Nat) : isRef (tag n) = false := by
  rw [tag_eq, isRef, Bool.and_eq_false_iff]
  right
  rw [beq_eq_false_iff_ne]
  intro even
  have := and_one_eq_zero.mp even
  omega

theorem ofNat_div_two {n k : Nat} (h : n < 2 ^ 63) (half : n / 2 = k) :
    Int64.ofNat n / 2 = Int64.ofNat k := by
  have quotient : (n : Int).tdiv 2 = k := by
    rw [← half]
    rfl
  rw [← Int64.toInt_inj, Int64.toInt_div, Int64.toInt_ofNat_of_lt h,
    Int64.toInt_ofNat_of_lt (by omega), show (2 : Int64).toInt = 2 by decide, quotient]
  apply Int.bmod_eq_of_le <;> omega

theorem untag_tag {n : Nat} (h : n < countBound) : untag (tag n) = n := by
  rw [countBound] at h
  rw [untag, tag_eq, ofNat_div_two (by omega) (show (2 * n + 1) / 2 = n by omega)]
  exact toRef_ofRef (Nat.lt_trans h (by decide))

theorem tag_add (n d : Nat) : tag n + Int64.ofNat (2 * d) = tag (n + d) := by
  rw [tag_eq, tag_eq, ← Int64.ofNat_add]
  congr 1
  omega

theorem tdiv_two (i : Int) : i.tdiv 2 = if 0 ≤ i then i / 2 else -(-i / 2) := by
  split
  next positive => exact Int.tdiv_eq_ediv_of_nonneg positive
  next negative =>
    rw [← Int.tdiv_eq_ediv_of_nonneg (by omega), Int.neg_tdiv, Int.neg_neg]

/-- A slot that is no ref and reads as a count is the tag of it. -/
theorem eq_tag {v : Int64} {n : Nat} (count : untag v = n) (odd : isRef v = false)
    (positive : 0 < n) (h : n < countBound) : v = tag n := by
  rw [countBound] at h
  have half : (v / 2).toInt = n := by
    rw [← Int64.toInt_ofNat_of_lt (show n < 2 ^ 63 by omega), ← count]
    exact congrArg Int64.toInt (ofRef_toRef (v / 2)).symm
  have lower := v.le_toInt
  have upper := v.toInt_lt
  have whole := tdiv_two v.toInt
  have quotient : (v / 2).toInt = v.toInt.tdiv 2 := by
    rw [Int64.toInt_div, show (2 : Int64).toInt = 2 by decide]
    apply Int.bmod_eq_of_le <;> split at whole <;> omega
  have double : v.toInt = (2 * n : Nat) ∨ v.toInt = (2 * n + 1 : Nat) := by
    split at whole <;> omega
  rcases double with even | uneven
  · have same : v = ofRef (2 * n) := by
      rw [← Int64.toInt_inj, even]
      exact (Int64.toInt_ofNat_of_lt (show 2 * n < 2 ^ 63 by omega)).symm
    rw [same, isRef_ofRef (Nat.mul_pos (by decide) positive) ⟨n, rfl⟩
      (show 2 * n < 2 ^ 64 by omega)] at odd
    cases odd
  · rw [tag_eq, ← Int64.toInt_inj, uneven]
    exact (Int64.toInt_ofNat_of_lt (show 2 * n + 1 < 2 ^ 63 by omega)).symm

end ColumnStore.Slot
