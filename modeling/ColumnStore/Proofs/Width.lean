import ColumnStore.Node.Width
import Mathlib.Algebra.Group.Int.Defs
import Mathlib.Algebra.GroupWithZero.Nat
import Mathlib.Tactic.SplitIfs

set_option autoImplicit false

/-!
The values of each width as intervals of integers.
-/
namespace ColumnStore

theorem toNat_toUInt64 (v : Int64) : (v.toUInt64.toNat : Int) = v.toInt % 2 ^ 64 := by
  have value : v.toInt = (v.toUInt64.toNat : Int).bmod (2 ^ 64) := BitVec.toInt_eq_toNat_bmod _
  have small := v.toUInt64.toNat_lt
  rw [value]
  simp [Int.bmod_def]
  omega

namespace Width

theorem mem_legal {w : Nat} :
    w ∈ legal ↔ w = 0 ∨ w = 1 ∨ w = 2 ∨ w = 4 ∨ w = 8 ∨ w = 16 ∨ w = 32 ∨ w = 64 := by
  simp [legal]

theorem le_of_legal {w : Nat} (legal : w ∈ Width.legal) : w ≤ 64 := by
  rw [mem_legal] at legal
  omega

theorem toInt_lower {w : Nat} (legal : w ∈ Width.legal) :
    (lower w).toInt = if w < 8 then 0 else -2 ^ (w - 1) := by
  rw [mem_legal] at legal
  rcases legal with rfl | rfl | rfl | rfl | rfl | rfl | rfl | rfl <;> rfl

theorem toInt_upper {w : Nat} (legal : w ∈ Width.legal) :
    (upper w).toInt = if w < 8 then 2 ^ w - 1 else 2 ^ (w - 1) - 1 := by
  rw [mem_legal] at legal
  rcases legal with rfl | rfl | rfl | rfl | rfl | rfl | rfl | rfl <;> rfl

theorem fits_iff (w : Nat) (v : Int64) :
    fits w v = true ↔ (lower w).toInt ≤ v.toInt ∧ v.toInt ≤ (upper w).toInt := by
  rw [fits, Bool.and_eq_true, decide_eq_true_eq, decide_eq_true_eq, Int64.le_iff_toInt_le,
    Int64.le_iff_toInt_le]

theorem fits_mono {w w' : Nat} (legal : w ∈ Width.legal) (legal' : w' ∈ Width.legal)
    (wider : w ≤ w') {v : Int64} (inside : fits w v = true) : fits w' v = true := by
  rw [fits_iff, toInt_lower legal, toInt_upper legal] at inside
  rw [fits_iff, toInt_lower legal', toInt_upper legal']
  rw [mem_legal] at legal legal'
  rcases legal with rfl | rfl | rfl | rfl | rfl | rfl | rfl | rfl <;>
    rcases legal' with rfl | rfl | rfl | rfl | rfl | rfl | rfl | rfl <;>
    simp at wider inside ⊢ <;> omega

theorem toInt_magnitude (v : Int64) :
    (if v < 0 then ~~~v else v).toInt = if v.toInt < 0 then -v.toInt - 1 else v.toInt := by
  have sign : v < 0 ↔ v.toInt < 0 := Int64.lt_iff_toInt_lt
  by_cases negative : v.toInt < 0
  · have := Int64.le_toInt v
    rw [if_pos (sign.mpr negative), if_pos negative, Int64.toInt_not]
    exact Int.bmod_eq_of_le (by omega) (by omega)
  · rw [if_neg (mt sign.mp negative), if_neg negative]

theorem shifted_eq_zero (v : Int64) (k : Nat) (small : k < 64) :
    (if v < 0 then ~~~v else v) >>> Int64.ofNat k = 0 ↔ -2 ^ k ≤ v.toInt ∧ v.toInt < 2 ^ k := by
  have amount : ∀ d, d < 64 → (Int64.ofNat d).toBitVec.smod 64 = BitVec.ofNat 64 d := by decide
  have value := toInt_magnitude v
  have positive : (0 : Int) < 2 ^ k := Int.pow_pos (by decide)
  generalize (if v < 0 then ~~~v else v) = a at value ⊢
  rw [← Int64.toInt_inj, ← Int64.toInt_toBitVec, Int64.toBitVec_shiftRight, amount k small,
    BitVec.toInt_sshiftRight', BitVec.toNat_ofNat, Nat.mod_eq_of_lt (by omega),
    Int.shiftRight_eq_div_pow, Int64.toInt_toBitVec]
  show a.toInt / ((2 ^ k : Nat) : Int) = 0 ↔ _
  have cast : ((2 ^ k : Nat) : Int) = 2 ^ k := by simp
  have nonneg : 0 ≤ a.toInt := by
    rw [value]
    split <;> omega
  have : a.toInt / 2 ^ k = 0 ↔ a.toInt < 2 ^ k := by
    constructor
    · intro none
      have := Int.lt_mul_ediv_self_add (x := a.toInt) positive
      rw [none] at this
      omega
    · exact Int.ediv_eq_zero_of_lt nonneg
  rw [cast, this, value]
  split <;> omega

theorem ofValue_eq (v : Int64) :
    ofValue v =
      if 0 ≤ v.toInt ∧ v.toInt < 16 then
        if v.toInt = 0 then 0 else if v.toInt = 1 then 1 else if v.toInt < 4 then 2 else 4
      else if -2 ^ 31 ≤ v.toInt ∧ v.toInt < 2 ^ 31 then
        if -2 ^ 15 ≤ v.toInt ∧ v.toInt < 2 ^ 15 then
          if -2 ^ 7 ≤ v.toInt ∧ v.toInt < 2 ^ 7 then 8 else 16
        else 32
      else 64 := by
  have nibble : v.toUInt64 >>> 4 = 0 ↔ 0 ≤ v.toInt ∧ v.toInt < 16 := by
    have bits := toNat_toUInt64 v
    have := Int64.toInt_lt v
    have := Int64.le_toInt v
    have shift : (4 : UInt64).toNat % 64 = 4 := rfl
    rw [← UInt64.toNat_inj, UInt64.toNat_shiftRight, shift, Nat.shiftRight_eq_div_pow]
    simp
    omega
  have zero : v = 0 ↔ v.toInt = 0 := Int64.toInt_inj.symm
  have one : v = 1 ↔ v.toInt = 1 := Int64.toInt_inj.symm
  have four : v < 4 ↔ v.toInt < 4 := Int64.lt_iff_toInt_lt
  have byte : (if v < 0 then ~~~v else v) >>> 7 = 0 ↔ _ := shifted_eq_zero v 7 (by decide)
  have short : (if v < 0 then ~~~v else v) >>> 15 = 0 ↔ _ := shifted_eq_zero v 15 (by decide)
  have word : (if v < 0 then ~~~v else v) >>> 31 = 0 ↔ _ := shifted_eq_zero v 31 (by decide)
  simp only [ofValue, nibble, zero, one, four, ne_eq, byte, short, word, ite_not]

theorem ofValue_legal (v : Int64) : ofValue v ∈ legal := by
  rw [ofValue_eq]
  split_ifs <;> decide

/-- The width that an element needs beside others of width `w`. -/
theorem fitted_le {w : Nat} (known : w ∈ legal) (v : Int64) :
    (if fits w v then w else ofValue v) ≤ 64 := by
  split
  next => exact le_of_legal known
  next => exact le_of_legal (ofValue_legal v)

theorem fits_ofValue (v : Int64) : fits (ofValue v) v = true := by
  have := Int64.toInt_lt v
  have := Int64.le_toInt v
  rw [fits_iff, toInt_lower (ofValue_legal v), toInt_upper (ofValue_legal v)]
  obtain ⟨w, width⟩ : ∃ w, ofValue v = w := ⟨_, rfl⟩
  rw [width]
  rw [ofValue_eq] at width
  split_ifs at width <;> subst width <;> simp <;> omega

theorem fits_iff_ofValue_le {w : Nat} (legal : w ∈ Width.legal) {v : Int64} :
    fits w v = true ↔ ofValue v ≤ w := by
  constructor
  · intro inside
    rw [fits_iff, toInt_lower legal, toInt_upper legal] at inside
    rw [mem_legal] at legal
    rw [ofValue_eq]
    rcases legal with rfl | rfl | rfl | rfl | rfl | rfl | rfl | rfl <;>
      simp at inside <;> split_ifs <;> omega
  · intro narrower
    exact fits_mono (ofValue_legal v) legal narrower (fits_ofValue v)

/-- A value that does not fit needs a larger width. -/
theorem lt_ofValue {w : Nat} (legal : w ∈ Width.legal) {v : Int64} (outside : fits w v = false) :
    w < ofValue v := by
  rw [← Nat.not_le, ← fits_iff_ofValue_le legal, outside]
  exact Bool.false_ne_true

/-! ### Widths of several values -/

variable {w : Nat} {v : Int64} {vs : List Int64}

theorem max_legal {w' : Nat} (legal : w ∈ Width.legal) (legal' : w' ∈ Width.legal) :
    max w w' ∈ Width.legal := by
  rcases Nat.le_total w w' with le | le
  · rwa [Nat.max_eq_right le]
  · rwa [Nat.max_eq_left le]

/-- A width raised as far as the values take it. -/
def raise (w : Nat) (vs : List Int64) : Nat := (vs.map ofValue).foldl max w

@[simp] theorem raise_nil (w : Nat) : raise w [] = w := rfl

theorem raise_cons (w : Nat) (v : Int64) (vs : List Int64) :
    raise w (v :: vs) = raise (max w (ofValue v)) vs := rfl

theorem raise_append (w : Nat) (vs vs' : List Int64) :
    raise w (vs ++ vs') = raise (raise w vs) vs' := by
  rw [raise, List.map_append, List.foldl_append]
  rfl

theorem raise_legal (legal : w ∈ Width.legal) (vs : List Int64) : raise w vs ∈ Width.legal := by
  induction vs generalizing w with
  | nil => exact legal
  | cons v vs ih => exact ih (max_legal legal (ofValue_legal v))

theorem raise_le (legal : w ∈ Width.legal) {w₀ : Nat} :
    raise w₀ vs ≤ w ↔ w₀ ≤ w ∧ ∀ v ∈ vs, fits w v = true := by
  induction vs generalizing w₀ with
  | nil => simp
  | cons v vs ih =>
      rw [raise_cons, ih, Nat.max_le, List.forall_mem_cons, fits_iff_ofValue_le legal, and_assoc]

theorem le_raise (legal : w ∈ Width.legal) (vs : List Int64) : w ≤ raise w vs :=
  ((raise_le (raise_legal legal vs)).mp (Nat.le_refl _)).1

theorem fits_raise (legal : w ∈ Width.legal) (inside : v ∈ vs) : fits (raise w vs) v = true :=
  ((raise_le (raise_legal legal vs)).mp (Nat.le_refl _)).2 v inside

/-- A value that fits does not raise the width, and another one decides it. -/
theorem raise_one (legal : w ∈ Width.legal) (v : Int64) :
    (if fits w v = true then w else ofValue v) = raise w [v] := by
  rw [raise_cons, raise_nil]
  by_cases inside : fits w v = true
  · rw [if_pos inside, Nat.max_eq_left ((fits_iff_ofValue_le legal).mp inside)]
  · rw [if_neg inside, Nat.max_eq_right (Nat.le_of_lt (lt_ofValue legal (by simpa using inside)))]

end Width

end ColumnStore
