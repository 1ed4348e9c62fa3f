import ColumnStore.Node.Search
import Mathlib.Algebra.GroupWithZero.Nat

set_option autoImplicit false

/-!
A number as lanes of equal width, and what the word operations of a search do to every lane.
-/
namespace ColumnStore

/-- Lane `k` of `x`, in lanes of `w` bits. -/
def lane (w k x : Nat) : Nat := x / 2 ^ (w * k) % 2 ^ w

theorem lane_lt (w k x : Nat) : lane w k x < 2 ^ w := Nat.mod_lt _ (Nat.two_pow_pos w)

theorem lane_zero (w x : Nat) : lane w 0 x = x % 2 ^ w := by simp [lane]

theorem lane_succ (w k x : Nat) : lane w (k + 1) x = lane w k (x / 2 ^ w) := by
  rw [lane, lane, Nat.div_div_eq_div_mul, ← Nat.pow_add, Nat.mul_succ, Nat.add_comm]

theorem testBit_lane (w k x j : Nat) :
    (lane w k x).testBit j = (decide (j < w) && x.testBit (w * k + j)) := by
  rw [lane, Nat.testBit_mod_two_pow, Nat.testBit_div_two_pow, Nat.add_comm]

theorem lane_and (w k x y : Nat) : lane w k (x &&& y) = lane w k x &&& lane w k y := by
  apply Nat.eq_of_testBit_eq
  intro j
  by_cases inside : j < w <;> simp [testBit_lane, inside]

theorem lane_or (w k x y : Nat) : lane w k (x ||| y) = lane w k x ||| lane w k y := by
  apply Nat.eq_of_testBit_eq
  intro j
  by_cases inside : j < w <;> simp [testBit_lane, inside]

theorem lane_xor (w k x y : Nat) : lane w k (x ^^^ y) = lane w k x ^^^ lane w k y := by
  apply Nat.eq_of_testBit_eq
  intro j
  by_cases inside : j < w <;> simp [testBit_lane, inside]

theorem lane_not (w k : Nat) (x : UInt64) (inside : w * k + w ≤ 64) :
    lane w k (~~~x).toNat = 2 ^ w - 1 - lane w k x.toNat := by
  apply Nat.eq_of_testBit_eq
  intro j
  have reversed : (~~~x).toNat = 2 ^ 64 - (x.toNat + 1) := by
    have := x.toNat_lt
    rw [UInt64.toNat_not, UInt64.size]
    omega
  have place : 2 ^ w - 1 - lane w k x.toNat = 2 ^ w - (lane w k x.toNat + 1) := by omega
  rw [place, Nat.testBit_two_pow_sub_succ (lane_lt _ _ _), testBit_lane, testBit_lane, reversed,
    Nat.testBit_two_pow_sub_succ x.toNat_lt]
  by_cases low : j < w
  · have : w * k + j < 64 := by omega
    simp [low, this]
  · simp [low]

/-! ### Sums and differences without carries -/

theorem lane_add (w k x y : Nat) (small : ∀ j, lane w j x + lane w j y < 2 ^ w) :
    lane w k (x + y) = lane w k x + lane w k y := by
  have low := small 0
  rw [lane_zero, lane_zero] at low
  induction k generalizing x y with
  | zero =>
      rw [lane_zero, lane_zero, lane_zero, Nat.add_mod, Nat.mod_eq_of_lt low]
  | succ k ih =>
      have halves : (x + y) / 2 ^ w = x / 2 ^ w + y / 2 ^ w := by
        rw [Nat.add_div (Nat.two_pow_pos w), if_neg (by omega), Nat.add_zero]
      have rest : ∀ j, lane w j (x / 2 ^ w) + lane w j (y / 2 ^ w) < 2 ^ w := by
        intro j
        rw [← lane_succ, ← lane_succ]
        exact small (j + 1)
      have first := rest 0
      rw [lane_zero, lane_zero] at first
      rw [lane_succ, lane_succ, lane_succ, halves]
      exact ih _ _ rest first

theorem add_lt_of_lanes (w n x y : Nat) (hx : x < 2 ^ (w * n)) (hy : y < 2 ^ (w * n))
    (small : ∀ j, lane w j x + lane w j y < 2 ^ w) : x + y < 2 ^ (w * n) := by
  have low := small 0
  rw [lane_zero, lane_zero] at low
  induction n generalizing x y with
  | zero =>
      simp at hx hy
      simp [hx, hy]
  | succ n ih =>
      have whole : 2 ^ (w * (n + 1)) = 2 ^ (w * n) * 2 ^ w := by rw [Nat.mul_succ, Nat.pow_add]
      have rest : ∀ j, lane w j (x / 2 ^ w) + lane w j (y / 2 ^ w) < 2 ^ w := by
        intro j
        rw [← lane_succ, ← lane_succ]
        exact small (j + 1)
      have first := rest 0
      rw [lane_zero, lane_zero] at first
      rw [whole] at hx hy ⊢
      have high := ih (x / 2 ^ w) (y / 2 ^ w) (Nat.div_lt_of_lt_mul (by rwa [Nat.mul_comm]))
        (Nat.div_lt_of_lt_mul (by rwa [Nat.mul_comm])) rest first
      have halves : (x + y) / 2 ^ w = x / 2 ^ w + y / 2 ^ w := by
        rw [Nat.add_div (Nat.two_pow_pos w), if_neg (by omega), Nat.add_zero]
      rw [← halves] at high
      rwa [Nat.div_lt_iff_lt_mul (Nat.two_pow_pos w)] at high

theorem le_of_lanes (w x y : Nat) (wide : 0 < w) (below : ∀ j, lane w j y ≤ lane w j x) :
    y ≤ x := by
  induction y using Nat.strongRecOn generalizing x with
  | ind y ih =>
    by_cases none : y = 0
    · omega
    · have smaller : y / 2 ^ w < y :=
        Nat.div_lt_self (by omega) (Nat.one_lt_two_pow (by omega))
      have low := below 0
      rw [lane_zero, lane_zero] at low
      have high : y / 2 ^ w ≤ x / 2 ^ w := by
        apply ih _ smaller
        intro j
        rw [← lane_succ, ← lane_succ]
        exact below (j + 1)
      rw [← Nat.div_add_mod y (2 ^ w), ← Nat.div_add_mod x (2 ^ w)]
      exact Nat.add_le_add (Nat.mul_le_mul_left _ high) low

theorem lane_sub (w k x y : Nat) (wide : 0 < w) (below : ∀ j, lane w j y ≤ lane w j x) :
    lane w k (x - y) = lane w k x - lane w k y := by
  have low := below 0
  rw [lane_zero, lane_zero] at low
  have rest : ∀ j, lane w j (y / 2 ^ w) ≤ lane w j (x / 2 ^ w) := by
    intro j
    rw [← lane_succ, ← lane_succ]
    exact below (j + 1)
  -- No lane borrows, so the quotients may be subtracted on their own.
  have high := Nat.mul_le_mul_left (2 ^ w) (le_of_lanes w _ _ wide rest)
  have split : x - y = 2 ^ w * (x / 2 ^ w - y / 2 ^ w) + (x % 2 ^ w - y % 2 ^ w) := by
    have hx := Nat.div_add_mod x (2 ^ w)
    have hy := Nat.div_add_mod y (2 ^ w)
    rw [Nat.mul_sub]
    omega
  have small : x % 2 ^ w - y % 2 ^ w < 2 ^ w :=
    Nat.lt_of_le_of_lt (Nat.sub_le _ _) (Nat.mod_lt _ (Nat.two_pow_pos w))
  cases k with
  | zero =>
      rw [lane_zero, lane_zero, lane_zero, split, Nat.mul_add_mod, Nat.mod_eq_of_lt small]
  | succ k =>
      have halves : (x - y) / 2 ^ w = x / 2 ^ w - y / 2 ^ w := by
        rw [split, Nat.mul_add_div (Nat.two_pow_pos w), Nat.div_eq_of_lt small, Nat.add_zero]
      rw [lane_succ, lane_succ, lane_succ, halves]
      exact lane_sub w k _ _ wide rest

/-! ### The same number in every lane -/

/-- A one in each of `n` lanes. -/
def ones (w : Nat) : Nat → Nat
  | 0 => 0
  | n + 1 => 1 + 2 ^ w * ones w n

theorem ones_mul (w n : Nat) : ones w n * (2 ^ w - 1) + 1 = 2 ^ (w * n) := by
  induction n with
  | zero => simp [ones]
  | succ n ih =>
      have positive := Nat.two_pow_pos w
      have whole : 2 ^ (w * (n + 1)) = 2 ^ w * 2 ^ (w * n) := by
        rw [Nat.mul_succ, Nat.pow_add, Nat.mul_comm]
      rw [whole, ← ih, ones, Nat.add_mul, Nat.mul_assoc, Nat.mul_add]
      omega

theorem ones_mul_lt (w n v : Nat) (small : v < 2 ^ w) : ones w n * v < 2 ^ (w * n) := by
  have bound := Nat.mul_le_mul_left (ones w n) (by omega : v ≤ 2 ^ w - 1)
  have whole := ones_mul w n
  omega

theorem lane_ones_mul (w n k v : Nat) (small : v < 2 ^ w) :
    lane w k (ones w n * v) = if k < n then v else 0 := by
  induction n generalizing k with
  | zero => simp [ones, lane]
  | succ n ih =>
      have split : ones w (n + 1) * v = 2 ^ w * (ones w n * v) + v := by
        rw [ones, Nat.add_mul, Nat.mul_assoc]
        omega
      cases k with
      | zero => simp [lane_zero, split, Nat.mod_eq_of_lt small]
      | succ k =>
          rw [lane_succ, split, Nat.mul_add_div (Nat.two_pow_pos w), Nat.div_eq_of_lt small,
            Nat.add_zero, ih]
          simp

theorem lane_eq_zero (w n k x : Nat) (small : x < 2 ^ (w * n)) (outside : n ≤ k) :
    lane w k x = 0 := by
  have : x < 2 ^ (w * k) :=
    Nat.lt_of_lt_of_le small (Nat.pow_le_pow_right (by omega) (Nat.mul_le_mul_left w outside))
  rw [lane, Nat.div_eq_of_lt this, Nat.zero_mod]

/-! ### Words -/

/-- Widths of lanes that are more than one to a word. -/
def IsLaneWidth (w : Nat) : Prop := w ∈ Width.legal ∧ 0 < w ∧ w < 64

theorem IsLaneWidth.cases {w : Nat} (h : IsLaneWidth w) :
    w = 1 ∨ w = 2 ∨ w = 4 ∨ w = 8 ∨ w = 16 ∨ w = 32 := by
  obtain ⟨legal, positive, small⟩ := h
  simp [Width.legal] at legal
  omega

theorem IsLaneWidth.lanes {w : Nat} (h : IsLaneWidth w) : w * (64 / w) = 64 := by
  rcases h.cases with rfl | rfl | rfl | rfl | rfl | rfl <;> rfl

theorem IsLaneWidth.split {w : Nat} (h : IsLaneWidth w) : 2 ^ w = 2 ^ (w - 1) + 2 ^ (w - 1) := by
  rcases h.cases with rfl | rfl | rfl | rfl | rfl | rfl <;> rfl

namespace Search

theorem toNat_laneMask {w : Nat} (h : IsLaneWidth w) : (laneMask w).toNat = 2 ^ w - 1 := by
  rcases h.cases with rfl | rfl | rfl | rfl | rfl | rfl <;> rfl

theorem toNat_lowBits {w : Nat} (h : IsLaneWidth w) : (lowBits w).toNat = ones w (64 / w) := by
  rcases h.cases with rfl | rfl | rfl | rfl | rfl | rfl <;> rfl

theorem toNat_highBits {w : Nat} (h : IsLaneWidth w) :
    (highBits w).toNat = ones w (64 / w) * 2 ^ (w - 1) := by
  rcases h.cases with rfl | rfl | rfl | rfl | rfl | rfl <;> rfl

theorem lane_word_eq_zero {w k : Nat} (h : IsLaneWidth w) (x : UInt64) (outside : 64 / w ≤ k) :
    lane w k x.toNat = 0 := by
  apply lane_eq_zero w (64 / w) k _ _ outside
  rw [h.lanes]
  exact x.toNat_lt

theorem lane_lowBits_mul {w : Nat} (h : IsLaneWidth w) (v : UInt64) (small : v.toNat < 2 ^ w)
    (k : Nat) : lane w k (lowBits w * v).toNat = if k < 64 / w then v.toNat else 0 := by
  have bound := ones_mul_lt w (64 / w) v.toNat small
  rw [h.lanes] at bound
  rw [UInt64.toNat_mul, toNat_lowBits h, Nat.mod_eq_of_lt bound, lane_ones_mul _ _ _ _ small]

theorem lane_highBits {w : Nat} (h : IsLaneWidth w) (k : Nat) :
    lane w k (highBits w).toNat = if k < 64 / w then 2 ^ (w - 1) else 0 := by
  have split := h.split
  have positive := Nat.two_pow_pos (w - 1)
  rw [toNat_highBits h, lane_ones_mul _ _ _ _ (by omega)]

theorem lane_not_highBits {w : Nat} (h : IsLaneWidth w) (k : Nat) :
    lane w k (~~~(highBits w)).toNat = if k < 64 / w then 2 ^ (w - 1) - 1 else 0 := by
  have split := h.split
  by_cases inside : k < 64 / w
  · have place : w * k + w ≤ 64 := by
      rw [← h.lanes, ← Nat.mul_succ]
      exact Nat.mul_le_mul_left w inside
    rw [lane_not w k _ place, lane_highBits h, if_pos inside, if_pos inside]
    omega
  · rw [lane_word_eq_zero h _ (by omega), if_neg inside]

/-- The top bit of a lane tells whether the lane reaches half of its range. -/
theorem and_top {v y : Nat} (small : y < 2 ^ v + 2 ^ v) :
    y &&& 2 ^ v = if 2 ^ v ≤ y then 2 ^ v else 0 := by
  have bit : y.testBit v = decide (2 ^ v ≤ y) := by
    by_cases reached : 2 ^ v ≤ y
    · have quotient : y / 2 ^ v = 1 := by
        apply Nat.div_eq_of_lt_le <;> omega
      simp [Nat.testBit_eq_decide_div_mod_eq, quotient, reached]
    · have quotient : y / 2 ^ v = 0 := Nat.div_eq_of_lt (by omega)
      simp [Nat.testBit_eq_decide_div_mod_eq, quotient, reached]
  apply Nat.eq_of_testBit_eq
  intro j
  rw [Nat.testBit_and, Nat.testBit_two_pow]
  by_cases top : v = j
  · subst top
    by_cases reached : 2 ^ v ≤ y <;> simp [bit, reached]
  · by_cases reached : 2 ^ v ≤ y <;> simp [top, reached]

theorem lane_nonzeroLanes {w : Nat} (h : IsLaneWidth w) (x : UInt64) (k : Nat) :
    lane w k (nonzeroLanes w x).toNat = if lane w k x.toNat = 0 then 0 else 2 ^ (w - 1) := by
  have split := h.split
  have positive := Nat.two_pow_pos (w - 1)
  have cleared (j : Nat) : lane w j (x &&& ~~~(highBits w)).toNat =
      if j < 64 / w then lane w j x.toNat % 2 ^ (w - 1) else 0 := by
    rw [UInt64.toNat_and, lane_and, lane_not_highBits h]
    by_cases inside : j < 64 / w
    · rw [if_pos inside, if_pos inside, Nat.and_two_pow_sub_one_eq_mod]
    · rw [if_neg inside, if_neg inside, Nat.and_zero]
  -- The sum carries into the top bit of a lane exactly if some lower bit is set, and never beyond.
  have noCarry (j : Nat) : lane w j (x &&& ~~~(highBits w)).toNat +
      lane w j (~~~(highBits w)).toNat < 2 ^ w := by
    have := Nat.mod_lt (lane w j x.toNat) positive
    rw [cleared, lane_not_highBits h]
    by_cases inside : j < 64 / w
    · rw [if_pos inside, if_pos inside]
      omega
    · rw [if_neg inside, if_neg inside]
      omega
  have total : (x &&& ~~~(highBits w)).toNat + (~~~(highBits w)).toNat < 2 ^ 64 := by
    rw [← h.lanes]
    apply add_lt_of_lanes w (64 / w) _ _ _ _ noCarry <;> rw [h.lanes] <;>
      exact UInt64.toNat_lt _
  have sum : ((x &&& ~~~(highBits w)) + ~~~(highBits w)).toNat =
      (x &&& ~~~(highBits w)).toNat + (~~~(highBits w)).toNat := by
    rw [UInt64.toNat_add, Nat.mod_eq_of_lt total]
  by_cases inside : k < 64 / w
  · have bound := lane_lt w k x.toNat
    have low := Nat.mod_lt (lane w k x.toNat) positive
    rw [nonzeroLanes, UInt64.toNat_and, lane_and, UInt64.toNat_or, lane_or, sum,
      lane_add _ _ _ _ noCarry, cleared, lane_not_highBits h, lane_highBits h, if_pos inside,
      if_pos inside, if_pos inside, Nat.and_or_distrib_right, and_top (by omega),
      and_top (by omega)]
    -- A set top bit alone makes the lane nonzero; otherwise the carry tells.
    by_cases reached : 2 ^ (w - 1) ≤ lane w k x.toNat
    · have : lane w k x.toNat ≠ 0 := by omega
      by_cases rest : 2 ^ (w - 1) ≤ lane w k x.toNat % 2 ^ (w - 1) + (2 ^ (w - 1) - 1) <;>
        simp [reached, rest, this]
    · rw [Nat.mod_eq_of_lt (by omega : lane w k x.toNat < 2 ^ (w - 1)), if_neg reached, Nat.or_zero]
      by_cases none : lane w k x.toNat = 0
      · rw [if_neg (by omega), if_pos none]
      · rw [if_pos (by omega), if_neg none]
  · rw [lane_word_eq_zero h _ (by omega), lane_word_eq_zero h _ (by omega), if_pos rfl]

/-- One bit at the top of every lane that `hit` holds of. -/
def TopBits (w : Nat) (hits : UInt64) (hit : Nat → Bool) : Prop :=
  ∀ k, k < 64 / w → lane w k hits.toNat = if hit k then 2 ^ (w - 1) else 0

theorem TopBits.congr {w : Nat} {bits : UInt64} {hit hit' : Nat → Bool} (top : TopBits w bits hit)
    (same : ∀ k, k < 64 / w → hit k = hit' k) : TopBits w bits hit' := by
  intro k inside
  rw [top k inside, same k inside]

theorem topBits_flip {w : Nat} (h : IsLaneWidth w) {hits : UInt64} {hit : Nat → Bool}
    (top : TopBits w hits hit) : TopBits w (~~~hits &&& highBits w) fun k => !hit k := by
  intro k inside
  have split := h.split
  have positive := Nat.two_pow_pos (w - 1)
  have place : w * k + w ≤ 64 := by
    rw [← h.lanes, ← Nat.mul_succ]
    exact Nat.mul_le_mul_left w inside
  rw [UInt64.toNat_and, lane_and, lane_not w k _ place, lane_highBits h, if_pos inside,
    top k inside]
  cases value : hit k with
  | false =>
      rw [and_top (by simp; omega), if_pos (by simp; omega)]
      simp [value]
  | true =>
      rw [and_top (by simp; omega), if_neg (by simp; omega)]
      simp [value]

/-- Lanes that equal the needle cut to the width, or those that do not. -/
theorem topBits_equality {w : Nat} (h : IsLaneWidth w) (equal : Bool) (needle : Int64)
    (word : UInt64) : TopBits w (equalityHits w equal needle word) fun k =>
      (lane w k word.toNat == needle.toUInt64.toNat % 2 ^ w) == equal := by
  have cut : (needle.toUInt64 &&& laneMask w).toNat = needle.toUInt64.toNat % 2 ^ w := by
    rw [UInt64.toNat_and, toNat_laneMask h, Nat.and_two_pow_sub_one_eq_mod]
  have small : (needle.toUInt64 &&& laneMask w).toNat < 2 ^ w := by
    rw [cut]
    exact Nat.mod_lt _ (Nat.two_pow_pos w)
  -- A lane of the difference is zero where the two agree.
  have different : TopBits w
      (nonzeroLanes w (word ^^^ lowBits w * (needle.toUInt64 &&& laneMask w)))
      fun k => !(lane w k word.toNat == needle.toUInt64.toNat % 2 ^ w) := by
    intro k inside
    rw [lane_nonzeroLanes h, UInt64.toNat_xor, lane_xor, lane_lowBits_mul h _ small, if_pos inside,
      cut]
    by_cases same : lane w k word.toNat = needle.toUInt64.toNat % 2 ^ w
    · simp [same]
    · have different : lane w k word.toNat ^^^ needle.toUInt64.toNat % 2 ^ w ≠ 0 := by
        intro zero
        apply same
        apply Nat.eq_of_testBit_eq
        intro j
        have bits := congrArg (·.testBit j) zero
        simpa using bits
      simp [same, different]
  cases equal
  · simpa [equalityHits] using different
  · simpa [equalityHits] using topBits_flip h different

theorem lane_of_clear {w : Nat} (h : IsLaneWidth w) (word : UInt64)
    (clear : word &&& highBits w = 0) (j : Nat) : lane w j word.toNat < 2 ^ (w - 1) := by
  have split := h.split
  have positive := Nat.two_pow_pos (w - 1)
  by_cases inside : j < 64 / w
  · have zero := congrArg (fun x => lane w j x.toNat) clear
    have bound := lane_lt w j word.toNat
    simp only [UInt64.toNat_and, lane_and, lane_highBits h, if_pos inside] at zero
    rw [and_top (by omega)] at zero
    by_cases reached : 2 ^ (w - 1) ≤ lane w j word.toNat
    · rw [if_pos reached] at zero
      simp [lane] at zero
    · omega
  · rw [lane_word_eq_zero h _ (by omega)]
    exact positive

/-- With all top bits clear, the lanes that reach the threshold of the comparison. -/
theorem topBits_relation {w : Nat} (h : IsLaneWidth w) (greater : Bool) (needle : Int64)
    (word : UInt64) (clear : word &&& highBits w = 0)
    (small : (if greater then needle + 1 else needle).toUInt64.toNat < 2 ^ (w - 1)) :
    TopBits w (relationHits w greater needle word) fun k =>
      decide ((if greater then needle + 1 else needle).toUInt64.toNat ≤ lane w k word.toNat) ==
        greater := by
  have split := h.split
  have positive := Nat.two_pow_pos (w - 1)
  obtain ⟨threshold, cut⟩ :
      ∃ t, (if greater then needle + 1 else needle).toUInt64 = t := ⟨_, rfl⟩
  rw [cut] at small ⊢
  have low (j : Nat) : lane w j word.toNat < 2 ^ (w - 1) := lane_of_clear h word clear j
  -- Every top bit is set before the threshold is subtracted, so no lane borrows from the next.
  have raised (j : Nat) : lane w j (word ||| highBits w).toNat =
      lane w j word.toNat + if j < 64 / w then 2 ^ (w - 1) else 0 := by
    rw [UInt64.toNat_or, lane_or, lane_highBits h]
    by_cases inside : j < 64 / w
    · rw [if_pos inside, Nat.or_two_pow_eq_add_of_lt (low j)]
    · simp [inside]
  have below (j : Nat) :
      lane w j (lowBits w * threshold).toNat ≤ lane w j (word ||| highBits w).toNat := by
    rw [lane_lowBits_mul h _ (by omega), raised]
    by_cases inside : j < 64 / w
    · rw [if_pos inside, if_pos inside]
      omega
    · rw [if_neg inside]
      exact Nat.zero_le _
  have wide : 0 < w := h.2.1
  have difference : ((word ||| highBits w) - lowBits w * threshold).toNat =
      (word ||| highBits w).toNat - (lowBits w * threshold).toNat := by
    have := le_of_lanes w _ _ wide below
    rw [UInt64.toNat_sub_of_le]
    exact this
  have reached : TopBits w (((word ||| highBits w) - lowBits w * threshold) &&& highBits w)
      fun k => decide (threshold.toNat ≤ lane w k word.toNat) := by
    intro k inside
    have := low k
    rw [UInt64.toNat_and, lane_and, difference, lane_sub _ _ _ _ wide below, raised,
      lane_lowBits_mul h _ (by omega), lane_highBits h, if_pos inside, if_pos inside,
      and_top (by omega)]
    by_cases enough : threshold.toNat ≤ lane w k word.toNat
    · rw [if_pos (by omega)]
      simp [enough]
    · rw [if_neg (by omega)]
      simp [enough]
  cases greater with
  | false =>
      have cut : needle.toUInt64 = threshold := cut
      simpa [relationHits, cut] using topBits_flip h reached
  | true =>
      have cut : (needle + 1).toUInt64 = threshold := cut
      simp only [relationHits, if_true, cut, beq_true]
      exact reached

end Search

end ColumnStore
