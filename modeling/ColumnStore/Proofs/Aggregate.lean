import ColumnStore.Node.Aggregate
import ColumnStore.Proofs.ColumnSearch
import Mathlib.Algebra.Ring.Int.Defs

set_option autoImplicit false

/-!
Sums and extremes of a node are those of its elements one by one. Below eight bits a whole word is
summed by bit planes, which count every lane's bit with its weight.
-/
namespace ColumnStore

/-- The sum of values modulo 2^64. -/
def wrappingSum (vs : List Int64) : Int64 := .ofInt (vs.map Int64.toInt).sum

@[simp] theorem wrappingSum_nil : wrappingSum [] = 0 := rfl

@[simp] theorem wrappingSum_cons (v : Int64) (vs : List Int64) :
    wrappingSum (v :: vs) = v + wrappingSum vs := by
  rw [wrappingSum, List.map_cons, List.sum_cons, Int64.ofInt_add, Int64.ofInt_toInt]
  rfl

theorem wrappingSum_append (vs ws : List Int64) :
    wrappingSum (vs ++ ws) = wrappingSum vs + wrappingSum ws := by
  rw [wrappingSum, List.map_append, List.sum_append, Int64.ofInt_add]
  rfl

theorem wrappingSum_zeros (n : Nat) : wrappingSum (List.replicate n 0) = 0 := by
  induction n with
  | zero => rfl
  | succ n ih => rw [List.replicate_succ, wrappingSum_cons, ih, Int64.zero_add]

/-- A sum of natural numbers may be taken before or after they are cut to 64 bits. -/
theorem wrappingSum_ofNat (xs : List Nat) :
    wrappingSum (xs.map Int64.ofNat) = Int64.ofNat xs.sum := by
  induction xs with
  | nil => rfl
  | cons x xs ih => rw [List.map_cons, wrappingSum_cons, ih, List.sum_cons, Int64.ofNat_add]

/-! ### Bit planes -/

namespace Search

/-- A one at the bottom of every lane that `hit` holds of. -/
theorem length_filter_lowBit {w : Nat} (h : IsLaneWidth w) {bits : UInt64} {hit : Nat → Bool}
    (low : ∀ k < 64 / w, lane w k bits.toNat = (hit k).toNat) (n : Nat) (bound : n ≤ 64 / w) :
    ((List.range (w * n)).filter (hasBit bits)).length = ((List.range n).filter hit).length := by
  have wide : 0 < w := h.2.1
  induction n with
  | zero => rfl
  | succ n ih =>
      have inside : w * n + w ≤ 64 := by
        rw [← h.lanes, ← Nat.mul_succ]
        exact Nat.mul_le_mul_left w bound
      have bit (j : Nat) (small : j < w) :
          hasBit bits (w * n + j) = (hit n && decide (j = 0)) := by
        have := testBit_lane w n bits.toNat j
        rw [low n (by omega), decide_eq_true small, Bool.true_and] at this
        rw [hasBit_eq_testBit _ _ (by omega), ← this]
        cases hit n <;> cases j <;> simp [Nat.testBit_succ]
      -- Of the bits of lane `n` only the lowest one can be set.
      have last : (((List.range w).map (w * n + ·)).filter (hasBit bits)).length = (hit n).toNat := by
        have whole : List.range w = 0 :: (List.range (w - 1)).map Nat.succ := by
          rw [← List.range_succ_eq_map, Nat.sub_add_cancel wide]
        have clear : (((List.range (w - 1)).map Nat.succ).map (w * n + ·)).filter (hasBit bits) = [] := by
          rw [List.filter_eq_nil_iff]
          intro b member
          simp only [List.mem_map, List.mem_range] at member
          obtain ⟨_, ⟨j, small, rfl⟩, rfl⟩ := member
          rw [bit _ (by omega)]
          simp
        rw [whole, List.map_cons, List.filter_cons, clear, bit 0 wide]
        cases hit n <;> rfl
      rw [Nat.mul_succ, List.range_add, List.filter_append, List.length_append, ih (by omega), last,
        List.range_succ, List.filter_append, List.length_append]
      cases here : hit n <;> simp [here]

/-- The lanes of a word. -/
def lanesOf (w : Nat) (word : UInt64) : List Nat :=
  (List.range (64 / w)).map fun k => lane w k word.toNat

theorem popCount_plane {w bit : Nat} (h : IsLaneWidth w) (word : UInt64) (small : bit < w) :
    Receiver.popCount ((word >>> UInt64.ofNat bit) &&& lowBits w) =
      ((lanesOf w word).filter (·.testBit bit)).length := by
  have amount : (UInt64.ofNat bit).toNat % 64 = bit := by
    have := h.2.2
    simp
    omega
  have one : lowBits w = lowBits w * 1 := (UInt64.mul_one _).symm
  have low (k : Nat) (inside : k < 64 / w) :
      lane w k ((word >>> UInt64.ofNat bit) &&& lowBits w).toNat =
        ((lane w k word.toNat).testBit bit).toNat := by
    have unit : (1 : UInt64).toNat < 2 ^ w := Nat.one_lt_two_pow (by omega)
    have first := testBit_lane w k (word >>> UInt64.ofNat bit).toNat 0
    rw [UInt64.toNat_shiftRight, amount, Nat.testBit_shiftRight, Nat.add_zero, Nat.add_comm bit,
      decide_eq_true (by omega : 0 < w), Bool.true_and] at first
    rw [UInt64.toNat_and, lane_and, one, lane_lowBits_mul h 1 unit, if_pos inside,
      show (1 : UInt64).toNat = 1 from rfl, Nat.and_one_is_mod, testBit_lane, decide_eq_true small,
      Bool.true_and, ← first, UInt64.toNat_shiftRight, amount, Nat.testBit_zero]
    rcases Nat.mod_two_eq_zero_or_one (lane w k (word.toNat >>> bit)) with even | odd
    · simp [even]
    · simp [odd]
  have count := length_filter_lowBit h low (64 / w) (Nat.le_refl _)
  rw [h.lanes] at count
  rw [Receiver.popCount, Receiver.bitCount_eq _ (Nat.le_refl 64), count, lanesOf, List.filter_map,
    List.length_map]
  rfl

/-- The next plane adds its bit of every number. -/
theorem sum_mod_two_pow_succ (xs : List Nat) (n : Nat) :
    (xs.map (· % 2 ^ (n + 1))).sum =
      (xs.map (· % 2 ^ n)).sum + (xs.filter (·.testBit n)).length * 2 ^ n := by
  induction xs with
  | nil => simp
  | cons x xs ih =>
      have next : x % 2 ^ (n + 1) = x % 2 ^ n + (x.testBit n).toNat * 2 ^ n := by
        rw [Nat.pow_succ, Nat.mod_mul, Nat.testBit_eq_decide_div_mod_eq, Nat.mul_comm]
        rcases Nat.mod_two_eq_zero_or_one (x / 2 ^ n) with even | odd
        · simp [even]
        · simp [odd]
      rw [List.map_cons, List.sum_cons, ih, next, List.map_cons, List.sum_cons, List.filter_cons]
      cases x.testBit n
      · simp only [Bool.toNat_false, Bool.false_eq_true, if_false]
        omega
      · simp only [Bool.toNat_true, if_true, List.length_cons, Nat.add_mul]
        omega

end Search

theorem ofNat_shiftLeft (x : Nat) {n : Nat} (small : n < 64) :
    Int64.ofNat x <<< Int64.ofNat n = Int64.ofNat (x * 2 ^ n) := by
  have amount : ∀ d, d < 64 → (Int64.ofNat d).toBitVec.smod 64 = BitVec.ofNat 64 d := by decide
  rw [← Int64.toBitVec_inj, Int64.toBitVec_shiftLeft, amount n small, BitVec.shiftLeft_eq',
    BitVec.toNat_ofNat, Nat.mod_eq_of_lt (by omega), ← BitVec.toNat_inj, BitVec.toNat_shiftLeft,
    Nat.shiftLeft_eq]
  show x % 2 ^ 64 * 2 ^ n % 2 ^ 64 = x * 2 ^ n % 2 ^ 64
  rw [Nat.mod_mul_mod]

namespace Node

open Search (lanesOf)

variable {m : Memory} {n : Node}

theorem planeSum_eq {w : Nat} (h : IsLaneWidth w) (word : UInt64) {planes : Nat} (bound : planes ≤ w) :
    planeSum w word planes = Int64.ofNat ((lanesOf w word).map (· % 2 ^ planes)).sum := by
  induction planes with
  | zero => simp [planeSum, Nat.mod_one]
  | succ bit ih =>
      have := h.2.2
      rw [planeSum, ih (by omega), Search.popCount_plane h word (by omega), ofNat_shiftLeft _ (by omega),
        Search.sum_mod_two_pow_succ, Int64.ofNat_add]

/-- All planes of a word give the sum of its lanes. -/
theorem planeSum_lanes {w : Nat} (h : IsLaneWidth w) (word : UInt64) :
    planeSum w word w = Int64.ofNat (lanesOf w word).sum := by
  have whole : (lanesOf w word).map (· % 2 ^ w) = lanesOf w word := by
    rw [lanesOf, List.map_map]
    exact List.map_congr_left fun k _ => Nat.mod_eq_of_lt (lane_lt w k word.toNat)
  rw [planeSum_eq h word (Nat.le_refl w), whole]

/-- Below eight bits the lanes of a word are the elements. -/
theorem map_get_word (h : IsLaneWidth n.width) (narrow : n.width < 8) {i : Nat}
    (whole : i % (64 / n.width) = 0) :
    (List.range' i (64 / n.width)).map (n.get m) =
      (lanesOf n.width (m.word (n.data + i * n.width / 8))).map Int64.ofNat := by
  rw [List.range'_eq_map_range, lanesOf, List.map_map, List.map_map]
  refine List.map_congr_left fun k member => ?_
  have inside := List.mem_range.mp member
  have value := Memory.toInt_element m n.data n.width (i + k) h.1
  have lane := Search.lane_wordAt (n.search m .count .equal 0 0) h i k whole inside
  have small := lane_lt n.width k (m.word (n.data + i * n.width / 8)).toNat
  have bound : 2 ^ n.width < 2 ^ 8 := Nat.pow_lt_pow_right (by omega) narrow
  rw [Memory.decode, if_pos narrow] at value
  rw [Function.comp, Function.comp, ← Int64.toInt_inj, Int64.toInt_ofNat_of_lt (by omega)]
  exact value.trans (congrArg Nat.cast lane.symm)

/-! ### Sums -/

theorem sumFrom_eq (count i : Nat) (total : Int64) :
    sumFrom m n count i total = total + wrappingSum ((List.range' i count).map (n.get m)) := by
  induction count generalizing i total with
  | zero => simp [sumFrom]
  | succ count ih =>
      rw [sumFrom, ih, List.range'_succ, List.map_cons, wrappingSum_cons, Int64.add_assoc]

theorem sumWords_eq (h : IsLaneWidth n.width) (narrow : n.width < 8) (count i : Nat)
    (whole : i % (64 / n.width) = 0) (total : Int64) :
    sumWords m n count i total =
      total + wrappingSum ((List.range' i (count * (64 / n.width))).map (n.get m)) := by
  induction count generalizing i total with
  | zero => simp [sumWords]
  | succ count ih =>
      have next : (i + 64 / n.width) % (64 / n.width) = 0 := by rw [Nat.add_mod_right, whole]
      have parts : List.range' i ((count + 1) * (64 / n.width)) =
          List.range' i (64 / n.width) ++ List.range' (i + 64 / n.width) (count * (64 / n.width)) := by
        rw [Nat.succ_mul, Nat.add_comm (count * _), List.range'_append_1]
      rw [sumWords, ih _ next, parts, List.map_append, wrappingSum_append, map_get_word h narrow whole,
        wrappingSum_ofNat, ← planeSum_lanes h, Int64.add_assoc]

theorem sumRange_eq (legal : n.width ∈ Width.legal) {start stop : Nat} (ordered : start ≤ stop) :
    n.sumRange m start stop = wrappingSum ((List.range' start (stop - start)).map (n.get m)) := by
  rw [sumRange]
  by_cases none : n.width = 0
  · have zero (i : Nat) : n.get m i = 0 := by simp [Node.get, Memory.element, none]
    have zeros : (List.range' start (stop - start)).map (n.get m) =
        List.replicate (stop - start) 0 := by
      rw [List.map_congr_left fun i _ => zero i, List.map_const', List.length_range']
    rw [if_pos none, zeros, wrappingSum_zeros]
  · by_cases narrow : n.width < 8
    · have h : IsLaneWidth n.width := ⟨legal, by omega, by omega⟩
      have lanes : 0 < 64 / n.width := Nat.div_pos (by omega) (by omega)
      rw [if_neg none, if_pos narrow]
      simp only
      rw [sumFrom_eq, sumFrom_eq, Int64.zero_add]
      generalize rounded : (start + 64 / n.width - 1) / (64 / n.width) * (64 / n.width) = up
      have above : start ≤ up := by
        have := Nat.div_add_mod (start + 64 / n.width - 1) (64 / n.width)
        have := Nat.mod_lt (start + 64 / n.width - 1) lanes
        rw [← rounded, Nat.mul_comm]
        omega
      generalize first : min up stop = middle
      generalize number : (stop - middle) / (64 / n.width) = count
      have fits : count * (64 / n.width) ≤ stop - middle := by
        rw [← number]
        exact Nat.div_mul_le_self _ _
      have words : sumWords m n count middle
            (wrappingSum ((List.range' start (middle - start)).map (n.get m))) =
          wrappingSum ((List.range' start (middle - start)).map (n.get m)) +
            wrappingSum ((List.range' middle (count * (64 / n.width))).map (n.get m)) := by
        by_cases aligned : up ≤ stop
        · refine sumWords_eq h narrow count middle ?_ _
          rw [← first, Nat.min_eq_left aligned, ← rounded, Nat.mul_mod_left]
        · have empty : count = 0 := by
            rw [← number, ← first, Nat.min_eq_right (by omega), Nat.sub_self, Nat.zero_div]
          simp [empty, sumWords]
      have parts : List.range' start (stop - start) =
          List.range' start (middle - start) ++ (List.range' middle (count * (64 / n.width)) ++
            List.range' (middle + count * (64 / n.width))
              (stop - (middle + count * (64 / n.width)))) := by
        have split : stop - start = (middle - start) + (count * (64 / n.width) +
            (stop - (middle + count * (64 / n.width)))) := by omega
        have back : start + (middle - start) = middle := by omega
        rw [split, ← List.range'_append_1, back, ← List.range'_append_1]
      rw [words, parts, List.map_append, List.map_append, wrappingSum_append, wrappingSum_append,
        Int64.add_assoc]
    · rw [if_neg none, if_neg narrow, sumFrom_eq, Int64.zero_add]

theorem sum_eq (legal : n.width ∈ Width.legal) (start : Nat) (stop : Option Nat) :
    n.sum m start stop =
      wrappingSum ((List.range' start (stopOf n.size stop - start)).map (n.get m)) := by
  rw [sum]
  split
  next some => exact sumRange_eq legal (Nat.le_of_lt some)
  next none =>
    rw [Nat.sub_eq_zero_of_le (by omega)]
    rfl

end Node

/-! ### Extremes -/

/-- A strict order in which values that are not better than one another are equal. -/
structure Ranks {α : Type} (better : α → α → Bool) : Prop where
  asymm : ∀ {a b}, better a b → better b a = false
  trans : ∀ {a b c}, better a b → better b c → better a c
  connex : ∀ {a b}, better a b = false → better b a = false → a = b

theorem ranks_less : Ranks fun v best : Int64 => decide (v < best) where
  asymm := by simp only [decide_eq_true_eq, decide_eq_false_iff_not, Int64.lt_iff_toInt_lt]; omega
  trans := by simp only [decide_eq_true_eq, Int64.lt_iff_toInt_lt]; omega
  connex := by
    simp only [decide_eq_false_iff_not, Int64.lt_iff_toInt_lt, ← Int64.toInt_inj]
    omega

theorem ranks_greater : Ranks fun v best : Int64 => decide (v > best) where
  asymm := ranks_less.asymm
  trans first next := ranks_less.trans next first
  connex first next := (ranks_less.connex first next).symm

/-- The best value of some rows and the first row that has it. -/
structure FirstBest {α : Type} (better : α → α → Bool) (get : Nat → α) (rows : List Nat)
    (b : α × Nat) : Prop where
  inside : b.2 ∈ rows
  value : get b.2 = b.1
  best : ∀ row ∈ rows, better (get row) b.1 = false
  first : ∀ row ∈ rows, row < b.2 → better b.1 (get row)

/-- There is no best value exactly if there are no rows. -/
def Extreme {α : Type} (better : α → α → Bool) (get : Nat → α) (rows : List Nat) :
    Option (α × Nat) → Prop
  | none => rows = []
  | some best => FirstBest better get rows best

theorem Extreme.congr {α : Type} {better : α → α → Bool} {get get' : Nat → α} {rows : List Nat}
    {best : Option (α × Nat)} (here : Extreme better get rows best)
    (same : ∀ row ∈ rows, get row = get' row) : Extreme better get' rows best := by
  cases best with
  | none => exact here
  | some b =>
      refine ⟨here.inside, same _ here.inside ▸ here.value, fun row inside => ?_,
        fun row inside before => ?_⟩
      · rw [← same row inside]
        exact here.best row inside
      · rw [← same row inside]
        exact here.first row inside before

section Extremes

variable {α : Type} {better : α → α → Bool} {get : Nat → α} {rows later : List Nat}
  {best next : α × Nat} (ranks : Ranks better)
include ranks

theorem firstBest_start {start : Nat} (count : Nat)
    (same : ∀ row ∈ List.range' start (count + 1), get row = get start) :
    FirstBest better get (List.range' start (count + 1)) (get start, start) where
  inside := List.mem_range'_1.mpr (by omega)
  value := rfl
  best row inside := by
    rw [same row inside]
    cases irreflexive : better (get start) (get start) with
    | false => rfl
    | true => exact (ranks.asymm irreflexive).symm.trans irreflexive |>.symm
  first row inside before := by
    have := (List.mem_range'_1.mp inside).1
    omega

/-- Of two bests the earlier one wins unless the later one is better. -/
theorem FirstBest.append (here : FirstBest better get rows best)
    (there : FirstBest better get later next) (after : ∀ i ∈ rows, ∀ j ∈ later, i < j) :
    FirstBest better get (rows ++ later) (if better next.1 best.1 then next else best) := by
  by_cases improves : better next.1 best.1
  · rw [if_pos improves]
    refine ⟨List.mem_append_right _ there.inside, there.value, ?_, ?_⟩
    · refine List.forall_mem_append.mpr ⟨fun row inside => ?_, there.best⟩
      by_contra other
      have := ranks.trans (Bool.not_eq_false _ ▸ other) improves
      rw [here.best row inside] at this
      cases this
    · refine List.forall_mem_append.mpr ⟨fun row inside _ => ?_, there.first⟩
      have worse := here.best row inside
      cases above : better best.1 (get row) with
      | true => exact ranks.trans improves above
      | false => rwa [← ranks.connex above worse]
  · rw [if_neg improves]
    refine ⟨List.mem_append_left _ here.inside, here.value, ?_, ?_⟩
    · refine List.forall_mem_append.mpr ⟨here.best, fun row inside => ?_⟩
      have worse := there.best row inside
      by_contra other
      have other : better (get row) best.1 = true := Bool.not_eq_false _ ▸ other
      cases above : better next.1 (get row) with
      | true => exact improves (ranks.trans above other)
      | false =>
          rw [← ranks.connex above worse] at other
          exact improves other
    · refine List.forall_mem_append.mpr ⟨here.first, fun row inside before => ?_⟩
      exact absurd (after _ here.inside _ inside) (by omega)

theorem firstBest_extremeFrom (count i : Nat) (here : FirstBest better get rows best)
    (before : ∀ row ∈ rows, row < i) :
    FirstBest better get (rows ++ List.range' i count) (Node.extremeFrom get better count i best) := by
  induction count generalizing i rows best with
  | zero => simpa [Node.extremeFrom] using here
  | succ count ih =>
      have one : FirstBest better get [i] (get i, i) := firstBest_start ranks 0 (by simp)
      have joined := FirstBest.append ranks here one (by simpa using before)
      have rest := ih (i + 1) joined (by
        simp only [List.mem_append, List.mem_singleton]
        rintro row (inside | rfl)
        · have := before row inside
          omega
        · omega)
      rwa [List.append_assoc, List.singleton_append, ← List.range'_succ] at rest

end Extremes

theorem Node.extreme_eq {m : Memory} {n : Node} {better : Int64 → Int64 → Bool}
    (ranks : Ranks better) (start : Nat) (stop : Option Nat) :
    Extreme better (n.get m) (List.range' start (stopOf n.size stop - start))
      (n.extreme m better start stop) := by
  rw [extreme]
  by_cases some : start < stopOf n.size stop
  · simp only [if_pos some]
    have count : stopOf n.size stop - start = stopOf n.size stop - (start + 1) + 1 := by omega
    rw [count]
    by_cases none : n.width = 0
    · rw [if_pos none]
      have zero (i : Nat) : n.get m i = 0 := by simp [Node.get, Memory.element, none]
      exact firstBest_start ranks _ fun row _ => by rw [zero, zero]
    · rw [if_neg none]
      have one : FirstBest better (n.get m) [start] (n.get m start, start) :=
        firstBest_start ranks 0 (by simp)
      exact firstBest_extremeFrom ranks _ _ one (by simp)
  · simp only [if_neg some]
    rw [Nat.sub_eq_zero_of_le (by omega)]
    rfl

end ColumnStore
