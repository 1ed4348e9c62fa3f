import ColumnStore.Proofs.Ends
import Mathlib.Order.Bounds.Basic

set_option autoImplicit false

/-!
Searches in an ascending node. Halving ends at the number of elements that come before the place,
and a search from a start on is a halving of the bracket that galloping leaves.
-/
namespace ColumnStore

/-! ### Lists whose last values pass a test -/

section Passes

variable {α : Type} {vs : List α} {passes : α → Bool}
  (sorted : vs.Pairwise fun v w => passes v → passes w)
include sorted

theorem fails_iff_lt_findIdx {i : Nat} (inside : i < vs.length) :
    passes vs[i] = false ↔ i < vs.findIdx passes := by
  constructor
  · intro fails
    by_contra reached
    have found : vs.findIdx passes < vs.length := by omega
    have first := List.findIdx_getElem (w := found)
    rcases Nat.lt_or_eq_of_le (Nat.not_lt.mp reached) with before | same
    · have := List.pairwise_iff_getElem.mp sorted _ _ found inside before first
      rw [fails] at this
      cases this
    · simp only [same, fails] at first
      cases first
  · intro before
    simpa using List.not_of_lt_findIdx before

theorem findIdx_eq_countP : vs.findIdx passes = vs.countP (!passes ·) := by
  induction vs with
  | nil => rfl
  | cons v vs ih =>
      obtain ⟨later, sorted⟩ := List.pairwise_cons.mp sorted
      rw [List.findIdx_cons, List.countP_cons, ih sorted]
      cases first : passes v with
      | false => rfl
      | true =>
          -- If the first value passes, they all do.
          have none : vs.countP (!passes ·) = 0 := by
            rw [List.countP_eq_zero]
            exact fun w member => by simp [later w member first]
          rw [none]
          rfl

theorem bisect_eq_findIdx {get : Nat → α} (read : ∀ i (inside : i < vs.length), get i = vs[i]) :
    bisect (fun i => !passes (get i)) 0 vs.length = vs.findIdx passes := by
  refine bisect_eq (Nat.zero_le _) List.findIdx_le_length fun i _ inside => ?_
  rw [read i inside, Bool.not_eq_true']
  exact fails_iff_lt_findIdx sorted inside

end Passes

/-! ### Galloping -/

/-- Galloping brackets the place where `before` stops to hold. -/
theorem gallop_brackets {before : Nat → Bool} {size start lo k : Nat}
    (split : ∀ i, start ≤ i → i < size → (before i = true ↔ i < k)) (upper : k ≤ size)
    (begun : start ≤ lo) (lower : lo ≤ k) (distance : Nat) :
    start ≤ (gallop before size start distance lo).1 ∧
      (gallop before size start distance lo).1 ≤ k ∧
      k ≤ (gallop before size start distance lo).2 := by
  -- The lower end follows the last place where `before` held; the upper end is the first probe that
  -- went beyond it.
  fun_induction gallop before size start distance lo with
  | case1 distance lo inside holds ih =>
      have := (split (start + distance) (Nat.le_add_right ..) inside).mp holds
      exact ih (by omega) this
  | case2 distance lo inside fails =>
      have := mt (split (start + distance) (Nat.le_add_right ..) inside).mpr fails
      exact ⟨begun, lower, Nat.not_lt.mp this⟩
  | case3 distance lo outside =>
      exact ⟨begun, lower, Nat.le_trans upper (Nat.not_lt.mp outside)⟩

/-! ### Bounds -/

section Bounds

variable {vs : List Int64} (sorted : vs.Pairwise (· ≤ ·)) (v : Int64)

theorem not_decide_le (v w : Int64) : (!decide (v ≤ w)) = decide (w < v) := by
  rw [← decide_not, decide_eq_decide]
  exact Int64.not_le

theorem not_decide_lt (v w : Int64) : (!decide (v < w)) = decide (w ≤ v) := by
  rw [← decide_not, decide_eq_decide]
  exact Int64.not_lt

include sorted

theorem ascends_le : vs.Pairwise fun a b => decide (v ≤ a) → decide (v ≤ b) :=
  sorted.imp fun le first => decide_eq_true (Int64.le_trans (of_decide_eq_true first) le)

theorem ascends_lt : vs.Pairwise fun a b => decide (v < a) → decide (v < b) :=
  sorted.imp fun le first => decide_eq_true (Int64.lt_of_lt_of_le (of_decide_eq_true first) le)

end Bounds

namespace Node

variable {m : Memory} {n : Node}

theorem getElem_toList {i : Nat} (inside : i < (n.toList m).length) :
    (n.toList m)[i] = n.get m i := by
  simp [toList]

section Ascending

variable (sorted : (n.toList m).Pairwise (· ≤ ·)) (v : Int64)
include sorted

theorem lowerBound_eq : n.lowerBound m v = (n.toList m).findIdx (v ≤ ·) := by
  have halved := bisect_eq_findIdx (ascends_le sorted v) fun i inside => (getElem_toList inside).symm
  simp only [not_decide_le, length_toList] at halved
  exact halved

theorem upperBound_eq : n.upperBound m v = (n.toList m).findIdx (v < ·) := by
  have halved := bisect_eq_findIdx (ascends_lt sorted v) fun i inside => (getElem_toList inside).symm
  simp only [not_decide_lt, length_toList] at halved
  exact halved

theorem lowerBound_le : n.lowerBound m v ≤ n.size := by
  rw [lowerBound_eq sorted, ← length_toList m n]
  exact List.findIdx_le_length

theorem get_lt_iff {i : Nat} (inside : i < n.size) : n.get m i < v ↔ i < n.lowerBound m v := by
  have inside : i < (n.toList m).length := by rwa [length_toList]
  rw [lowerBound_eq sorted, ← fails_iff_lt_findIdx (ascends_le sorted v) inside,
    getElem_toList inside, decide_eq_false_iff_not, Int64.not_le]

/-- A search from a start on ends at the lower bound, or at the start if that comes later. -/
theorem findAtLeast_eq (start : Nat) : n.findAtLeast m v start =
    if max start (n.lowerBound m v) < n.size then some (max start (n.lowerBound m v)) else none := by
  by_cases inside : start < n.size
  · have below := lowerBound_le sorted v
    have split (i : Nat) (after : start ≤ i) (here : i < n.size) :
        decide (n.get m i < v) = true ↔ i < max start (n.lowerBound m v) := by
      rw [decide_eq_true_eq, get_lt_iff sorted v here]
      omega
    obtain ⟨begun, lower, upper⟩ := gallop_brackets split (by omega) (Nat.le_refl start)
      (Nat.le_max_left ..) 0
    -- The bracket may reach beyond the elements, so halving stops at their end.
    have place := bisect_eq lower (Nat.le_min.mpr ⟨upper, by omega⟩) fun i after before =>
      split i (Nat.le_trans begun after) (Nat.lt_of_lt_of_le before (Nat.min_le_right ..))
    rw [findAtLeast, if_pos inside]
    simp only [place]
  · rw [findAtLeast, if_neg inside, if_neg (by omega)]

end Ascending

/-- In an ascending node the bounds of a value are the numbers of the elements below it and of those
up to it, and a search from a start on finds the first element from there that reaches it. -/
theorem sorted_searches (sorted : (n.toList m).Pairwise (· ≤ ·)) (v : Int64) :
    n.lowerBound m v = (n.toList m).countP (· < v) ∧
      n.upperBound m v = (n.toList m).countP (· ≤ v) ∧
      ∀ start, (∀ i, n.findAtLeast m v start = some i ↔
          IsLeast {i | start ≤ i ∧ i < n.size ∧ v ≤ n.get m i} i) ∧
        (n.findAtLeast m v start = none ↔ ∀ i, start ≤ i → i < n.size → n.get m i < v) := by
  refine ⟨?_, ?_, fun start => ?_⟩
  · rw [lowerBound_eq sorted, findIdx_eq_countP (ascends_le sorted v)]
    simp only [not_decide_le]
  · rw [upperBound_eq sorted, findIdx_eq_countP (ascends_lt sorted v)]
    simp only [not_decide_lt]
  · -- What a search may find is what lies behind both the start and the lower bound.
    have reached : {i | start ≤ i ∧ i < n.size ∧ v ≤ n.get m i} =
        Set.Ico (max start (n.lowerBound m v)) n.size := by
      ext i
      constructor
      · rintro ⟨after, inside, reaches⟩
        have := mt (get_lt_iff sorted v inside).mpr (Int64.not_lt.mpr reaches)
        exact ⟨by omega, inside⟩
      · rintro ⟨after, inside⟩
        refine ⟨by omega, inside, Int64.not_lt.mp (mt (get_lt_iff sorted v inside).mp ?_)⟩
        omega
    rw [findAtLeast_eq sorted, reached]
    split
    next found =>
      refine ⟨fun i => ?_, nofun, fun none => ?_⟩
      · rw [Option.some.injEq]
        exact (isLeast_Ico found).isLeast_iff_eq.symm
      · have := (get_lt_iff sorted v found).mp (none _ (Nat.le_max_left ..) found)
        omega
    next beyond =>
      refine ⟨fun i => ⟨nofun, fun least => ?_⟩, fun _ i after inside => ?_, fun _ => rfl⟩
      · have := least.1
        rw [Set.mem_Ico] at this
        omega
      · rw [get_lt_iff sorted v inside]
        omega

/-- Seven nibbles; the search from the second one on gallops past the first 9 and comes back. -/
theorem sorted_searches_nibbles :
    let m : Memory := ⟨⟨#[0, 0, 0, 0, 0, 0, 0, 0, 0x31, 0x43, 0x99, 0x0C]⟩⟩
    let n : Node := ⟨0, false, false, false, .bits, 4, 7, 16⟩
    (n.toList m).Pairwise (· ≤ ·) ∧ n.lowerBound m 9 = 4 ∧ n.upperBound m 9 = 6 ∧
      n.findAtLeast m 9 1 = some 4 ∧ n.findAtLeast m 9 7 = none := by
  intro m n
  have same : n.toList m = [1, 3, 3, 4, 9, 9, 12] := by decide +kernel
  have sorted : (n.toList m).Pairwise (· ≤ ·) := same ▸ by decide
  obtain ⟨lower, upper, later⟩ := sorted_searches sorted 9
  rw [same] at lower upper
  have first : IsLeast {i | 1 ≤ i ∧ i < n.size ∧ 9 ≤ n.get m i} 4 := by
    refine ⟨⟨by decide, by decide, by decide +kernel⟩, fun i ⟨_, _, reaches⟩ => ?_⟩
    by_contra sooner
    have small : ∀ j < 4, n.get m j < 9 := by decide +kernel
    exact Int64.not_lt.mpr reaches (small i (Nat.not_le.mp sooner))
  exact ⟨sorted, lower.trans (by decide), upper.trans (by decide), ((later 1).1 4).mpr first,
    (later 7).2.mpr fun i after inside => absurd inside (Nat.not_lt.mpr after)⟩

end Node

end ColumnStore
