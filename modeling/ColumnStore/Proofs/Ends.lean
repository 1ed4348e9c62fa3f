import ColumnStore.Node.Sorted
import ColumnStore.Proofs.Packed

set_option autoImplicit false

/-!
The ends of the children of an inner node, as a function of how many elements each child has. What
an edit does to the sizes it does to the ends by moving a part of them.
-/
namespace ColumnStore

/-- Halving finds where `before` stops to hold. -/
theorem bisect_eq {before : Nat → Bool} {lo hi k : Nat} (lower : lo ≤ k) (upper : k ≤ hi)
    (split : ∀ i, lo ≤ i → i < hi → (before i = true ↔ i < k)) : bisect before lo hi = k := by
  fun_induction bisect before lo hi with
  | case1 lo hi h mid holds ih =>
      have left : lo ≤ mid := Nat.le_add_right _ _
      have inside : mid < hi := by omega
      have := (split mid left inside).mp holds
      exact ih this upper fun i _ _ => split i (by omega) (by omega)
  | case2 lo hi h mid fails ih =>
      have left : lo ≤ mid := Nat.le_add_right _ _
      have inside : mid < hi := by omega
      have : ¬ mid < k := fun h => fails ((split mid left inside).mpr h)
      exact ih lower (by omega) fun i _ _ => split i (by omega) (by omega)
  | case3 lo hi h => omega

namespace Branch

/-- Elements before child `i`. -/
def start (sizes : List Nat) (i : Nat) : Nat := (sizes.take i).sum

def ends (sizes : List Nat) : List Int64 :=
  (List.range (sizes.length - 1)).map fun i => Int64.ofNat (start sizes (i + 1))

@[simp] theorem start_zero (sizes : List Nat) : start sizes 0 = 0 := by simp [start]

@[simp] theorem start_nil (i : Nat) : start [] i = 0 := by simp [start]

@[simp] theorem start_cons (a : Nat) (sizes : List Nat) (i : Nat) :
    start (a :: sizes) (i + 1) = a + start sizes i := by simp [start]

theorem start_append (before after : List Nat) (i : Nat) :
    start (before ++ after) i = start before i + start after (i - before.length) := by
  simp [start, List.take_append]

theorem start_of_length_le (sizes : List Nat) {i : Nat} (h : sizes.length ≤ i) :
    start sizes i = sizes.sum := by
  rw [start, List.take_of_length_le h]

theorem start_succ {sizes : List Nat} {i : Nat} (inside : i < sizes.length) :
    start sizes (i + 1) = start sizes i + sizes[i] := by
  rw [start, start, List.take_add_one, List.getElem?_eq_getElem inside, List.sum_append]
  rfl

theorem start_le_sum (sizes : List Nat) (i : Nat) : start sizes i ≤ sizes.sum := by
  have := congrArg List.sum (List.take_append_drop i sizes)
  rw [List.sum_append] at this
  rw [start]
  omega

theorem start_mono (sizes : List Nat) {i j : Nat} (h : i ≤ j) : start sizes i ≤ start sizes j := by
  have := start_le_sum (sizes.take j) i
  unfold start at this ⊢
  rwa [List.take_take, Nat.min_eq_left h] at this

theorem start_lt {sizes : List Nat} (positive : ∀ a ∈ sizes, 0 < a) {i j : Nat} (h : i < j)
    (inside : i < sizes.length) : start sizes i < start sizes j := by
  have := start_mono sizes h
  rw [Nat.succ_eq_add_one, start_succ inside] at this
  have := positive _ (List.getElem_mem inside)
  omega

@[simp] theorem length_ends (sizes : List Nat) : (ends sizes).length = sizes.length - 1 := by
  simp [ends]

@[simp] theorem getElem_ends {sizes : List Nat} {i : Nat} (h : i < (ends sizes).length) :
    (ends sizes)[i] = Int64.ofNat (start sizes (i + 1)) := by
  simp [ends]

@[simp] theorem ends_single (a : Nat) : ends [a] = [] := rfl

theorem ends_pair (a b : Nat) : ends [a, b] = [Int64.ofNat a] := by simp [ends, start]

/-! ### Ends after an edit -/

theorem ofNat_move {x y : Nat} {d : Int64} (h : Int64.ofNat x + d = Int64.ofNat y) (z : Nat) :
    Int64.ofNat (x + z) + d = Int64.ofNat (y + z) := by
  rw [Int64.ofNat_add, Int64.ofNat_add, ← h]
  grind

open Node (addBetween)

@[simp] theorem length_addBetween (first stop : Nat) (d : Int64) (vs : List Int64) :
    (addBetween first stop d vs).length = vs.length := by
  simp [addBetween]

theorem getElem_addBetween {first stop i : Nat} {d : Int64} {vs : List Int64}
    (h : i < (addBetween first stop d vs).length) (inside : i < vs.length) :
    (addBetween first stop d vs)[i] = if first ≤ i ∧ i < stop then vs[i] + d else vs[i] := by
  simp [addBetween]

theorem addBetween_zero (first stop : Nat) (vs : List Int64) : addBetween first stop 0 vs = vs := by
  apply List.ext_getElem (by simp)
  intro i h inside
  rw [getElem_addBetween h inside, Int64.add_zero, ite_self]

variable {before after : List Nat} {a a' b : Nat}

/-- A child grows or shrinks by `d`. -/
theorem ends_resize {d : Int64} (moved : Int64.ofNat a + d = Int64.ofNat a') :
    addBetween before.length (before.length + after.length) d (ends (before ++ a :: after)) =
      ends (before ++ a' :: after) := by
  apply List.ext_getElem (by simp)
  intro i h h'
  rw [getElem_addBetween h (by simpa using h), getElem_ends, getElem_ends, start_append, start_append]
  simp only [length_addBetween, length_ends, List.length_append, List.length_cons] at h
  by_cases first : before.length ≤ i
  · obtain ⟨k, rfl⟩ := Nat.exists_eq_add_of_le first
    rw [if_pos ⟨first, by omega⟩, show before.length + k + 1 - before.length = k + 1 by omega,
      start_cons, start_cons, Nat.add_left_comm, Nat.add_left_comm _ a']
    exact ofNat_move moved _
  · rw [if_neg (fun h => first h.1), show i + 1 - before.length = 0 by omega, start_zero, start_zero]

theorem length_ends_insert (v : Int64) :
    ((ends (before ++ a :: after)).insertIdx before.length v).length =
      before.length + 1 + after.length := by
  rw [List.length_insertIdx_of_le_length (by simp)]
  simp
  omega

/-- A child splits in two that have `d` elements more. -/
theorem ends_insert {d : Nat} (whole : a' + b = a + d) :
    addBetween (before.length + 1) (before.length + 1 + after.length) (Int64.ofNat d)
        ((ends (before ++ a :: after)).insertIdx before.length
          (Int64.ofNat (before.sum + a'))) =
      ends (before ++ a' :: b :: after) := by
  apply List.ext_getElem
  · rw [length_addBetween, length_ends_insert, length_ends]
    simp
    omega
  intro i h h'
  rw [getElem_addBetween h (by simpa using h), getElem_ends, start_append, List.getElem_insertIdx]
  rw [length_addBetween, length_ends_insert] at h
  rcases Nat.lt_trichotomy i before.length with first | rfl | later
  · rw [if_neg (by omega), dif_pos first, getElem_ends, start_append,
      show i + 1 - before.length = 0 by omega, start_zero, start_zero]
  · rw [if_neg (by omega), dif_neg (by omega), dif_pos rfl,
      show before.length + 1 - before.length = 0 + 1 by omega, start_cons, start_zero,
      start_of_length_le before (by omega), Nat.add_zero]
  · obtain ⟨k, rfl⟩ := Nat.exists_eq_add_of_lt later
    rw [if_pos (by omega), dif_neg (by omega), dif_neg (by omega), getElem_ends, start_append,
      show before.length + k + 1 - 1 + 1 - before.length = k + 1 by omega,
      show (before.length + k + 1 + 1) - before.length = k + 1 + 1 by omega, start_cons, start_cons,
      start_cons, start_of_length_le before (by omega), start_of_length_le before (by omega),
      ← Int64.ofNat_add]
    congr 1
    omega

theorem ends_split (whole : a' + b = a + 1) :
    addBetween (before.length + 1) (before.length + 1 + after.length) 1
        ((ends (before ++ a :: after)).insertIdx before.length
          (Int64.ofNat (before.sum + a'))) =
      ends (before ++ a' :: b :: after) := ends_insert whole

/-- The children up to the one that split; its right part starts the sibling. -/
theorem ends_take (before after : List Nat) (a a' : Nat) :
    (ends (before ++ a :: after)).take before.length = ends (before ++ [a']) := by
  apply List.ext_getElem (by simp)
  intro i h h'
  simp only [length_ends, List.length_append, List.length_cons, List.length_nil] at h'
  rw [List.getElem_take, getElem_ends, getElem_ends, start_append, start_append,
    show i + 1 - before.length = 0 by omega, start_zero, start_zero]

/-- No end tells the size of the last child. -/
theorem ends_last (a' : Nat) : ends (before ++ [a]) = ends (before ++ [a']) := by
  have all : (ends (before ++ [a])).take before.length = ends (before ++ [a]) :=
    List.take_of_length_le (by simp)
  rw [← all, ends_take _ _ _ a']

theorem ends_drop (before after : List Nat) (whole : a' + b = a + 1) :
    ((ends (before ++ a :: after)).drop before.length).map
        (· + (1 - Int64.ofNat (before.sum + a'))) = ends (b :: after) := by
  apply List.ext_getElem (by simp)
  intro i h h'
  rw [List.getElem_map, List.getElem_drop, getElem_ends, getElem_ends, start_append, start_cons,
    show before.length + i + 1 - before.length = i + 1 by omega, start_cons,
    start_of_length_le before (by omega)]
  have same : before.sum + (a + start after i) + 1 = b + start after i + (before.sum + a') := by omega
  have same := congrArg Int64.ofNat same
  rw [Int64.ofNat_add, Int64.ofNat_add (b + start after i)] at same
  grind

theorem ofNat_sub {x d : Nat} : Int64.ofNat (x + d) + -Int64.ofNat d = Int64.ofNat x := by
  rw [Int64.ofNat_add]
  grind

/-- A child goes, and another one follows it. -/
theorem ends_remove :
    addBetween before.length (before.length + after.length) (-Int64.ofNat a)
        ((ends (before ++ a :: b :: after)).eraseIdx before.length) =
      ends (before ++ b :: after) := by
  apply List.ext_getElem
  · rw [length_addBetween, List.length_eraseIdx_of_lt (by simp)]
    simp
  intro i h h'
  simp only [length_ends, List.length_append, List.length_cons] at h'
  rw [getElem_addBetween h (by simpa using h), getElem_ends, start_append, List.getElem_eraseIdx]
  by_cases first : i < before.length
  · rw [if_neg (by omega), dif_pos first, getElem_ends, start_append,
      show i + 1 - before.length = 0 by omega, start_zero, start_zero]
  · obtain ⟨k, rfl⟩ := Nat.exists_eq_add_of_le (Nat.le_of_not_lt first)
    rw [if_pos (by omega), dif_neg (by omega), getElem_ends, start_append,
      show before.length + k + 1 + 1 - before.length = k + 1 + 1 by omega,
      show before.length + k + 1 - before.length = k + 1 by omega, start_cons, start_cons,
      start_of_length_le before (by omega), start_of_length_le before (by omega), Nat.add_left_comm,
      Nat.add_comm a, ofNat_sub]

theorem ends_erase :
    addBetween before.length (before.length + after.length) (-1)
        ((ends (before ++ 1 :: b :: after)).eraseIdx before.length) =
      ends (before ++ b :: after) := ends_remove

/-- The last child goes. -/
theorem ends_eraseLast : (ends (before ++ [b, a])).eraseIdx before.length = ends (before ++ [b]) := by
  apply List.ext_getElem
  · rw [List.length_eraseIdx_of_lt (by simp)]
    simp
  intro i h h'
  simp only [length_ends, List.length_append, List.length_cons, List.length_nil] at h'
  rw [List.getElem_eraseIdx, dif_pos (by omega), getElem_ends, getElem_ends, start_append,
    start_append, show i + 1 - before.length = 0 by omega, start_zero, start_zero]

/-! ### Children of one size -/

/-- All children but the last have `per` elements. -/
def Regular (per : Nat) (sizes : List Nat) : Prop := ∀ a ∈ sizes.dropLast, a = per

theorem regular_concat {per : Nat} : Regular per (before ++ [a]) ↔ ∀ x ∈ before, x = per := by
  rw [Regular, List.dropLast_concat]

theorem Regular.start {per i : Nat} {sizes : List Nat} (regular : Regular per sizes)
    (inside : i < sizes.length) : start sizes i = i * per := by
  induction i with
  | zero => simp
  | succ i ih =>
      have last : i < sizes.dropLast.length := by
        rw [List.length_dropLast]
        omega
      have here := regular _ (List.getElem_mem last)
      rw [List.getElem_dropLast] at here
      rw [start_succ (by omega), ih (by omega), here, Nat.succ_mul]

theorem Regular.ends {per : Nat} {sizes : List Nat} (regular : Regular per sizes) :
    ends sizes = (List.range (sizes.length - 1)).map fun i => Int64.ofNat ((i + 1) * per) := by
  apply List.map_congr_left
  intro i inside
  rw [List.mem_range] at inside
  rw [regular.start (by omega)]

/-! ### The child that holds an element -/

section Children

variable {α : Type} {size : α → Nat} {x : Nat}

theorem exists_child {kids : List α} (inside : x < (kids.map size).sum) :
    ∃ before k after, kids = before ++ k :: after ∧ (before.map size).sum ≤ x ∧
      x < (before.map size).sum + size k := by
  induction kids generalizing x with
  | nil => simp at inside
  | cons k kids ih =>
      rw [List.map_cons, List.sum_cons] at inside
      by_cases here : x < size k
      · exact ⟨[], k, kids, rfl, Nat.zero_le x, by simpa using here⟩
      · obtain ⟨before, k', after, rfl, lower, upper⟩ := ih (x := x - size k) (by omega)
        refine ⟨k :: before, k', after, rfl, ?_, ?_⟩ <;> simp only [List.map_cons, List.sum_cons] <;>
          omega

/-- Between two children the earlier one. -/
theorem exists_child_before {kids : List α} (some : kids ≠ []) (inside : x ≤ (kids.map size).sum) :
    ∃ before k after, kids = before ++ k :: after ∧ (before.map size).sum ≤ x ∧
      x ≤ (before.map size).sum + size k ∧ (x = 0 → before = []) ∧
      (0 < x → (before.map size).sum < x) := by
  -- Position 0 belongs to the first child, any other to the child of the element before it.
  by_cases zero : x = 0
  · obtain ⟨k, kids, rfl⟩ := List.exists_cons_of_ne_nil some
    subst zero
    exact ⟨[], k, kids, rfl, Nat.zero_le _, Nat.zero_le _, fun _ => rfl, fun h => absurd h (by simp)⟩
  · have earlier : x - 1 < (kids.map size).sum := by omega
    obtain ⟨before, k, after, rfl, lower, upper⟩ := exists_child earlier
    exact ⟨before, k, after, rfl, by omega, by omega, fun h => absurd h zero, fun _ => by omega⟩

end Children

theorem ofNat_le_ofNat {x y : Nat} (hx : x < 2 ^ 63) (hy : y < 2 ^ 63) :
    Int64.ofNat x ≤ Int64.ofNat y ↔ x ≤ y := by
  rw [Int64.le_iff_toInt_le, Int64.toInt_ofNat_of_lt hx, Int64.toInt_ofNat_of_lt hy]
  omega

theorem ofNat_lt_ofNat {x y : Nat} (hx : x < 2 ^ 63) (hy : y < 2 ^ 63) :
    Int64.ofNat x < Int64.ofNat y ↔ x < y := by
  rw [Int64.lt_iff_toInt_lt, Int64.toInt_ofNat_of_lt hx, Int64.toInt_ofNat_of_lt hy]
  omega

/-- The ends up to a child are at most where it starts, and later ones are not below its end. -/
theorem start_cut (before after : List Nat) (a i : Nat) :
    (i < before.length → start (before ++ a :: after) (i + 1) ≤ before.sum) ∧
      (before.length ≤ i → before.sum + a ≤ start (before ++ a :: after) (i + 1)) := by
  constructor
  · intro h
    rw [start_append, show i + 1 - before.length = 0 by omega, start_zero]
    exact start_le_sum before (i + 1)
  · intro h
    rw [start_append, start_of_length_le before (by omega),
      show i + 1 - before.length = (i - before.length) + 1 by omega, start_cons]
    omega

theorem regular_locate {per x : Nat} (regular : Regular per (before ++ a :: after))
    (positive : ∀ b ∈ before ++ a :: after, 0 < b) (lower : before.sum ≤ x)
    (upper : x < before.sum + a) :
    min (x / per) ((before ++ a :: after).length - 1) = before.length := by
  have length : (before ++ a :: after).length = before.length + 1 + after.length := by
    simp
    omega
  have sum : before.length * per = before.sum := by
    rw [← regular.start (by omega), start_append, start_of_length_le before (Nat.le_refl _)]
    simp
  by_cases single : before.length = 0 ∧ after.length = 0
  · rw [length, single.1, single.2]
    exact Nat.min_eq_right (Nat.zero_le _)
  · -- With two children or more the first one has `per` elements.
    have per_positive : 0 < per := by
      have first := regular.start (i := 1) (by omega)
      have := start_lt positive (i := 0) (j := 1) (by decide) (by omega)
      rw [start_zero] at this
      omega
    -- Every child in front is full, so `x` is not in any of them.
    have enough : before.length ≤ x / per := by
      rw [Nat.le_div_iff_mul_le per_positive]
      omega
    by_cases last : after.length = 0
    · rw [length, last, Nat.add_zero, Nat.add_sub_cancel]
      exact Nat.min_eq_right enough
    · have next := regular.start (i := before.length + 1) (by omega)
      rw [start_append, start_of_length_le before (by omega),
        show before.length + 1 - before.length = 0 + 1 by omega, start_cons, start_zero] at next
      have : x / per < before.length + 1 := by
        rw [Nat.div_lt_iff_lt_mul per_positive]
        omega
      rw [Nat.le_antisymm (Nat.le_of_lt_succ this) enough]
      omega

theorem upperBound_ends {x : Nat} {get : Nat → Int64}
    (found : ∀ i (h : i < (ends (before ++ a :: after)).length),
      get i = (ends (before ++ a :: after))[i])
    (small : (before ++ a :: after).sum < 2 ^ 63) (lower : before.sum ≤ x)
    (upper : x < before.sum + a) :
    bisect (fun i => get i ≤ Int64.ofNat x) 0 (ends (before ++ a :: after)).length =
      before.length := by
  apply bisect_eq (Nat.zero_le _) (by simp)
  intro i _ inside
  have below := start_le_sum (before ++ a :: after) (i + 1)
  -- Ends up to `before` are at most `x`, later ones are above it.
  have cut := start_cut before after a i
  have whole : before.sum + a ≤ (before ++ a :: after).sum := by simp
  rw [found i inside, getElem_ends, decide_eq_true_eq, ofNat_le_ofNat (by omega) (by omega)]
  omega

theorem lowerBound_ends {x : Nat} {get : Nat → Int64}
    (found : ∀ i (h : i < (ends (before ++ a :: after)).length),
      get i = (ends (before ++ a :: after))[i])
    (small : (before ++ a :: after).sum < 2 ^ 63) (lower : before.sum < x)
    (upper : x ≤ before.sum + a) :
    bisect (fun i => get i < Int64.ofNat x) 0 (ends (before ++ a :: after)).length =
      before.length := by
  apply bisect_eq (Nat.zero_le _) (by simp)
  intro i _ inside
  have below := start_le_sum (before ++ a :: after) (i + 1)
  have cut := start_cut before after a i
  have whole : before.sum + a ≤ (before ++ a :: after).sum := by simp
  rw [found i inside, getElem_ends, decide_eq_true_eq, ofNat_lt_ofNat (by omega) (by omega)]
  omega

end Branch

end ColumnStore
