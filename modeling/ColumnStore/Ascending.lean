set_option autoImplicit false

/-!
Places in an ascending list, found by halving it. In a list that does not ascend the place is where
the halving ends.
-/
namespace ColumnStore

namespace Ascending

variable {α : Type}

/-- Keeps the right half where `right` holds of its first element, until one element is left. -/
def halve (right : α → Bool) (l : List α) : Nat :=
  if l.length < 2 then 0
  else
    let half := l.length / 2
    if l[half]?.any right then half + halve right (l.drop half)
    else halve right (l.take (l.length - half))
termination_by l.length
decreasing_by all_goals grind

/-- How many elements `p` holds of, if it holds of the first ones and of no others. -/
def count (p : α → Bool) (l : List α) : Nat :=
  let i := halve p l
  if l[i]?.any p then i + 1 else i

/-- Where `p` holds of the first `k` elements and of no others, halving ends at the last of these. -/
theorem halve_eq (p : α → Bool) (l : List α) (k : Nat) (bound : k ≤ l.length)
    (ascends : ∀ i v, l[i]? = some v → (p v ↔ i < k)) : halve p l = k - 1 := by
  fun_induction halve p l generalizing k with
  | case1 l short => omega
  | case2 l long half holds ih =>
    have := ih (k - half) (by grind) (fun i v h => by
      have := ascends (half + i) v (by simpa using h)
      grind)
    have : half < k := by
      obtain ⟨v, h, hv⟩ := Option.any_eq_true .. |>.1 holds
      exact (ascends half v h).1 hv
    omega
  | case3 l long half fails ih =>
    exact ih k (by grind) (by grind)

theorem count_eq (p : α → Bool) (l : List α) (k : Nat) (bound : k ≤ l.length)
    (ascends : ∀ i v, l[i]? = some v → (p v ↔ i < k)) : count p l = k := by
  have := halve_eq p l k bound ascends
  grind [count]

variable {p : α → Bool} {lower upper l : List α}

theorem holds_of_split (holds : ∀ a ∈ lower, p a) (fails : ∀ a ∈ upper, ¬ p a) (i : Nat) (a : α)
    (here : (lower ++ upper)[i]? = some a) : p a ↔ i < lower.length := by
  by_cases inside : i < lower.length
  · rw [List.getElem?_append_left inside] at here
    exact iff_of_true (holds a (List.mem_of_getElem? here)) inside
  · rw [List.getElem?_append_right (by omega)] at here
    exact iff_of_false (fails a (List.mem_of_getElem? here)) inside

theorem count_split (holds : ∀ a ∈ lower, p a) (fails : ∀ a ∈ upper, ¬ p a) :
    count p (lower ++ upper) = lower.length :=
  count_eq p _ _ (by simp) (holds_of_split holds fails)

theorem halve_split (holds : ∀ a ∈ lower, p a) (fails : ∀ a ∈ upper, ¬ p a) :
    halve p (lower ++ upper) = lower.length - 1 :=
  halve_eq p _ _ (by simp) (holds_of_split holds fails)

/-- Where a property that fails once fails ever after, the list splits. -/
theorem exists_split {P : α → Prop} (ascends : l.Pairwise fun a b => P b → P a) :
    ∃ lower upper, l = lower ++ upper ∧ (∀ a ∈ lower, P a) ∧ ∀ a ∈ upper, ¬ P a := by
  induction l with
  | nil => exact ⟨[], [], rfl, by simp, by simp⟩
  | cons a l ih =>
      obtain ⟨below, ascends⟩ := List.pairwise_cons.mp ascends
      by_cases holds : P a
      · obtain ⟨lower, upper, rfl, low, high⟩ := ih ascends
        exact ⟨a :: lower, upper, rfl, List.forall_mem_cons.mpr ⟨holds, low⟩, high⟩
      · exact ⟨[], a :: l, rfl, by simp,
          List.forall_mem_cons.mpr ⟨holds, fun b inside => mt (below b inside) holds⟩⟩

end Ascending

end ColumnStore
