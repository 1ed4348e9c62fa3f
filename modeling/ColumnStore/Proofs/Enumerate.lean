import ColumnStore.Proofs.Growing
import ColumnStore.Proofs.TextColumn

set_option autoImplicit false

/-!
Enumeration of plain columns. The keys are the distinct values in ascending order, every row gets
the number of its value, and the plain column is freed.
-/
namespace ColumnStore

/-! ### Distinct values -/

section Distinct

variable {α : Type} [BEq α] [LawfulBEq α] [LE α] [LT α] [Std.LawfulOrderLT α] [Std.IsLinearOrder α]

/-- In an ascending list repetitions are next to one another. -/
theorem eraseReps_ascends {a : α} {as before : List α} (sorted : (a :: as).Pairwise (· ≤ ·))
    (below : ∀ x ∈ before, ∀ y ∈ a :: as, x < y) (descends : before.Pairwise (· > ·)) :
    (List.eraseRepsBy.loop (· == ·) a as before).Pairwise (· < ·) ∧
      ∀ v, v ∈ List.eraseRepsBy.loop (· == ·) a as before ↔ v ∈ before ∨ v ∈ a :: as := by
  have push : (a :: before).Pairwise (· > ·) :=
    List.pairwise_cons.mpr ⟨fun x inside => below x inside a (by simp), descends⟩
  induction as generalizing a before with
  | nil =>
      rw [List.eraseRepsBy.loop]
      refine ⟨List.pairwise_reverse.mpr push, fun v => ?_⟩
      rw [List.mem_reverse, List.mem_cons, List.mem_singleton, or_comm]
  | cons b as ih =>
      obtain ⟨first, rest⟩ := List.pairwise_cons.mp sorted
      rw [List.eraseRepsBy.loop]
      by_cases same : a = b
      · subst same
        rw [beq_self_eq_true]
        obtain ⟨ascends, mem⟩ := ih rest (fun x inside y here => below x inside y (by simp_all))
          descends push
        exact ⟨ascends, fun v => by rw [mem]; simp⟩
      · rw [beq_eq_false_iff_ne.mpr same]
        have next : ∀ x ∈ a :: before, ∀ y ∈ b :: as, x < y := by
          intro x inside y here
          rcases List.mem_cons.mp inside with rfl | inside
          · have least : b ≤ y := by
              rcases List.mem_cons.mp here with rfl | here
              · exact Std.le_refl y
              · exact (List.pairwise_cons.mp rest).1 y here
            exact Std.lt_of_lt_of_le (Std.lt_of_le_of_ne (first b (by simp)) same) least
          · exact below x inside y (List.mem_cons_of_mem a here)
        obtain ⟨ascends, mem⟩ := ih rest next push
          (List.pairwise_cons.mpr ⟨fun x inside => next x inside b (by simp), push⟩)
        refine ⟨ascends, fun v => ?_⟩
        rw [mem, List.mem_cons, List.mem_cons (b := a)]
        tauto

end Distinct

namespace EnumColumn

theorem distinct_eq_insertionSort (vs : List String) :
    distinct vs = (vs.insertionSort (· ≤ ·)).eraseReps := by
  rw [distinct, ← List.mergeSort_eq_insertionSort]
  congr 2
  funext a b
  rw [← decide_not]
  congr 1

theorem distinct_spec (vs : List String) :
    (distinct vs).Nodup ∧ ∀ v, v ∈ distinct vs ↔ v ∈ vs := by
  have sorted := List.pairwise_insertionSort (· ≤ ·) vs
  have mem (v : String) := List.mem_insertionSort (· ≤ ·) (l := vs) (x := v)
  rw [distinct_eq_insertionSort, List.eraseReps]
  cases ordered : vs.insertionSort (· ≤ ·) with
  | nil =>
      rw [ordered] at mem
      exact ⟨List.nodup_nil, mem⟩
  | cons a as =>
      rw [ordered] at sorted mem
      rw [List.eraseRepsBy]
      obtain ⟨ascends, same⟩ := eraseReps_ascends sorted (List.forall_mem_nil _) .nil
      refine ⟨ascends.imp fun less => Std.ne_of_lt less, fun v => ?_⟩
      rw [same, ← mem]
      simp

theorem length_distinct (vs : List String) : (distinct vs).length ≤ vs.length :=
  (List.subperm_of_subset (distinct_spec vs).1 fun v => (distinct_spec vs).2 v |>.mp).length_le

variable {c : EnumColumn} {s s' : Store} {keys vs : List String} {R : Assertion}
  {source : PlainColumn} {maxNodeSize : Nat}

/-- The keys of what is made of a plain column are its distinct values. -/
theorem ofPlain_holds (h : s.Holds (source.holds vs * R)) (small : vs.length < Slot.countBound)
    (room : 0 < maxNodeSize) (max : maxNodeSize < 2 ^ 24 - 2)
    (run : ofPlain source maxNodeSize s = (.ok c, s')) :
    s'.Holds (c.holds (distinct vs) vs * (source.holds vs * R)) := by
  obtain ⟨_, here⟩ := h.reads
  rw [ofPlain, StoreM.read_bind, PlainColumn.toList_of_holds here small] at run
  obtain ⟨k₀, s₁, made, run⟩ := StoreM.bind_ok.mp run
  have h := PlainColumn.create_holds h room max made
  obtain ⟨⟨_, ks⟩, s₂, added, run⟩ := StoreM.bind_ok.mp run
  have few : (distinct vs).length < Slot.countBound := Nat.lt_of_le_of_lt (length_distinct vs) small
  have h := Edit.forM_holds (fun h small added => PlainColumn.add_holds h small added) h
    (by simpa using few) (Edit.on_ok.mp added)
  obtain ⟨v₀, s₃, made, run⟩ := StoreM.bind_ok.mp run
  have h := Tree.create_growing h room max made
  obtain ⟨⟨_, ns⟩, s₄, added, run⟩ := StoreM.bind_ok.mp run
  obtain ⟨rfl, rfl⟩ := StoreM.pure_ok.mp run
  rw [List.nil_append] at h
  have empty : s₃.Holds (v₀.growing (numbers (distinct vs) []) *
      (ks.holds (distinct vs) * (source.holds vs * R))) := h
  have h := Edit.forM_holds (A := fun t ws => Tree.growing t (numbers (distinct vs) ws))
    (fun h small added => ?_) empty (by simpa using small) (Edit.on_ok.mp added)
  · obtain ⟨fits, h⟩ := Tree.growing_mul.mp h
    obtain ⟨nodup, same⟩ := distinct_spec vs
    refine holds_mul.mpr ⟨indexes_none vs, stored_mul.mpr ⟨⟨fits, nodup, fun v => ?_⟩, ?_⟩⟩
    · exact (same v).mpr
    · exact h.of_eq (mul_left_comm ..)
  · have h := Tree.add_growing h (by simpa [numbers] using small) added
    exact h.of_eq (by simp only [numbers, List.map_append, List.map_singleton])

end EnumColumn

namespace TextColumn

variable {c c' : TextColumn} {s s' : Store} {keys vs : List String} {R : Assertion}
  {maxNodeSize b : Nat}

theorem destroy_holds (h : s.Holds (c.holds keys vs * R)) (run : c.destroy s = (.ok (), s')) :
    s'.Holds R := by
  cases c with
  | plain p => exact Tree.destroy_holds (PlainColumn.holds_mul.mp h).2 run
  | enum e =>
      obtain ⟨_, s₁, first, run⟩ := StoreM.bind_ok.mp run
      obtain ⟨-, h⟩ := EnumColumn.stored_mul.mp (EnumColumn.holds_mul.mp h).2
      have h := Tree.destroy_holds (PlainColumn.holds_mul.mp h).2 first
      exact Tree.destroy_holds h run

/-- Whether it pays or not, the texts stay as they are. -/
theorem optimize_holds {r : Bool} (h : s.Holds (c.holds keys vs * R))
    (small : vs.length < Slot.countBound) (many : keys.length ≤ b) (most : vs.length ≤ b)
    (room : 0 < maxNodeSize) (max : maxNodeSize < 2 ^ 24 - 2)
    (run : optimize maxNodeSize (c, s) = (.ok r, (c', s'))) :
    ∃ keys', keys'.length ≤ b ∧ s'.Holds (c'.holds keys' vs * R) := by
  rw [optimize, Edit.self_bind] at run
  cases c with
  | enum e =>
      obtain ⟨-, same⟩ := Edit.pure_ok.mp run
      cases same
      exact ⟨keys, many, h⟩
  | plain p =>
      obtain ⟨e, s₁, made, run⟩ := Edit.lift_bind_ok.mp run
      have h := EnumColumn.ofPlain_holds h small room max made
      rw [Edit.read_bind, Edit.read_bind] at run
      split at run
      next =>
        obtain ⟨_, s₂, freed, run⟩ := Edit.lift_bind_ok.mp run
        obtain ⟨-, same⟩ := Edit.pure_ok.mp run
        cases same
        exact ⟨keys, many, destroy_holds (c := .enum e) h freed⟩
      next =>
        obtain ⟨_, s₂, freed, run⟩ := Edit.lift_bind_ok.mp run
        rw [mul_left_comm] at h
        obtain ⟨⟨-, index⟩, -⟩ := PlainColumn.holds_mul.mp h
        have h := Tree.destroy_holds (PlainColumn.holds_mul.mp h).2 freed
        cases run
        have stored := (EnumColumn.holds_mul.mp h).2
        exact ⟨EnumColumn.distinct vs, (EnumColumn.length_distinct vs).trans most,
          EnumColumn.holds_mul.mpr ⟨index, stored⟩⟩

end TextColumn

end ColumnStore
