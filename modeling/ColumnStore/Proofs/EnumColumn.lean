import ColumnStore.Column.Enum
import ColumnStore.Proofs.PlainColumn

set_option autoImplicit false

/-!
Enumerated columns as assertions. Every row holds the place of its text among the distinct keys, and
what is found by keys is what a scan of the texts finds.
-/
namespace ColumnStore

/-! ### Keys -/

/-- The numbers that stand for texts. -/
def numbers (keys vs : List String) : List Int64 := vs.map fun v => Int64.ofNat (keys.idxOf v)

section Keys

variable {keys vs : List String} {v w : String}

theorem ofNat_idxOf (small : keys.length < Slot.countBound) :
    (Int64.ofNat (keys.idxOf v)).toUInt64.toNat = keys.idxOf v := by
  have bound : Slot.countBound < 2 ^ 64 := by decide
  have place : keys.idxOf v ≤ keys.length := List.idxOf_le_length
  exact Slot.toRef_ofRef (Nat.lt_of_le_of_lt place (small.trans bound))

theorem ofNat_idxOf_beq (small : keys.length < Slot.countBound) (here : v ∈ keys) :
    (Int64.ofNat (keys.idxOf w) == Int64.ofNat (keys.idxOf v)) = (w == v) := by
  rw [Bool.eq_iff_iff, beq_iff_eq, beq_iff_eq]
  constructor
  · intro same
    have places : keys.idxOf w = keys.idxOf v := by
      rw [← ofNat_idxOf (v := w) small, ← ofNat_idxOf (v := v) small, same]
    exact ((List.idxOf_inj here).mp places.symm).symm
  · rintro rfl
    rfl

theorem numbers_append (covered : ∀ v ∈ vs, v ∈ keys) (k : String) :
    numbers (keys ++ [k]) vs = numbers keys vs :=
  List.map_congr_left fun v inside => by rw [List.idxOf_append_of_mem (covered v inside)]

theorem rowsIn_numbers (small : keys.length < Slot.countBound) (here : v ∈ keys) (start : Nat)
    (stop : Option Nat) : rowsIn (numbers keys vs) (· == Int64.ofNat (keys.idxOf v)) start stop =
      rowsIn vs (· == v) start stop := by
  rw [numbers, rowsIn_map]
  exact rowsIn_congr fun w _ => ofNat_idxOf_beq small here

theorem rowsIn_absent (absent : v ∉ vs) (start : Nat) (stop : Option Nat) :
    rowsIn vs (· == v) start stop = [] := by
  refine List.filter_eq_nil_iff.mpr fun row _ => ?_
  rw [Option.any_eq_true]
  rintro ⟨w, here, same⟩
  exact absent (eq_of_beq same ▸ List.mem_of_getElem? here)

theorem head_rowsIn (here : v ∈ keys) :
    (rowsIn keys (· == v) 0 none).head? = some (keys.idxOf v) := by
  have inside := List.idxOf_lt_length_of_mem here
  rw [rowsIn, List.head?_filter, List.find?_range'_eq_some]
  refine ⟨?_, ?_, fun j _ before => ?_⟩
  · rw [List.getElem?_eq_getElem inside, List.getElem_idxOf]
    simp
  · simpa [Node.stopOf] using inside
  · have other : (keys[j] == v) = false := by simpa using List.not_of_lt_findIdx before
    rw [List.getElem?_eq_getElem (before.trans inside), Option.any_some, other]
    rfl

end Keys

namespace EnumColumn

variable {c c' : EnumColumn} {s s' : Store} {keys vs : List String} {R : Assertion} {m : Memory}
  {base : Nat} {own : Set Nat} {row : Nat} {v : String}

/-- Keys and values, whatever the index says. -/
def stored (c : EnumColumn) (keys vs : List String) : Assertion :=
  .fact ((0 < c.values.maxNodeSize ∧ c.values.maxNodeSize < 2 ^ 24 - 2) ∧ keys.Nodup ∧
      ∀ v ∈ vs, v ∈ keys) *
    (c.keys.holds keys * Tree.holds c.values (numbers keys vs))

/-- The column holds the texts `vs`, which are among the keys. -/
def holds (c : EnumColumn) (keys vs : List String) : Assertion :=
  .fact (Indexes c.index vs) * c.stored keys vs

theorem stored_mul : s.Holds (c.stored keys vs * R) ↔
    ((0 < c.values.maxNodeSize ∧ c.values.maxNodeSize < 2 ^ 24 - 2) ∧ keys.Nodup ∧
      ∀ v ∈ vs, v ∈ keys) ∧
      s.Holds (c.keys.holds keys * (Tree.holds c.values (numbers keys vs) * R)) := by
  rw [stored, mul_assoc, Store.holds_fact_mul, mul_assoc]

theorem holds_mul : s.Holds (c.holds keys vs * R) ↔
    Indexes c.index vs ∧ s.Holds (c.stored keys vs * R) := by
  rw [holds, mul_assoc, Store.holds_fact_mul]

section Read

variable (h : (c.stored keys vs).holds m base own) (many : keys.length < Slot.countBound)
include h

theorem covered_of_stored : ∀ v ∈ vs, v ∈ keys := (Assertion.fact_mul.mp h).1.2.2

theorem keys_of_stored : ∃ own, (c.keys.holds keys).holds m base own := by
  obtain ⟨-, x, y, rfl, -, held, -⟩ := Assertion.fact_mul.mp h
  exact ⟨x, held⟩

theorem values_of_stored : ∃ own, (Tree.holds c.values (numbers keys vs)).holds m base own := by
  obtain ⟨-, x, y, rfl, -, -, held⟩ := Assertion.fact_mul.mp h
  exact ⟨y, held⟩

theorem size_of_stored (small : vs.length < Slot.countBound) : c.size m = vs.length := by
  obtain ⟨_, held⟩ := values_of_stored h
  rw [size, Tree.size_of_holds held (by simpa [numbers] using small), numbers, List.length_map]

include many

theorem keyCount_of_stored : c.keyCount m = keys.length := by
  obtain ⟨_, held⟩ := keys_of_stored h
  exact PlainColumn.size_of_holds held many

theorem findKey_of_stored (v : String) :
    c.findKey m v = if v ∈ keys then some (keys.idxOf v) else none := by
  obtain ⟨_, held⟩ := keys_of_stored h
  rw [findKey, PlainColumn.findFirst_of_holds held many]
  split
  next here => exact head_rowsIn here
  next absent => rw [rowsIn_absent absent, List.head?_nil]

variable (small : vs.length < Slot.countBound)
include small

omit many in
theorem value_of_stored (inside : row < vs.length) :
    c.values.get m row = Int64.ofNat (keys.idxOf vs[row]) := by
  obtain ⟨_, values⟩ := values_of_stored h
  rw [Tree.get_of_holds values (by simpa [numbers] using small) (by simpa [numbers] using inside)]
  simp [numbers]

theorem keyOf_of_stored (inside : row < vs.length) : c.keyOf m row = keys.idxOf vs[row] := by
  rw [keyOf, value_of_stored h small inside, ofNat_idxOf many]

theorem get_of_stored (inside : row < vs.length) : c.get m row = vs[row] := by
  obtain ⟨_, held⟩ := keys_of_stored h
  have here := covered_of_stored h vs[row] (List.getElem_mem inside)
  rw [get, keyOf_of_stored h many small inside,
    PlainColumn.get_of_holds held many (List.idxOf_lt_length_of_mem here), List.getElem_idxOf]

theorem toList_of_stored : c.toList m = vs := by
  apply List.ext_getElem
  · simp [toList, size_of_stored h small]
  · intro i _ inside
    simp [toList, get_of_stored h many small inside]

theorem findAll_of_stored (v : String) (start : Nat) (stop : Option Nat) :
    c.findAll m v start stop = rowsIn vs (· == v) start stop := by
  obtain ⟨_, values⟩ := values_of_stored h
  have short : (numbers keys vs).length < Slot.countBound := by simpa [numbers] using small
  rw [findAll, findKey_of_stored h many]
  by_cases here : v ∈ keys
  · rw [if_pos here]
    exact (IntColumn.findAll_of_holds values short ..).trans (rowsIn_numbers many here ..)
  · rw [if_neg here, rowsIn_absent fun inside => here (covered_of_stored h v inside)]

theorem findFirst_of_stored (v : String) (start : Nat) (stop : Option Nat) :
    c.findFirst m v start stop = (rowsIn vs (· == v) start stop).head? := by
  obtain ⟨_, values⟩ := values_of_stored h
  have short : (numbers keys vs).length < Slot.countBound := by simpa [numbers] using small
  rw [findFirst, findKey_of_stored h many]
  by_cases here : v ∈ keys
  · rw [if_pos here, ← rowsIn_numbers many here]
    exact IntColumn.findFirst_of_holds values short ..
  · rw [if_neg here, rowsIn_absent fun inside => here (covered_of_stored h v inside)]
    rfl

theorem count_of_stored (v : String) : c.count m v = (rowsIn vs (· == v) 0 none).length := by
  obtain ⟨_, values⟩ := values_of_stored h
  have short : (numbers keys vs).length < Slot.countBound := by simpa [numbers] using small
  rw [count, findKey_of_stored h many]
  by_cases here : v ∈ keys
  · rw [if_pos here, ← rowsIn_numbers many here]
    exact IntColumn.count_of_holds values short _
  · rw [if_neg here, rowsIn_absent fun inside => here (covered_of_stored h v inside)]
    rfl

end Read

/-! ### Edits -/

theorem indexedValue_bind {α : Type} {f : String → Edit EnumColumn α} {p : EnumColumn × Store} :
    (indexedValue row >>= f) p =
      f (if p.1.index.isSome then p.1.get p.2.memory row else "") p := by
  rw [indexedValue, bind_assoc, Edit.self_bind]
  split <;> simp

theorem editValues_ok {e : Edit IntColumn Unit} {p p' : EnumColumn × Store} :
    editValues e p = (.ok (), p') ↔
      ∃ t, e (p.1.values, p.2) = (.ok (), (t, p'.2)) ∧ p'.1 = { p.1 with values := t } :=
  Edit.focus_ok

/-- A text that is not among the keys is added to them; the numbers of the others stay. -/
theorem findOrAddKey_ok {k : Nat} (h : s.Holds (c.stored keys vs * R))
    (many : keys.length + 1 < Slot.countBound)
    (run : findOrAddKey v (c, s) = (.ok k, (c', s'))) :
    c'.index = c.index ∧ ∃ keys', keys'.length ≤ keys.length + 1 ∧ v ∈ keys' ∧
      k = keys'.idxOf v ∧ s'.Holds (c'.stored keys' vs * R) := by
  obtain ⟨_, here⟩ := h.reads
  have few := Nat.lt_of_succ_lt many
  rw [findOrAddKey, Edit.self_bind, Edit.read_bind, findKey_of_stored here few] at run
  by_cases inside : v ∈ keys
  · rw [if_pos inside] at run
    cases run
    exact ⟨rfl, keys, Nat.le_succ _, inside, rfl, h⟩
  · rw [if_neg inside] at run
    simp only [Edit.read_bind, keyCount_of_stored here few, Edit.bind_ok] at run
    obtain ⟨_, ⟨c₁, s₁⟩, first, run⟩ := run
    cases run
    obtain ⟨ks, added, same⟩ := Edit.focus_ok.mp first
    simp only at added same
    subst same
    obtain ⟨⟨fits, distinct, covered⟩, h⟩ := stored_mul.mp h
    have h := PlainColumn.add_holds h many added
    refine ⟨rfl, keys ++ [v], by simp, by simp, ?_, stored_mul.mpr ⟨⟨fits, ?_, ?_⟩, ?_⟩⟩
    · rw [List.idxOf_append_of_notMem inside]
      simp
    · exact distinct.append (List.nodup_singleton v) (List.disjoint_singleton.mpr inside)
    · exact fun w here => List.mem_append_left _ (covered w here)
    · rwa [numbers_append covered]

/-- An edit of the numbers that follows an edit of the texts. -/
theorem editValues_stored {e : Edit IntColumn Unit} {vs' : List String}
    (h : s.Holds (c.stored keys vs * R)) (covered' : (∀ v ∈ vs, v ∈ keys) → ∀ v ∈ vs', v ∈ keys)
    (edits : ∀ {t R}, s.Holds (Tree.holds c.values (numbers keys vs) * R) →
      0 < c.values.maxNodeSize ∧ c.values.maxNodeSize < 2 ^ 24 - 2 →
      e (c.values, s) = (.ok (), (t, s')) →
        t.maxNodeSize = c.values.maxNodeSize ∧ s'.Holds (Tree.holds t (numbers keys vs') * R))
    (run : editValues e (c, s) = (.ok (), (c', s'))) :
    c'.index = c.index ∧ s'.Holds (c'.stored keys vs' * R) := by
  obtain ⟨t, edited, same⟩ := editValues_ok.mp run
  simp only at same
  subst same
  obtain ⟨⟨fits, distinct, covered⟩, h⟩ := stored_mul.mp h
  obtain ⟨kept, h⟩ := edits (h.of_eq (mul_left_comm ..)) fits edited
  exact ⟨rfl, stored_mul.mpr ⟨⟨kept ▸ fits, distinct, covered' covered⟩, h.of_eq (mul_left_comm ..)⟩⟩

theorem setValue_stored (h : s.Holds (c.stored keys vs * R)) (known : v ∈ keys)
    (inside : row < vs.length) (small : vs.length < Slot.countBound)
    (run : editValues (Tree.set row (Int64.ofNat (keys.idxOf v))) (c, s) = (.ok (), (c', s'))) :
    c'.index = c.index ∧ s'.Holds (c'.stored keys (vs.set row v) * R) := by
  refine editValues_stored h (fun covered w here => ?_) (fun h _ edited => ?_) run
  · rcases List.mem_or_eq_of_mem_set here with old | rfl
    · exact covered w old
    · exact known
  · have edited := Tree.set_holds h (by simpa [numbers] using inside) (by simpa [numbers] using small)
      edited
    rwa [numbers, ← List.map_set] at edited

theorem insertValue_stored (h : s.Holds (c.stored keys vs * R)) (known : v ∈ keys)
    (inside : row ≤ vs.length) (small : vs.length + 1 < Slot.countBound)
    (run : editValues (Tree.insert (some row) (Int64.ofNat (keys.idxOf v))) (c, s) =
      (.ok (), (c', s'))) :
    c'.index = c.index ∧ s'.Holds (c'.stored keys (vs.insertIdx row v) * R) := by
  refine editValues_stored h (fun covered w here => ?_) (fun h fits edited => ?_) run
  · rcases List.eq_or_mem_of_mem_insertIdx here with rfl | old
    · exact known
    · exact covered w old
  · have edited := Tree.insert_holds h (by simpa [numbers] using inside)
      (by simpa [numbers] using small) fits.1 fits.2 edited
    rwa [Option.getD_some, numbers, ← List.map_insertIdx] at edited

theorem eraseValue_stored {row : Option Nat} (h : s.Holds (c.stored keys vs * R))
    (inside : row.getD (vs.length - 1) < vs.length) (small : vs.length < Slot.countBound)
    (run : editValues (Tree.erase row) (c, s) = (.ok (), (c', s'))) :
    c'.index = c.index ∧
      s'.Holds (c'.stored keys (vs.eraseIdx (row.getD (vs.length - 1))) * R) := by
  refine editValues_stored h (fun covered w here => covered w (List.mem_of_mem_eraseIdx here))
    (fun h _ edited => ?_) run
  have edited := Tree.erase_holds h (by simpa [numbers] using inside)
    (by simpa [numbers] using small) edited
  rwa [numbers, List.length_map, List.eraseIdx_map] at edited

theorem clearValues_stored (h : s.Holds (c.stored keys vs * R))
    (run : editValues Tree.clear (c, s) = (.ok (), (c', s'))) :
    c'.index = c.index ∧ s'.Holds (c'.stored keys [] * R) :=
  editValues_stored h (fun _ => List.forall_mem_nil _) (fun h _ edited => Tree.clear_holds h edited) run

theorem set_holds (h : s.Holds (c.holds keys vs * R)) (many : keys.length + 1 < Slot.countBound)
    (inside : row < vs.length) (small : vs.length < Slot.countBound)
    (run : set row v (c, s) = (.ok (), (c', s'))) :
    ∃ keys', keys'.length ≤ keys.length + 1 ∧ s'.Holds (c'.holds keys' (vs.set row v) * R) := by
  obtain ⟨index, h⟩ := holds_mul.mp h
  obtain ⟨_, here⟩ := h.reads
  have old := get_of_stored here (Nat.lt_of_succ_lt many) small inside
  -- What is stored does not depend on the index, which is edited first.
  have stored (i : Option SearchIndex) : s.Holds (stored { c with index := i } keys vs * R) := h
  rw [set, indexedValue_bind, updateIndex, Edit.update_bind, Edit.bind_ok] at run
  obtain ⟨k, ⟨c₁, s₁⟩, found, run⟩ := run
  obtain ⟨same, keys', few, known, rfl, h⟩ := findOrAddKey_ok (stored _) many found
  obtain ⟨same', h⟩ := setValue_stored h known inside small run
  refine ⟨keys', few, holds_mul.mpr ⟨?_, h⟩⟩
  rw [same', same]
  refine index.map fun x here mirrors => ?_
  have indexed : c.index.isSome := Option.isSome_iff_exists.mpr ⟨x, here⟩
  rw [if_pos indexed, old]
  exact mirrors.set (List.getElem?_eq_getElem inside)

theorem insert_holds {row : Option Nat} (h : s.Holds (c.holds keys vs * R))
    (many : keys.length + 1 < Slot.countBound) (inside : row.getD vs.length ≤ vs.length)
    (small : vs.length + 1 < Slot.countBound) (run : insert row v (c, s) = (.ok (), (c', s'))) :
    ∃ keys', keys'.length ≤ keys.length + 1 ∧
      s'.Holds (c'.holds keys' (vs.insertIdx (row.getD vs.length) v) * R) := by
  obtain ⟨index, h⟩ := holds_mul.mp h
  obtain ⟨_, here⟩ := h.reads
  rw [insert, Edit.self_bind, Edit.read_bind, size_of_stored here (Nat.lt_of_succ_lt small),
    Edit.bind_ok] at run
  obtain ⟨k, ⟨c₁, s₁⟩, found, run⟩ := run
  obtain ⟨same, keys', few, known, rfl, h⟩ := findOrAddKey_ok h many found
  obtain ⟨_, ⟨c₂, s₂⟩, edited, run⟩ := Edit.bind_ok.mp run
  obtain ⟨same', h⟩ := insertValue_stored h known inside small edited
  rw [updateIndex, Edit.update_apply] at run
  cases run
  refine ⟨keys', few, holds_mul.mpr ⟨?_, h⟩⟩
  rw [same', same]
  exact index.map fun x _ mirrors => mirrors.insert inside (Nat.lt_of_succ_lt small)

theorem add_holds (h : s.Holds (c.holds keys vs * R)) (many : keys.length + 1 < Slot.countBound)
    (small : vs.length + 1 < Slot.countBound) (run : add v (c, s) = (.ok (), (c', s'))) :
    ∃ keys', keys'.length ≤ keys.length + 1 ∧ s'.Holds (c'.holds keys' (vs ++ [v]) * R) := by
  have last : (none : Option Nat).getD vs.length ≤ vs.length := Nat.le_refl _
  have h := insert_holds h many last small run
  rwa [Option.getD_none, List.insertIdx_length_self] at h

theorem erase_holds {row : Option Nat} (h : s.Holds (c.holds keys vs * R))
    (many : keys.length < Slot.countBound) (inside : row.getD (vs.length - 1) < vs.length)
    (small : vs.length < Slot.countBound) (run : erase row (c, s) = (.ok (), (c', s'))) :
    s'.Holds (c'.holds keys (vs.eraseIdx (row.getD (vs.length - 1))) * R) := by
  obtain ⟨index, h⟩ := holds_mul.mp h
  obtain ⟨_, here⟩ := h.reads
  have old := get_of_stored here many small inside
  have stored (i : Option SearchIndex) : s.Holds (stored { c with index := i } keys vs * R) := h
  rw [erase, Edit.self_bind, Edit.read_bind, size_of_stored here small, indexedValue_bind,
    updateIndex, Edit.update_bind] at run
  obtain ⟨same, h⟩ := eraseValue_stored (stored _) inside small run
  refine holds_mul.mpr ⟨?_, h⟩
  rw [same]
  refine index.map fun x here mirrors => ?_
  have indexed : c.index.isSome := Option.isSome_iff_exists.mpr ⟨x, here⟩
  rw [if_pos indexed, old]
  exact mirrors.erase (List.getElem?_eq_getElem inside) small

/-- The keys stay. -/
theorem clear_holds (h : s.Holds (c.holds keys vs * R))
    (run : clear (c, s) = (.ok (), (c', s'))) : s'.Holds (c'.holds keys [] * R) := by
  obtain ⟨index, h⟩ := holds_mul.mp h
  have stored (i : Option SearchIndex) : s.Holds (stored { c with index := i } keys vs * R) := h
  rw [clear, updateIndex, Edit.update_bind] at run
  obtain ⟨same, h⟩ := clearValues_stored (stored _) run
  refine holds_mul.mpr ⟨?_, h⟩
  rw [same]
  exact index.map fun _ _ _ => SearchIndex.mirrors_nil

theorem addIndex_holds (h : s.Holds (c.holds keys vs * R)) (many : keys.length < Slot.countBound)
    (small : vs.length < Slot.countBound) (run : addIndex (c, s) = (.ok (), (c', s'))) :
    s'.Holds (c'.holds keys vs * R) := by
  obtain ⟨index, h⟩ := holds_mul.mp h
  obtain ⟨_, here⟩ := h.reads
  rw [addIndex, Edit.self_bind, Edit.read_bind, toList_of_stored here many small] at run
  cases run
  refine holds_mul.mpr ⟨?_, h⟩
  rintro x ⟨⟩
  exact SearchIndex.mirrors_build vs

theorem create_holds {maxNodeSize : Nat} (h : s.Holds R) (room : 0 < maxNodeSize)
    (max : maxNodeSize < 2 ^ 24 - 2) (run : create maxNodeSize s = (.ok c, s')) :
    s'.Holds (c.holds [] [] * R) := by
  rw [create, StoreM.bind_ok] at run
  obtain ⟨keys, s₁, made, run⟩ := run
  have h := PlainColumn.create_holds h room max made
  rw [Tree.create, StoreM.bind_ok] at run
  obtain ⟨t, s₂, made, run⟩ := run
  obtain ⟨rfl, rfl⟩ := StoreM.pure_ok.mp run
  obtain ⟨leaf, s₃, created, run⟩ := StoreM.bind_ok.mp made
  obtain ⟨rfl, rfl⟩ := StoreM.pure_ok.mp run
  have h := LawfulLeaf.create h created
  exact holds_mul.mpr ⟨indexes_none [], stored_mul.mpr
    ⟨⟨⟨room, max⟩, .nil, List.forall_mem_nil _⟩, h.of_eq (mul_left_comm ..)⟩⟩

end EnumColumn

end ColumnStore
