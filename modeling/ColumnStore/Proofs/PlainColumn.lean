import ColumnStore.Column.Plain
import ColumnStore.Proofs.ColumnSearch
import ColumnStore.Proofs.SearchIndex
import ColumnStore.Proofs.TreeClear
import ColumnStore.Proofs.TreeUpdate
import ColumnStore.Proofs.Utf8
import Mathlib.Tactic.Tauto

set_option autoImplicit false

/-!
Columns that store every text, as assertions. The tree holds the encoded texts, and the index, if
there is one, tells where they are.
-/
namespace ColumnStore

/-! ### Indexes and scans -/

/-- There may be no index. -/
def Indexes (index : Option SearchIndex) (vs : List String) : Prop := ∀ x ∈ index, x.Mirrors vs

theorem indexes_none (vs : List String) : Indexes none vs := nofun

theorem Indexes.map {index : Option SearchIndex} {vs vs' : List String}
    {f : SearchIndex → SearchIndex} (h : Indexes index vs)
    (each : ∀ x ∈ index, x.Mirrors vs → (f x).Mirrors vs') : Indexes (index.map f) vs' := by
  intro y inside
  obtain ⟨x, here, rfl⟩ := Option.mem_map.mp inside
  exact each x here (h x here)

namespace SearchIndex

variable {x : SearchIndex} {vs : List String}

theorem Mirrors.filter_rows (h : x.Mirrors vs) (v : String) (start : Nat) (stop : Option Nat) :
    (x.rows v).filter (PlainColumn.inRange start (Node.stopOf vs.length stop)) =
      rowsIn vs (· == v) start stop := by
  obtain ⟨ascends, mem⟩ := h.rows v
  refine Ascending.Lists.unique (p := fun r => r ∈ rowsIn vs (· == v) start stop)
    ⟨ascends.filter _, fun r => ?_⟩ ⟨ascends_rowsIn .., fun r => Iff.rfl⟩
  simp only [mem_rowsIn, PlainColumn.inRange, List.mem_filter, mem, Option.any_eq_true,
    Bool.and_eq_true, decide_eq_true_eq, beq_iff_eq, exists_eq_right]
  tauto

theorem Mirrors.rows_eq (h : x.Mirrors vs) (v : String) : x.rows v = rowsIn vs (· == v) 0 none := by
  rw [← h.filter_rows, eq_comm, List.filter_eq_self]
  intro r inside
  have := lt_of_getElem? ((h.rows v).mem r |>.mp inside)
  simpa [PlainColumn.inRange, Node.stopOf] using this

end SearchIndex

namespace PlainColumn

variable {c c' : PlainColumn} {s s' : Store} {vs : List String} {R : Assertion} {m : Memory}
  {base : Nat} {own : Set Nat} {row : Nat} {v : String}

/-- The column holds the texts `vs`. -/
def holds (c : PlainColumn) (vs : List String) : Assertion :=
  .fact ((0 < c.tree.maxNodeSize ∧ c.tree.maxNodeSize < 2 ^ 24 - 2) ∧ Indexes c.index vs) *
    Tree.holds c.tree (vs.map Text.encode)

theorem holds_mul : s.Holds (c.holds vs * R) ↔
    ((0 < c.tree.maxNodeSize ∧ c.tree.maxNodeSize < 2 ^ 24 - 2) ∧ Indexes c.index vs) ∧
      s.Holds (Tree.holds c.tree (vs.map Text.encode) * R) := by
  rw [holds, mul_assoc, Store.holds_fact_mul]

section Read

variable (h : (c.holds vs).holds m base own) (small : vs.length < Slot.countBound)
include h

theorem indexes_of_holds : Indexes c.index vs := (Assertion.fact_mul.mp h).1.2

theorem tree_of_holds : (Tree.holds c.tree (vs.map Text.encode)).holds m base own :=
  (Assertion.fact_mul.mp h).2

include small

theorem size_of_holds : c.size m = vs.length := by
  rw [size, Tree.size_of_holds (tree_of_holds h) (by simpa using small), List.length_map]

theorem bytes_of_holds (inside : row < vs.length) :
    Tree.get m c.tree row = Text.encode vs[row] := by
  rw [Tree.get_of_holds (tree_of_holds h) (by simpa using small) (by simpa using inside),
    List.getElem_map]

theorem get_of_holds (inside : row < vs.length) : c.get m row = vs[row] := by
  rw [get, bytes_of_holds h small inside, Text.decodeLossy_encode]

theorem toList_of_holds : c.toList m = vs := by
  apply List.ext_getElem
  · simp [toList, size_of_holds h small]
  · intro i _ inside
    simp [toList, get_of_holds h small inside]

theorem stopOf_of_holds (stop : Option Nat) :
    c.tree.stopOf m stop = Node.stopOf vs.length stop := by
  rw [Tree.stopOf, Tree.size_of_holds (tree_of_holds h) (by simpa using small), List.length_map]

theorem findAll_of_holds (v : String) (start : Nat) (stop : Option Nat) :
    c.findAll m v start stop = rowsIn vs (· == v) start stop := by
  rw [findAll]
  split
  next x index =>
    rw [stopOf_of_holds h small]
    exact (indexes_of_holds h x index).filter_rows v start stop
  next =>
    rw [BytesColumn.findAll_of_holds (tree_of_holds h) (by simpa using small), rowsIn_map]
    exact rowsIn_congr fun w _ => Text.encode_beq w v

theorem findFirst_of_holds (v : String) (start : Nat) (stop : Option Nat) :
    c.findFirst m v start stop = (rowsIn vs (· == v) start stop).head? := by
  rw [findFirst]
  split
  next x index =>
    rw [stopOf_of_holds h small, ← List.head?_filter]
    exact congrArg _ ((indexes_of_holds h x index).filter_rows v start stop)
  next =>
    rw [BytesColumn.findFirst_of_holds (tree_of_holds h) (by simpa using small), rowsIn_map]
    exact congrArg _ (rowsIn_congr fun w _ => Text.encode_beq w v)

theorem count_of_holds (v : String) : c.count m v = (rowsIn vs (· == v) 0 none).length := by
  rw [count]
  split
  next x index => rw [SearchIndex.count, (indexes_of_holds h x index).rows_eq]
  next => rw [findAll_of_holds h small]

end Read

/-! ### Edits -/

/-- The old value is looked up only for the index. -/
theorem indexedValue_bind {α : Type} {f : String → Edit PlainColumn α} {p : PlainColumn × Store} :
    (indexedValue row >>= f) p =
      f (if p.1.index.isSome then p.1.get p.2.memory row else "") p := by
  rw [indexedValue, bind_assoc, Edit.self_bind]
  split <;> simp

theorem editTree_ok {e : Edit BytesColumn Unit} {p p' : PlainColumn × Store} :
    editTree e p = (.ok (), p') ↔
      ∃ t, e (p.1.tree, p.2) = (.ok (), (t, p'.2)) ∧ p'.1 = { p.1 with tree := t } := Edit.focus_ok

theorem set_holds (h : s.Holds (c.holds vs * R)) (inside : row < vs.length)
    (small : vs.length < Slot.countBound) (run : set row v (c, s) = (.ok (), (c', s'))) :
    s'.Holds (c'.holds (vs.set row v) * R) := by
  obtain ⟨_, here⟩ := h.reads
  have old := get_of_holds here small inside
  obtain ⟨⟨fits, index⟩, h⟩ := holds_mul.mp h
  rw [set, indexedValue_bind, updateIndex, Edit.update_bind, editTree_ok] at run
  obtain ⟨t, edited, same⟩ := run
  simp only at same
  subst same
  obtain ⟨kept, h⟩ := Tree.set_holds h (by simpa using inside) (by simpa using small) edited
  rw [← List.map_set] at h
  refine holds_mul.mpr ⟨⟨kept ▸ fits, index.map fun x here mirrors => ?_⟩, h⟩
  have indexed : c.index.isSome := Option.isSome_iff_exists.mpr ⟨x, here⟩
  rw [if_pos indexed, old]
  exact mirrors.set (List.getElem?_eq_getElem inside)

theorem insert_holds {row : Option Nat} (h : s.Holds (c.holds vs * R))
    (inside : row.getD vs.length ≤ vs.length) (small : vs.length + 1 < Slot.countBound)
    (run : insert row v (c, s) = (.ok (), (c', s'))) :
    s'.Holds (c'.holds (vs.insertIdx (row.getD vs.length) v) * R) := by
  obtain ⟨_, here⟩ := h.reads
  have size := size_of_holds here (Nat.lt_of_succ_lt small)
  obtain ⟨⟨fits, index⟩, h⟩ := holds_mul.mp h
  rw [insert, Edit.self_bind, Edit.read_bind, size, Edit.bind_ok] at run
  obtain ⟨_, ⟨c₁, s₁⟩, first, run⟩ := run
  obtain ⟨t, edited, same⟩ := editTree_ok.mp first
  simp only at edited same
  subst same
  rw [updateIndex, Edit.update_apply] at run
  cases run
  obtain ⟨kept, h⟩ := Tree.insert_holds h (by simpa using inside) (by simpa using small) fits.1 fits.2
    edited
  rw [Option.getD_some, ← List.map_insertIdx] at h
  exact holds_mul.mpr ⟨⟨kept ▸ fits, index.map fun x _ mirrors =>
    mirrors.insert inside (Nat.lt_of_succ_lt small)⟩, h⟩

theorem add_holds (h : s.Holds (c.holds vs * R)) (small : vs.length + 1 < Slot.countBound)
    (run : add v (c, s) = (.ok (), (c', s'))) : s'.Holds (c'.holds (vs ++ [v]) * R) := by
  have last : (none : Option Nat).getD vs.length ≤ vs.length := Nat.le_refl _
  have h := insert_holds h last small run
  rwa [Option.getD_none, List.insertIdx_length_self] at h

theorem erase_holds {row : Option Nat} (h : s.Holds (c.holds vs * R))
    (inside : row.getD (vs.length - 1) < vs.length) (small : vs.length < Slot.countBound)
    (run : erase row (c, s) = (.ok (), (c', s'))) :
    s'.Holds (c'.holds (vs.eraseIdx (row.getD (vs.length - 1))) * R) := by
  obtain ⟨_, here⟩ := h.reads
  have size := size_of_holds here small
  have old := get_of_holds here small inside
  obtain ⟨⟨fits, index⟩, h⟩ := holds_mul.mp h
  rw [erase, Edit.self_bind, Edit.read_bind, size, indexedValue_bind, updateIndex, Edit.update_bind,
    editTree_ok] at run
  obtain ⟨t, edited, same⟩ := run
  simp only at same
  subst same
  obtain ⟨kept, h⟩ := Tree.erase_holds h (by simpa using inside) (by simpa using small) edited
  rw [List.length_map, List.eraseIdx_map] at h
  refine holds_mul.mpr ⟨⟨kept ▸ fits, index.map fun x here mirrors => ?_⟩, h⟩
  have indexed : c.index.isSome := Option.isSome_iff_exists.mpr ⟨x, here⟩
  rw [if_pos indexed, old]
  exact mirrors.erase (List.getElem?_eq_getElem inside) small

theorem clear_holds (h : s.Holds (c.holds vs * R)) (run : clear (c, s) = (.ok (), (c', s'))) :
    s'.Holds (c'.holds [] * R) := by
  obtain ⟨⟨fits, index⟩, h⟩ := holds_mul.mp h
  rw [clear, updateIndex, Edit.update_bind, editTree_ok] at run
  obtain ⟨t, edited, same⟩ := run
  simp only at same
  subst same
  obtain ⟨kept, h⟩ := Tree.clear_holds h edited
  exact holds_mul.mpr ⟨⟨kept ▸ fits, index.map fun _ _ _ => SearchIndex.mirrors_nil⟩, h⟩

theorem addIndex_holds (h : s.Holds (c.holds vs * R)) (small : vs.length < Slot.countBound)
    (run : addIndex (c, s) = (.ok (), (c', s'))) : s'.Holds (c'.holds vs * R) := by
  obtain ⟨_, here⟩ := h.reads
  obtain ⟨⟨fits, index⟩, h⟩ := holds_mul.mp h
  rw [addIndex, Edit.self_bind, Edit.read_bind, toList_of_holds here small] at run
  cases run
  refine holds_mul.mpr ⟨⟨fits, ?_⟩, h⟩
  rintro x ⟨⟩
  exact SearchIndex.mirrors_build vs

theorem create_holds {maxNodeSize : Nat} (h : s.Holds R) (room : 0 < maxNodeSize)
    (max : maxNodeSize < 2 ^ 24 - 2) (run : create maxNodeSize s = (.ok c, s')) :
    s'.Holds (c.holds [] * R) := by
  rw [create, Tree.create, StoreM.bind_ok] at run
  obtain ⟨t, s₁, made, run⟩ := run
  obtain ⟨rfl, rfl⟩ := StoreM.pure_ok.mp run
  obtain ⟨leaf, s₂, created, run⟩ := StoreM.bind_ok.mp made
  obtain ⟨rfl, rfl⟩ := StoreM.pure_ok.mp run
  exact holds_mul.mpr ⟨⟨⟨room, max⟩, indexes_none []⟩, LawfulLeaf.create h created⟩

end PlainColumn

end ColumnStore
