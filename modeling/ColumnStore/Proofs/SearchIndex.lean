import ColumnStore.Column.SearchIndex
import ColumnStore.Proofs.Slot
import Mathlib.Data.List.Sort
import Mathlib.Tactic.Common

set_option autoImplicit false

/-!
What a search index tells: for every value exactly the rows that hold it. Its edits follow the edits
of the list of values.
-/
namespace ColumnStore

namespace Ascending

/-- The rows that satisfy `p`, in ascending order. -/
structure Lists (rows : List Nat) (p : Nat → Prop) : Prop where
  ascends : rows.Pairwise (· < ·)
  mem : ∀ r, r ∈ rows ↔ p r

namespace Lists

variable {rows : List Nat} {p q : Nat → Prop} {row : Nat}

theorem exists_split (h : Lists rows p) (row : Nat) :
    ∃ lower upper, rows = lower ++ upper ∧ (∀ r ∈ lower, r < row) ∧ ∀ r ∈ upper, row ≤ r := by
  obtain ⟨lower, upper, parts, low, high⟩ :=
    Ascending.exists_split (P := (· < row)) (h.ascends.imp fun less low => Nat.lt_trans less low)
  exact ⟨lower, upper, parts, low, fun r there => Nat.le_of_not_lt (high r there)⟩

theorem congr (h : Lists rows p) (same : ∀ r, p r ↔ q r) : Lists rows q :=
  ⟨h.ascends, fun r => (h.mem r).trans (same r)⟩

theorem nil : Lists [] fun _ => False := ⟨.nil, fun _ => List.mem_nil_iff _⟩

theorem unique {rows' : List Nat} (h : Lists rows p) (h' : Lists rows' p) : rows = rows' :=
  List.Perm.eq_of_pairwise (fun a _ _ _ ab ba => absurd (ab.trans ba) (Nat.lt_irrefl a)) h.ascends
    h'.ascends ((List.perm_ext_iff_of_nodup (h.ascends.imp Nat.ne_of_lt)
      (h'.ascends.imp Nat.ne_of_lt)).mpr fun r => (h.mem r).trans (h'.mem r).symm)

theorem range (n : Nat) (p : Nat → Prop) [DecidablePred p] :
    Lists ((List.range n).filter p) fun r => r < n ∧ p r :=
  ⟨List.pairwise_lt_range.filter _, fun r => by simp⟩

end Lists

end Ascending

namespace SearchIndex

open Ascending (Lists)

variable {lower upper rows : List Nat} {row start step : Nat} {p : Nat → Prop}

/-! ### Lists of rows -/

theorem addRow_split (low : ∀ r ∈ lower, r < row) (high : ∀ r ∈ upper, row ≤ r) :
    addRow row (lower ++ upper) = lower ++ row :: upper := by
  rw [addRow, Ascending.count_split (by simpa using low) (by simpa using high)]
  clear low
  induction lower with
  | nil => rfl
  | cons r lower ih => exact congrArg (r :: ·) ih

theorem removeRow_split (low : ∀ r ∈ lower, r < row) (high : ∀ r ∈ upper, row < r) :
    removeRow row (lower ++ row :: upper) = lower ++ upper := by
  have place : Ascending.halve (· ≤ row) (lower ++ row :: upper) = lower.length := by
    rw [← List.singleton_append, ← List.append_assoc, Ascending.halve_split]
    · simp
    · intro r inside
      rcases List.mem_append.mp inside with inside | inside
      · exact decide_eq_true (Nat.le_of_lt (low r inside))
      · exact decide_eq_true (Nat.le_of_eq (List.mem_singleton.mp inside))
    · simpa using high
  rw [removeRow, place]
  simp [List.eraseIdx_append_of_length_le (Nat.le_refl _)]

theorem shiftRows_split (low : ∀ r ∈ lower, r < start) (high : ∀ r ∈ upper, start ≤ r) :
    shiftRows start step (lower ++ upper) =
      lower ++ upper.map fun r => (r + step) % UInt64.size := by
  rw [shiftRows, Ascending.count_split (by simpa using low) (by simpa using high)]
  simp

theorem lists_addRow (h : Lists rows p) (free : ¬p row) :
    Lists (addRow row rows) fun r => r = row ∨ p r := by
  obtain ⟨lower, upper, rfl, low, high⟩ := h.exists_split row
  have absent : row ∉ upper := fun inside => free ((h.mem row).mp (List.mem_append_right _ inside))
  rw [addRow_split low high]
  constructor
  · obtain ⟨left, right, between⟩ := List.pairwise_append.mp h.ascends
    refine List.pairwise_append.mpr ⟨left, List.pairwise_cons.mpr ⟨?_, right⟩, ?_⟩
    · intro r inside
      exact Nat.lt_of_le_of_ne (high r inside) fun same => absent (same ▸ inside)
    · intro r inside r' inside'
      rcases List.mem_cons.mp inside' with rfl | inside'
      · exact low r inside
      · exact between r inside r' inside'
  · intro r
    rw [← h.mem r]
    simp only [List.mem_append, List.mem_cons]
    exact or_left_comm

theorem lists_removeRow (h : Lists rows p) (taken : p row) :
    Lists (removeRow row rows) fun r => r ≠ row ∧ p r := by
  obtain ⟨lower, upper, rfl, low, high⟩ := h.exists_split row
  obtain ⟨left, right, between⟩ := List.pairwise_append.mp h.ascends
  have present : row ∈ upper := by
    rcases List.mem_append.mp ((h.mem row).mpr taken) with inside | inside
    · exact absurd (low row inside) (Nat.lt_irrefl row)
    · exact inside
  -- The row is the first of the upper ones, since none of these is smaller.
  obtain ⟨upper, rfl⟩ : ∃ rest, upper = row :: rest := by
    cases upper with
    | nil => cases present
    | cons r rest =>
        rcases List.mem_cons.mp present with rfl | later
        · exact ⟨rest, rfl⟩
        · have := (List.pairwise_cons.mp right).1 row later
          have := high r List.mem_cons_self
          omega
  obtain ⟨above, right⟩ := List.pairwise_cons.mp right
  rw [removeRow_split low above]
  constructor
  · exact List.pairwise_append.mpr ⟨left, right,
      fun r inside r' inside' => between r inside r' (List.mem_cons_of_mem row inside')⟩
  · intro r
    rw [← h.mem r]
    simp only [List.mem_append, List.mem_cons]
    constructor
    · rintro (inside | inside)
      · exact ⟨Nat.ne_of_lt (low r inside), .inl inside⟩
      · exact ⟨Nat.ne_of_gt (above r inside), .inr (.inr inside)⟩
    · rintro ⟨other, inside | rfl | inside⟩
      · exact .inl inside
      · exact absurd rfl other
      · exact .inr inside

theorem lists_shiftRows_up (h : Lists rows p) (small : ∀ r, p r → r + 1 < UInt64.size) :
    Lists (shiftRows row 1 rows) fun r => r < row ∧ p r ∨ row < r ∧ p (r - 1) := by
  obtain ⟨lower, upper, rfl, low, high⟩ := h.exists_split row
  obtain ⟨left, right, between⟩ := List.pairwise_append.mp h.ascends
  have moved : (upper.map fun r => (r + 1) % UInt64.size) = upper.map (· + 1) := by
    apply List.map_congr_left
    intro r inside
    exact Nat.mod_eq_of_lt (small r ((h.mem r).mp (List.mem_append_right _ inside)))
  rw [shiftRows_split low high, moved]
  constructor
  · refine List.pairwise_append.mpr ⟨left, ?_, ?_⟩
    · exact right.map _ fun a b => Nat.succ_lt_succ
    · intro r inside r' inside'
      obtain ⟨r', high', rfl⟩ := List.mem_map.mp inside'
      exact Nat.lt_succ_of_lt (between r inside r' high')
  · intro r
    rw [← h.mem r, ← h.mem (r - 1)]
    simp only [List.mem_append, List.mem_map]
    constructor
    · rintro (inside | ⟨r, inside, rfl⟩)
      · exact .inl ⟨low r inside, .inl inside⟩
      · exact .inr ⟨Nat.lt_succ_of_le (high r inside), .inr inside⟩
    · rintro (⟨below, inside | inside⟩ | ⟨above, inside | inside⟩)
      · exact .inl inside
      · have := high r inside
        omega
      · have := low _ inside
        omega
      · exact .inr ⟨r - 1, inside, by omega⟩

theorem lists_shiftRows_down (h : Lists rows p) (free : ¬p row) (fits : row + 1 < UInt64.size)
    (small : ∀ r, p r → r < UInt64.size) :
    Lists (shiftRows ((row + 1) % UInt64.size) (UInt64.size - 1) rows) fun r =>
      r < row ∧ p r ∨ row ≤ r ∧ p (r + 1) := by
  rw [Nat.mod_eq_of_lt fits]
  obtain ⟨lower, upper, rfl, low, high⟩ := h.exists_split (row + 1)
  obtain ⟨left, right, between⟩ := List.pairwise_append.mp h.ascends
  have moved : (upper.map fun r => (r + (UInt64.size - 1)) % UInt64.size) = upper.map (· - 1) := by
    apply List.map_congr_left
    intro r inside
    have := small r ((h.mem r).mp (List.mem_append_right _ inside))
    have := high r inside
    rw [show r + (UInt64.size - 1) = r - 1 + UInt64.size by omega, Nat.add_mod_right]
    exact Nat.mod_eq_of_lt (by omega)
  have below : ∀ r ∈ lower, r < row := by
    intro r inside
    have other : r ≠ row := fun same => free (same ▸ (h.mem r).mp (List.mem_append_left _ inside))
    have := low r inside
    omega
  rw [shiftRows_split low high, moved]
  constructor
  · refine List.pairwise_append.mpr ⟨left, ?_, ?_⟩
    · rw [List.pairwise_map]
      refine right.imp_of_mem fun {a b} inA _ less => ?_
      have := high a inA
      omega
    · intro r inside r' inside'
      obtain ⟨r', high', rfl⟩ := List.mem_map.mp inside'
      have := below r inside
      have := high r' high'
      omega
  · intro r
    rw [← h.mem r, ← h.mem (r + 1)]
    simp only [List.mem_append, List.mem_map]
    constructor
    · rintro (inside | ⟨r, inside, rfl⟩)
      · exact .inl ⟨below r inside, .inl inside⟩
      · have := high r inside
        rw [Nat.sub_add_cancel (by omega)]
        exact .inr ⟨by omega, .inr inside⟩
    · rintro (⟨less, inside | inside⟩ | ⟨more, inside | inside⟩)
      · exact .inl inside
      · have := high r inside
        omega
      · have := below _ inside
        omega
      · exact .inr ⟨r + 1, inside, rfl⟩

/-! ### Entries -/

/-- For every value the index has the rows that hold it; a value without rows has no entry. -/
structure Tells (x : SearchIndex) (holds : Nat → String → Prop) : Prop where
  distinct : (x.entries.map Prod.fst).Nodup
  filled : ∀ e ∈ x.entries, e.2 ≠ []
  rows : ∀ v, Lists (x.rows v) (holds · v)

variable {x : SearchIndex} {holds holds' : Nat → String → Prop} {v w : String}
  {entries : List (String × List Nat)} {f : List Nat → List Nat}

theorem Tells.congr (h : x.Tells holds) (same : ∀ r w, holds r w ↔ holds' r w) : x.Tells holds' :=
  ⟨h.distinct, h.filled, fun w => (h.rows w).congr fun r => same r w⟩

theorem lookup_editEntry :
    ((editEntry f v entries).lookup w).getD [] =
      if w = v then f ((entries.lookup v).getD []) else (entries.lookup w).getD [] := by
  induction entries with
  | nil =>
      rw [editEntry, List.lookup_cons]
      split <;> simp_all
  | cons e entries ih =>
      obtain ⟨u, rows⟩ := e
      rw [editEntry]
      split
      next here =>
        subst here
        by_cases same : w = u
        · simp [same]
        · simp [List.lookup_cons, beq_false_of_ne same, same]
      next other =>
        by_cases same : w = u
        · simp [same, other]
        · have apart : v ≠ u := fun h => other h.symm
          simp [List.lookup_cons, beq_false_of_ne same, beq_false_of_ne apart, ih]

theorem keys_editEntry : (editEntry f v entries).map Prod.fst =
    if v ∈ entries.map Prod.fst then entries.map Prod.fst else entries.map Prod.fst ++ [v] := by
  induction entries with
  | nil => rfl
  | cons e entries ih =>
      obtain ⟨u, rows⟩ := e
      rw [editEntry]
      split
      next here => simp [here]
      next other =>
        have apart : v ≠ u := fun h => other h.symm
        rw [List.map_cons, ih]
        simp only [List.map_cons, List.mem_cons, apart, false_or]
        split <;> rfl

theorem filled_editEntry (filled : ∀ e ∈ entries, e.2 ≠ []) (some : ∀ rows, f rows ≠ []) :
    ∀ e ∈ editEntry f v entries, e.2 ≠ [] := by
  induction entries with
  | nil => simpa [editEntry] using some []
  | cons e entries ih =>
      obtain ⟨u, rows⟩ := e
      obtain ⟨here, rest⟩ := List.forall_mem_cons.mp filled
      rw [editEntry]
      split
      next => exact List.forall_mem_cons.mpr ⟨some rows, rest⟩
      next => exact List.forall_mem_cons.mpr ⟨here, ih rest⟩

theorem Tells.edit {p : Nat → Prop} (h : x.Tells holds) (some : ∀ rows, f rows ≠ [])
    (edited : Lists (f (x.rows v)) p) :
    SearchIndex.Tells ⟨editEntry f v x.entries⟩ fun r w => if w = v then p r else holds r w := by
  refine ⟨?_, filled_editEntry h.filled some, fun w => ?_⟩
  · rw [keys_editEntry]
    split
    next => exact h.distinct
    next fresh => exact h.distinct.append (List.nodup_singleton v) (List.disjoint_singleton.mpr fresh)
  · rw [SearchIndex.rows, lookup_editEntry]
    split
    next => exact edited
    next => exact h.rows w

theorem addRow_ne_nil (row : Nat) (rows : List Nat) : addRow row rows ≠ [] := by
  cases rows with
  | nil => simp [addRow, Ascending.count, Ascending.halve]
  | cons r rows =>
      refine List.ne_nil_of_length_pos (Nat.lt_of_lt_of_le (Nat.succ_pos rows.length) ?_)
      rw [addRow, List.length_insertIdx]
      split <;> simp

theorem Tells.add (h : x.Tells holds) (free : ¬holds row v) :
    (x.add row v).Tells fun r w => r = row ∧ w = v ∨ holds r w := by
  refine (h.edit (addRow_ne_nil row) (lists_addRow (h.rows v) free)).congr fun r w => ?_
  by_cases same : w = v
  · simp [same]
  · simp [same]

theorem removeRow_nil (row : Nat) : removeRow row [] = [] := by
  simp [removeRow]

theorem lookup_removeEntry (distinct : (entries.map Prod.fst).Nodup) :
    ((removeEntry row v entries).lookup w).getD [] =
      if w = v then removeRow row ((entries.lookup v).getD []) else (entries.lookup w).getD [] := by
  induction entries with
  | nil => simp [removeEntry, removeRow_nil]
  | cons e entries ih =>
      obtain ⟨u, rows⟩ := e
      obtain ⟨fresh, distinct⟩ := List.nodup_cons.mp distinct
      rw [removeEntry]
      split
      next here =>
        subst here
        -- The keys are distinct, so there is no second entry behind one that goes.
        have gone : entries.lookup u = none :=
          List.lookup_eq_none_iff.mpr fun e inside => by
            have key : e.1 ∈ entries.map Prod.fst := List.mem_map_of_mem inside
            refine bne_iff_ne.mpr fun same => ?_
            exact fresh (show u ∈ _ from same ▸ key)
        split
        next empty =>
          by_cases same : w = u
          · simp [same, gone, empty]
          · simp [List.lookup_cons, beq_false_of_ne same, same]
        next r rs left =>
          by_cases same : w = u
          · simp [same, left]
          · simp [List.lookup_cons, beq_false_of_ne same, same]
      next other =>
        by_cases same : w = u
        · simp [same, other]
        · have apart : v ≠ u := fun h => other h.symm
          simp [List.lookup_cons, beq_false_of_ne same, beq_false_of_ne apart, ih distinct]

theorem sublist_removeEntry (row : Nat) (v : String) (entries : List (String × List Nat)) :
    ((removeEntry row v entries).map Prod.fst).Sublist (entries.map Prod.fst) := by
  induction entries with
  | nil => exact .slnil
  | cons e entries ih =>
      obtain ⟨u, rows⟩ := e
      rw [removeEntry]
      split
      next =>
        split
        next => exact List.sublist_cons_self u _
        next => exact .refl _
      next => exact ih.cons_cons u

theorem filled_removeEntry (filled : ∀ e ∈ entries, e.2 ≠ []) :
    ∀ e ∈ removeEntry row v entries, e.2 ≠ [] := by
  induction entries with
  | nil => exact filled
  | cons e entries ih =>
      obtain ⟨u, rows⟩ := e
      obtain ⟨here, rest⟩ := List.forall_mem_cons.mp filled
      rw [removeEntry]
      split
      next =>
        split
        next => exact rest
        next => exact List.forall_mem_cons.mpr ⟨List.cons_ne_nil _ _, rest⟩
      next => exact List.forall_mem_cons.mpr ⟨here, ih rest⟩

theorem Tells.remove (h : x.Tells holds) (taken : holds row v) :
    (x.remove row v).Tells fun r w => ¬(r = row ∧ w = v) ∧ holds r w := by
  refine ⟨h.distinct.sublist (sublist_removeEntry row v x.entries), filled_removeEntry h.filled,
    fun w => ?_⟩
  rw [SearchIndex.rows, SearchIndex.remove, lookup_removeEntry h.distinct]
  split
  next same =>
    subst same
    exact (lists_removeRow (h.rows w) taken).congr fun r => by simp
  next other => exact (h.rows w).congr fun r => by simp [other]

/-- The same change of every list of rows. -/
theorem Tells.map (h : x.Tells holds) (some : ∀ rows, rows ≠ [] → f rows ≠ []) (none : f [] = [])
    (mapped : ∀ w, Lists (f (x.rows w)) (holds' · w)) :
    SearchIndex.Tells ⟨x.entries.map fun e => (e.1, f e.2)⟩ holds' := by
  refine ⟨?_, ?_, fun w => ?_⟩
  · rw [List.map_map]
    exact h.distinct
  · intro e inside
    obtain ⟨e, before, rfl⟩ := List.mem_map.mp inside
    exact some e.2 (h.filled e before)
  · have lookup : (x.entries.map fun e => (e.1, f e.2)).lookup w =
        (x.entries.lookup w).map f := by
      induction x.entries with
      | nil => rfl
      | cons e entries ih =>
          obtain ⟨u, rows⟩ := e
          rw [List.map_cons, List.lookup_cons, List.lookup_cons, ih]
          cases w == u <;> rfl
    have step : ((x.entries.lookup w).map f).getD [] = f (x.rows w) := by
      rw [SearchIndex.rows]
      cases x.entries.lookup w with
      | none => exact none.symm
      | some rows => rfl
    rw [SearchIndex.rows, lookup, step]
    exact mapped w

theorem shiftRows_nil : shiftRows start step [] = [] := by
  simp [shiftRows]

theorem shiftRows_ne_nil (some : rows ≠ []) : shiftRows start step rows ≠ [] := by
  refine List.ne_nil_of_length_pos ?_
  have whole := congrArg List.length (List.take_append_drop (Ascending.count (· < start) rows) rows)
  have := List.length_pos_iff.mpr some
  simp only [shiftRows, List.length_append, List.length_map] at whole ⊢
  omega

theorem Tells.shiftUp (h : x.Tells holds) (small : ∀ r w, holds r w → r + 1 < UInt64.size) :
    (x.shift row 1).Tells fun r w => r < row ∧ holds r w ∨ row < r ∧ holds (r - 1) w :=
  h.map (fun _ => shiftRows_ne_nil) shiftRows_nil
    fun w => lists_shiftRows_up (h.rows w) fun r => small r w

theorem Tells.shiftDown (h : x.Tells holds) (free : ∀ w, ¬holds row w)
    (fits : row + 1 < UInt64.size) (small : ∀ r w, holds r w → r < UInt64.size) :
    (x.shift ((row + 1) % UInt64.size) (UInt64.size - 1)).Tells fun r w =>
      r < row ∧ holds r w ∨ row ≤ r ∧ holds (r + 1) w :=
  h.map (fun _ => shiftRows_ne_nil) shiftRows_nil
    fun w => lists_shiftRows_down (h.rows w) (free w) fits fun r => small r w

/-! ### Columns -/

/-- The index tells where the values of a column are. -/
abbrev Mirrors (x : SearchIndex) (vs : List String) : Prop := x.Tells fun r v => vs[r]? = some v

variable {vs : List String}

theorem mirrors_nil : Mirrors {} [] :=
  ⟨.nil, List.forall_mem_nil _, fun _ => Lists.nil.congr fun r => by simp⟩

theorem tells_zipIdx (vs : List String) (n : Nat) :
    SearchIndex.Tells ⟨(vs.zipIdx n).foldr (fun e => editEntry (e.2 :: ·) e.1) []⟩
      fun r v => n ≤ r ∧ vs[r - n]? = some v := by
  induction vs generalizing n with
  | nil => exact mirrors_nil.congr fun r v => by simp
  | cons u vs ih =>
      have below := ih (n + 1)
      refine (below.edit (f := (n :: ·)) (v := u)
        (p := fun r => r = n ∨ n + 1 ≤ r ∧ vs[r - (n + 1)]? = some u)
        (fun _ => List.cons_ne_nil _ _) ?_).congr ?_
      · obtain ⟨ascends, mem⟩ := below.rows u
        refine ⟨List.pairwise_cons.mpr ⟨fun r inside => ((mem r).mp inside).1, ascends⟩, fun r => ?_⟩
        rw [List.mem_cons, mem r]
      · intro r w
        obtain before | rfl | ⟨k, rfl⟩ : r < n ∨ r = n ∨ ∃ k, r = n + (k + 1) := by
          rcases Nat.lt_trichotomy r n with less | same | more
          · exact .inl less
          · exact .inr (.inl same)
          · exact .inr (.inr ⟨r - n - 1, by omega⟩)
        · have above : ¬n ≤ r := Nat.not_le.mpr before
          have above' : ¬n + 1 ≤ r := fun later => above (Nat.le_of_succ_le later)
          simp [above, above', Nat.ne_of_lt before]
        · have above : ¬r + 1 ≤ r := Nat.not_succ_le_self r
          simp [above, eq_comm]
        · have place : n + (k + 1) - (n + 1) = k := by omega
          have later : n + 1 ≤ n + (k + 1) := by omega
          by_cases same : w = u <;> simp [same, place, later]

theorem mirrors_build (vs : List String) : (build vs).Mirrors vs :=
  (tells_zipIdx vs 0).congr fun r v => by simp

/-- A row that is missing from an index otherwise right is added to it. -/
theorem Tells.fill (h : x.Tells fun r w => r ≠ row ∧ vs[r]? = some w) (here : vs[row]? = some v) :
    (x.add row v).Mirrors vs := by
  refine (h.add fun taken => taken.1 rfl).congr fun r w => ?_
  by_cases same : r = row
  · subst same
    simp [here, eq_comm]
  · simp [same]

theorem Mirrors.without (h : x.Mirrors vs) (here : vs[row]? = some v) :
    (x.remove row v).Tells fun r w => r ≠ row ∧ vs[r]? = some w := by
  refine (h.remove here).congr fun r w => ?_
  by_cases same : r = row
  · subst same
    simp [here, eq_comm]
  · simp [same]

theorem lt_of_getElem? {r : Nat} (here : vs[r]? = some w) : r < vs.length :=
  (List.getElem?_eq_some_iff.mp here).1

theorem Mirrors.insert (h : x.Mirrors vs) (inside : row ≤ vs.length)
    (small : vs.length < Slot.countBound) :
    (x.insert row v (row == vs.length)).Mirrors (vs.insertIdx row v) := by
  have here : (vs.insertIdx row v)[row]? = some v := by
    rw [List.getElem?_insertIdx_self, if_pos inside]
  rw [SearchIndex.insert]
  refine Tells.fill ?_ here
  split
  next last =>
    rw [beq_iff_eq] at last
    subst last
    refine h.congr fun r w => ?_
    rw [List.getElem?_insertIdx]
    split
    next before => exact ⟨fun here => ⟨Nat.ne_of_lt before, here⟩, And.right⟩
    next => grind
  next =>
    refine (h.shiftUp fun r w here => ?_).congr fun r w => ?_
    · have := lt_of_getElem? here
      exact Nat.lt_of_lt_of_le (Nat.succ_lt_succ (this.trans small)) (by decide)
    · grind

theorem Mirrors.set (h : x.Mirrors vs) {old : String} (here : vs[row]? = some old) :
    (x.set row old v).Mirrors (vs.set row v) := by
  rw [SearchIndex.set]
  split
  next same =>
    subst same
    refine h.congr fun r w => ?_
    grind
  next other =>
    refine Tells.fill ((h.without here).congr fun r w => ?_) ?_
    · grind
    · grind

theorem Mirrors.erase (h : x.Mirrors vs) (here : vs[row]? = some v)
    (small : vs.length < Slot.countBound) :
    (x.erase row v (row + 1 == vs.length)).Mirrors (vs.eraseIdx row) := by
  rw [SearchIndex.erase]
  have without := h.without here
  have inside := lt_of_getElem? here
  split
  next last =>
    rw [beq_iff_eq] at last
    refine without.congr fun r w => ?_
    grind
  next =>
    have bound : Slot.countBound < UInt64.size := by decide
    refine (without.shiftDown (fun w gap => gap.1 rfl) (by omega) fun r w here => ?_).congr
      fun r w => ?_
    · have := lt_of_getElem? here.2
      omega
    · grind

end SearchIndex

end ColumnStore
