import ColumnStore.Proofs.TextColumn

set_option autoImplicit false

/-!
The index of a text column when an edit fails. Only edits of trees fail: an insertion tells the
index when its tree has taken the text, and a row that is set moves in the index beforehand.
-/
namespace ColumnStore

variable {σ τ α β γ : Type}

/-! ### What an edit leaves in every outcome -/

/-- Whether it fails or not, the edit leaves this of the edited value. -/
def Edit.Leaves (look : σ → γ) (e : Edit σ α) : Prop := ∀ p, look (e p).2.1 = look p.1

namespace Edit.Leaves

variable {look : σ → γ} {e : Edit σ α}

theorem bind {f : α → Edit σ β} (first : e.Leaves look) (next : ∀ a, (f a).Leaves look) :
    (e >>= f).Leaves look := by
  intro p
  have first := first p
  rw [Edit.bind_apply]
  rcases result : e p with ⟨err | a, q⟩
  · rwa [result] at first
  · rw [result] at first
    exact (next a q).trans first

theorem pure (a : α) : Edit.Leaves look (pure a) := fun _ => rfl

theorem self_bind {f : σ → Edit σ β} (next : ∀ a, (f a).Leaves look) :
    (Edit.self >>= f).Leaves look := fun p => by
  rw [Edit.self_bind]
  exact next _ _

theorem read_bind {g : Memory → α} {f : α → Edit σ β} (next : ∀ a, (f a).Leaves look) :
    ((liftM (StoreM.read g) : Edit σ α) >>= f).Leaves look := fun p => by
  rw [Edit.read_bind]
  exact next _ _

theorem focus {part : σ → τ} {embed : τ → σ → σ} {e : Edit τ α}
    (same : ∀ b a, look (embed b a) = look a) : (Edit.focus part embed e).Leaves look :=
  fun _ => same _ _

theorem of_error {f : α → Edit σ β} (first : e.Leaves look) (total : ∀ a q, (f a q).1.isOk = true)
    {err : Error} {p p' : σ × Store} (run : (e >>= f) p = (.error err, p')) :
    look p'.1 = look p.1 := by
  have first := first p
  rw [Edit.bind_apply] at run
  rcases result : e p with ⟨err' | a, q⟩
  · rw [result] at run first
    cases run
    exact first
  · rw [result] at run
    have failed : f a q = (.error err, p') := run
    have total := total a q
    rw [failed] at total
    cases total

end Edit.Leaves

theorem Edit.inside_run {embed : τ → σ} {b : τ} {e : Edit τ α} {r : Except Error α}
    {p p' : σ × Store} (run : Edit.inside embed b e p = (r, p')) :
    ∃ b', e (b, p.2) = (r, (b', p'.2)) ∧ p'.1 = embed b' := by
  rcases result : e (b, p.2) with ⟨r', b', s⟩
  rw [Edit.inside, result] at run
  cases run
  exact ⟨b', rfl, rfl⟩

/-! ### The two forms -/

variable {row : Nat} {v : String} {s s' : Store} {err : Error}

namespace PlainColumn

theorem editTree_leaves {e : Edit BytesColumn α} : (editTree e).Leaves PlainColumn.index :=
  .focus fun _ _ => rfl

theorem index_of_set {p p' : PlainColumn × Store} {r : Except Error Unit}
    (run : set row v p = (r, p')) :
    p'.1.index = p.1.index.map (·.set row (p.1.get p.2.memory row) v) := by
  have same : p' = (set row v p).2 := by rw [run]
  rw [same, set, indexedValue_bind, updateIndex, Edit.update_bind, editTree_leaves]
  cases p.1.index <;> rfl

theorem index_of_failed_insert {row : Option Nat} {p p' : PlainColumn × Store}
    (run : insert row v p = (.error err, p')) : p'.1.index = p.1.index := by
  rw [insert, Edit.self_bind, Edit.read_bind] at run
  exact editTree_leaves.of_error (fun _ _ => rfl) run

end PlainColumn

namespace EnumColumn

theorem editKeys_leaves {e : Edit PlainColumn α} : (editKeys e).Leaves EnumColumn.index :=
  .focus fun _ _ => rfl

theorem editValues_leaves {e : Edit IntColumn α} : (editValues e).Leaves EnumColumn.index :=
  .focus fun _ _ => rfl

theorem findOrAddKey_leaves (v : String) : (findOrAddKey v).Leaves EnumColumn.index := by
  refine .self_bind fun c => .read_bind fun found => ?_
  cases found with
  | some key => exact .pure key
  | none => exact .read_bind fun count => editKeys_leaves.bind fun _ => .pure count

theorem index_of_set {p p' : EnumColumn × Store} {r : Except Error Unit}
    (run : set row v p = (r, p')) :
    p'.1.index = p.1.index.map (·.set row (p.1.get p.2.memory row) v) := by
  have same : p' = (set row v p).2 := by rw [run]
  rw [same, set, indexedValue_bind, updateIndex, Edit.update_bind,
    (findOrAddKey_leaves v).bind fun _ => editValues_leaves]
  cases p.1.index <;> rfl

theorem index_of_failed_insert {row : Option Nat} {p p' : EnumColumn × Store}
    (run : insert row v p = (.error err, p')) : p'.1.index = p.1.index := by
  rw [insert, Edit.self_bind, Edit.read_bind, ← bind_assoc] at run
  exact ((findOrAddKey_leaves v).bind fun _ => editValues_leaves).of_error (fun _ _ => rfl) run

end EnumColumn

/-! ### Columns of text -/

namespace TextColumn

variable {c c' : TextColumn} {keys vs : List String} {R : Assertion} {r : Except Error Unit}
  {x : SearchIndex}

theorem index_of_set (run : set row v (c, s) = (r, (c', s'))) :
    c'.index? = c.index?.map (·.set row (c.get s.memory row) v) := by
  cases c with
  | plain p =>
      rw [set, edit, Edit.self_bind] at run
      obtain ⟨p', run, rfl⟩ := Edit.inside_run run
      exact PlainColumn.index_of_set run
  | enum p =>
      rw [set, edit, Edit.self_bind] at run
      obtain ⟨p', run, rfl⟩ := Edit.inside_run run
      exact EnumColumn.index_of_set run

theorem index_of_failed_insert {row : Option Nat}
    (run : insert row v (c, s) = (.error err, (c', s'))) : c'.index? = c.index? := by
  cases c with
  | plain p =>
      rw [insert, edit, Edit.self_bind] at run
      obtain ⟨p', run, rfl⟩ := Edit.inside_run run
      exact PlainColumn.index_of_failed_insert run
  | enum p =>
      rw [insert, edit, Edit.self_bind] at run
      obtain ⟨p', run, rfl⟩ := Edit.inside_run run
      exact EnumColumn.index_of_failed_insert run

/-- Whatever a set comes to, the index goes on to the texts that it was to make. -/
theorem indexes_of_set (h : s.Holds (c.holds keys vs * R)) (many : keys.length < Slot.countBound)
    (small : vs.length < Slot.countBound) (inside : row < vs.length)
    (run : set row v (c, s) = (r, (c', s'))) : Indexes c'.index? (vs.set row v) := by
  obtain ⟨_, here⟩ := h.reads
  rw [index_of_set run, get_of_holds here many small inside]
  exact (indexes_of_holds here).map fun x _ mirrors =>
    mirrors.set (List.getElem?_eq_getElem inside)

/-- An insertion that fails leaves the index with the texts that it had. -/
theorem indexes_of_failed_insert {row : Option Nat} (h : s.Holds (c.holds keys vs * R))
    (run : insert row v (c, s) = (.error err, (c', s'))) : Indexes c'.index? vs := by
  obtain ⟨_, here⟩ := h.reads
  rw [index_of_failed_insert run]
  exact indexes_of_holds here

/-- So a set that fails and keeps the old text in the row leaves an index that has the row under the
new text, and not under the one that is there. -/
theorem failed_set_drifts (h : s.Holds (c.holds keys vs * R))
    (many : keys.length < Slot.countBound) (small : vs.length < Slot.countBound)
    (inside : row < vs.length) (run : set row v (c, s) = (.error err, (c', s')))
    (kept : c'.get s'.memory row = vs[row]) (other : vs[row] ≠ v) (index : c'.index? = some x) :
    row ∈ x.rows v ∧ row ∉ x.rows (c'.get s'.memory row) := by
  have mirrors := indexes_of_set h many small inside run x index
  have there : (vs.set row v)[row]? = some v := by simp [inside]
  rw [kept]
  exact ⟨(mirrors.rows v).mem row |>.mpr there, fun listed => other (Option.some.inj
    (((mirrors.rows vs[row]).mem row |>.mp listed).symm.trans there))⟩

end TextColumn

end ColumnStore
