import ColumnStore.Proofs.Edit

set_option autoImplicit false

/-!
Edits that have a counterpart on lists. What each of them keeps between the edited value and the
list is kept by a run of them.
-/
namespace ColumnStore

/-- Operations of an edited value, and what each does to the list of what the value holds. -/
class Replay (X : Type) (σ V : outParam Type) where
  run : X → Edit σ Unit
  onList : X → List V → List V
  InRange : X → List V → Prop
  decidableInRange (x : X) (vs : List V) : Decidable (InRange x vs)

namespace Replay

variable {X σ V : Type} [Replay X σ V]

instance (x : X) (vs : List V) : Decidable (InRange x vs) := decidableInRange x vs

def runAll : List X → Edit σ Unit
  | [] => pure ()
  | x :: xs => do
      run x
      runAll xs

def onLists (xs : List X) (vs : List V) : List V := xs.foldl (fun vs x => onList x vs) vs

/-- Every operation is in range of the list that it meets. -/
def AllInRange : List X → List V → Prop
  | [], _ => True
  | x :: xs, vs => InRange x vs ∧ AllInRange xs (onList x vs)

instance decidableAllInRange : (xs : List X) → (vs : List V) → Decidable (AllInRange xs vs)
  | [], _ => .isTrue True.intro
  | x :: xs, vs =>
      have := decidableAllInRange xs (onList x vs)
      inferInstanceAs (Decidable (_ ∧ _))

/-- What each operation keeps holds after every step of a run that succeeds. -/
theorem reached {Q : σ × Store → List V → Prop}
    (step : ∀ {x : X} {p p' vs}, Q p vs → InRange x vs → run x p = (.ok (), p') → Q p' (onList x vs))
    {before after : List X} {p p' : σ × Store} {vs : List V} (start : Q p vs)
    (inRange : AllInRange (before ++ after) vs) (ok : runAll (before ++ after) p = (.ok (), p')) :
    ∃ p₁, runAll before p = (.ok (), p₁) ∧ Q p₁ (onLists before vs) := by
  induction before generalizing p vs with
  | nil => exact ⟨p, rfl, start⟩
  | cons x before ih =>
      obtain ⟨here, inRange⟩ := inRange
      rw [List.cons_append, runAll, Edit.bind_ok] at ok
      obtain ⟨_, p₁, first, rest⟩ := ok
      obtain ⟨q, more, kept⟩ := ih (step start here first) inRange rest
      exact ⟨q, Edit.bind_ok.mpr ⟨(), p₁, first, more⟩, kept⟩

theorem exists_run (create : StoreM σ) (xs : List X) (s : Store)
    (succeeds : ((do Edit.on (← create) (runAll xs) : StoreM (Unit × σ)) s).1.isOk = true) :
    ∃ a s₁ a' s', create s = (.ok a, s₁) ∧ runAll xs (a, s₁) = (.ok (), (a', s')) := by
  rcases result : (do Edit.on (← create) (runAll xs) : StoreM (Unit × σ)) s with
    ⟨e | ⟨_, a'⟩, s'⟩
  · rw [result] at succeeds
    cases succeeds
  · obtain ⟨a, s₁, created, ran⟩ := StoreM.bind_ok.mp result
    exact ⟨a, s₁, a', s', created, Edit.on_ok.mp ran⟩

end Replay

end ColumnStore
