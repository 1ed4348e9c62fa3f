set_option autoImplicit false

/-!
Computations over a state and loops of them. A step of a loop gives the value to go on with or the
result. A loop that counts its steps down gives what the loop without a count ends with, if every
step comes nearer to the end.
-/
namespace ColumnStore

variable {S α β : Type}

/-- From every state as `P` says the computation comes to a result and a state as `Q` says. -/
def Ensures (P : S → Prop) (x : StateM S α) (Q : α → S → Prop) : Prop :=
  ∀ s, P s → Q (x s).1 (x s).2

namespace Ensures

variable {P P' : S → Prop} {Q Q' : α → S → Prop} {R : β → S → Prop} {x : StateM S α}

theorem bind {f : α → StateM S β} (first : Ensures P x Q) (next : ∀ a, Ensures (Q a) (f a) R) :
    Ensures P (x >>= f) R :=
  fun s pre => next _ _ (first s pre)

theorem pure {a : α} (reached : ∀ s, P s → Q a s) : Ensures P (pure a) Q := reached

theorem get_bind {f : S → StateM S β} (next : ∀ s, P s → Ensures (Eq s) (f s) R) :
    Ensures P (get >>= f) R :=
  fun s pre => next s pre s rfl

theorem weaken (ensured : Ensures P x Q) (pre : ∀ s, P' s → P s) (post : ∀ a s, Q a s → Q' a s) :
    Ensures P' x Q' :=
  fun s known => post _ _ (ensured s (pre s known))

theorem post (ensured : Ensures P x Q) (post : ∀ a s, Q a s → Q' a s) : Ensures P x Q' :=
  ensured.weaken (fun _ known => known) post

/-- What is known of the result, beside the state, may be used to go on. -/
theorem of_result {p : Prop} (next : p → Ensures P x Q) : Ensures (fun s => P s ∧ p) x Q :=
  fun s pre => next pre.2 s pre.1

end Ensures

/-- The state may be looked at. -/
theorem get_bind_apply (f : S → StateM S β) (s : S) : (get >>= f) s = f s s := rfl

/-! ### Loops -/

/-- The loop of a step, as often as it takes, ends with a result in a state. -/
inductive Ends (step : α → StateM S (α ⊕ β)) : α → S → β × S → Prop where
  | now {a : α} {s s' : S} {b : β} (last : step a s = (.inr b, s')) : Ends step a s (b, s')
  | later {a a' : α} {s s' : S} {out : β × S} (first : step a s = (.inl a', s'))
      (rest : Ends step a' s' out) : Ends step a s out

/-- A loop that every step goes on with does not end. -/
theorem not_ends {step : α → StateM S (α ⊕ β)} {I : α → S → Prop}
    (each : ∀ a, Ensures (I a) (step a) fun next s => ∃ a', next = .inl a' ∧ I a' s)
    {a : α} {s : S} {out : β × S} (inv : I a s) : ¬ Ends step a s out := by
  intro ends
  induction ends with
  | @now a s s' b last =>
      obtain ⟨a', goes, -⟩ := each a s inv
      rw [last] at goes
      cases goes
  | @later a a' s s' out first rest ih =>
      obtain ⟨a'', goes, inv⟩ := each a s inv
      rw [first] at goes inv
      cases goes
      exact ih inv

/-- A loop of a bounded number of steps; it gives `spare` if they do not suffice. -/
def repeated (step : α → StateM S (α ⊕ β)) (spare : β) : Nat → α → StateM S β
  | 0, _ => return spare
  | fuel + 1, a => do
      match ← step a with
      | .inl a => repeated step spare fuel a
      | .inr b => return b

/-- After a step `n` steps are left at most, or the loop is over. -/
inductive Closer (Inv : Nat → α → S → Prop) (Q : β → S → Prop) (n : Nat) : α ⊕ β → S → Prop where
  | on {a : α} {s : S} {n' : Nat} (less : n' < n) (inv : Inv n' a s) : Closer Inv Q n (.inl a) s
  | ended {b : β} {s : S} (reached : Q b s) : Closer Inv Q n (.inr b) s

theorem repeated_ends {step : α → StateM S (α ⊕ β)} {Inv : Nat → α → S → Prop}
    {Q : β → S → Prop} (each : ∀ n a, Ensures (Inv n a) (step a) (Closer Inv Q n)) (spare : β)
    {n fuel : Nat} {a : α} {s : S} (fueled : n < fuel) (inv : Inv n a s) :
    Ends step a s (repeated step spare fuel a s) ∧
      Q (repeated step spare fuel a s).1 (repeated step spare fuel a s).2 := by
  induction fuel generalizing n a s with
  | zero => cases fueled
  | succ fuel ih =>
      have stepped := each n a s inv
      rcases run : step a s with ⟨a' | b, s'⟩
      · rw [run] at stepped
        have goes : repeated step spare (fuel + 1) a s = repeated step spare fuel a' s' := by
          simp only [repeated, bind, StateT.bind, run]
        rw [goes]
        cases stepped with
        | on less inv =>
            obtain ⟨ends, reached⟩ := ih (by omega) inv
            exact ⟨.later run ends, reached⟩
      · rw [run] at stepped
        have stops : repeated step spare (fuel + 1) a s = (b, s') := by
          simp only [repeated, bind, StateT.bind, run]
          rfl
        rw [stops]
        cases stepped with
        | ended reached => exact ⟨.now run, reached⟩

end ColumnStore
