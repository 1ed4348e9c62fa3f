import ColumnStore.Proofs.Store
import ColumnStore.Store.Edit

set_option autoImplicit false

/-!
Runs of edits. Steps that cannot fail are rewritten away; a step that can fail is taken apart by
what it returned.
-/
namespace ColumnStore

variable {σ τ α β : Type}

namespace StoreM

theorem bind_apply (x : StoreM α) (f : α → StoreM β) (s : Store) :
    (x >>= f) s = match x s with
      | (.ok a, s') => f a s'
      | (.error e, s') => (.error e, s') := by
  show (ExceptT.bind x f).run s = _
  simp only [ExceptT.bind, ExceptT.bindCont, ExceptT.run, ExceptT.mk, bind, StateT.bind]
  rcases x s with ⟨_ | _, _⟩ <;> rfl

theorem bind_ok {x : StoreM α} {f : α → StoreM β} {s s' : Store} {b : β} :
    (x >>= f) s = (.ok b, s') ↔ ∃ a t, x s = (.ok a, t) ∧ f a t = (.ok b, s') := by
  rw [bind_apply]
  obtain ⟨r, t⟩ := x s
  constructor
  · intro ok
    cases r with
    | ok a => exact ⟨a, t, rfl, ok⟩
    | error e => cases ok
  · rintro ⟨a, t', run, ok⟩
    cases run
    exact ok

theorem bind_error {x : StoreM α} {f : α → StoreM β} {s s' : Store} {e : Error} :
    (x >>= f) s = (.error e, s') ↔
      x s = (.error e, s') ∨ ∃ a t, x s = (.ok a, t) ∧ f a t = (.error e, s') := by
  rw [bind_apply]
  obtain ⟨_ | a, t⟩ := x s
  · constructor
    · intro failed
      cases failed
      exact .inl rfl
    · rintro (failed | ⟨a, t', run, -⟩)
      · cases failed
        rfl
      · cases run
  · constructor
    · exact fun failed => .inr ⟨a, t, rfl, failed⟩
    · rintro (failed | ⟨a, t', run, failed⟩)
      · cases failed
      · cases run
        exact failed

theorem pure_ok {a b : α} {s s' : Store} :
    (pure a : StoreM α) s = (.ok b, s') ↔ a = b ∧ s = s' := by
  constructor
  · intro ok
    cases ok
    exact ⟨rfl, rfl⟩
  · rintro ⟨rfl, rfl⟩
    rfl

theorem map_ok {f : α → β} {x : StoreM α} {s s' : Store} {b : β} :
    (f <$> x) s = (.ok b, s') ↔ ∃ a, x s = (.ok a, s') ∧ f a = b := by
  rw [← bind_pure_comp, bind_ok]
  simp only [pure_ok]
  constructor
  · rintro ⟨a, t, run, rfl, rfl⟩
    exact ⟨a, run, rfl⟩
  · rintro ⟨a, run, rfl⟩
    exact ⟨a, s', run, rfl, rfl⟩

theorem map_error {f : α → β} {x : StoreM α} {s s' : Store} {e : Error} :
    (f <$> x) s = (.error e, s') ↔ x s = (.error e, s') := by
  rw [← bind_pure_comp, bind_error]
  refine or_iff_left ?_
  rintro ⟨a, t, -, failed⟩
  cases failed

@[simp] theorem pure_bind (a : α) (f : α → StoreM β) : (pure a >>= f) = f a :=
  LawfulMonad.pure_bind a f

@[simp] theorem read_bind (g : Memory → α) (f : α → StoreM β) (s : Store) :
    (StoreM.read g >>= f) s = f (g s.memory) s := bind_apply _ f s

@[simp] theorem isReadOnly_bind (r : Ref) (f : Bool → StoreM β) (s : Store) :
    (StoreM.isReadOnly r >>= f) s = f (s.isReadOnly r) s := bind_apply _ f s

@[simp] theorem modifyMemory_bind (g : Memory → Memory) (f : Unit → StoreM β) (s : Store) :
    (StoreM.modifyMemory g >>= f) s = f () (s.withMemory (g s.memory)) := bind_apply _ f s

@[simp] theorem free_bind (r : Ref) (n : Nat) (f : Unit → StoreM β) (s : Store) :
    (StoreM.free r n >>= f) s = f () (s.release r n) := bind_apply _ f s

end StoreM

namespace Edit

theorem bind_apply (x : Edit σ α) (f : α → Edit σ β) (p : σ × Store) :
    (x >>= f) p = match x p with
      | (.ok a, q) => f a q
      | (.error e, q) => (.error e, q) := by
  show (ExceptT.bind x f).run p = _
  simp only [ExceptT.bind, ExceptT.bindCont, ExceptT.run, ExceptT.mk, bind, StateT.bind]
  rcases x p with ⟨_ | _, _⟩ <;> rfl

theorem bind_ok {x : Edit σ α} {f : α → Edit σ β} {p p' : σ × Store} {b : β} :
    (x >>= f) p = (.ok b, p') ↔ ∃ a q, x p = (.ok a, q) ∧ f a q = (.ok b, p') := by
  rw [bind_apply]
  obtain ⟨r, q⟩ := x p
  constructor
  · intro ok
    cases r with
    | ok a => exact ⟨a, q, rfl, ok⟩
    | error e => cases ok
  · rintro ⟨a, q', run, ok⟩
    cases run
    exact ok

theorem bind_error {x : Edit σ α} {f : α → Edit σ β} {p p' : σ × Store} {e : Error} :
    (x >>= f) p = (.error e, p') ↔
      x p = (.error e, p') ∨ ∃ a q, x p = (.ok a, q) ∧ f a q = (.error e, p') := by
  rw [bind_apply]
  obtain ⟨_ | a, q⟩ := x p
  · constructor
    · intro failed
      cases failed
      exact .inl rfl
    · rintro (failed | ⟨a, q', run, -⟩)
      · cases failed
        rfl
      · cases run
  · constructor
    · exact fun failed => .inr ⟨a, q, rfl, failed⟩
    · rintro (failed | ⟨a, q', run, failed⟩)
      · cases failed
      · cases run
        exact failed

theorem pure_ok {a b : α} {p p' : σ × Store} :
    (pure a : Edit σ α) p = (.ok b, p') ↔ a = b ∧ p = p' := by
  constructor
  · intro ok
    cases ok
    exact ⟨rfl, rfl⟩
  · rintro ⟨rfl, rfl⟩
    rfl

theorem not_throw_ok {e : Error} {b : α} {p p' : σ × Store} :
    (throw e : Edit σ α) p ≠ (.ok b, p') := by
  intro ok
  cases ok

/-- A handler that always fails has no part in a run that succeeds. -/
theorem tryCatch_ok {x : Edit σ α} {handle : Error → Edit σ α} {p p' : σ × Store} {a : α}
    (fails : ∀ e q, handle e q ≠ (.ok a, p')) (run : tryCatch x handle p = (.ok a, p')) :
    x p = (.ok a, p') := by
  have step : tryCatch x handle p = match x p with
      | (.ok a, q) => (.ok a, q)
      | (.error e, q) => handle e q := by
    show (ExceptT.tryCatch x handle).run p = _
    simp only [ExceptT.tryCatch, ExceptT.run, ExceptT.mk, bind, StateT.bind]
    rcases x p with ⟨_ | _, _⟩ <;> rfl
  rw [step] at run
  rcases result : x p with ⟨e | b, q⟩
  · rw [result] at run
    exact absurd run (fails e q)
  · rwa [result] at run

@[simp] theorem pure_bind (a : α) (f : α → Edit σ β) : (pure a >>= f) = f a :=
  LawfulMonad.pure_bind a f

@[simp] theorem throw_bind (e : Error) (f : α → Edit σ β) (p : σ × Store) :
    ((throw e : Edit σ α) >>= f) p = (.error e, p) := bind_apply _ f p

@[simp] theorem self_bind (f : σ → Edit σ β) (p : σ × Store) : (Edit.self >>= f) p = f p.1 p :=
  bind_apply _ f p

@[simp] theorem put_bind (a : σ) (f : Unit → Edit σ β) (p : σ × Store) :
    (Edit.put a >>= f) p = f () (a, p.2) := bind_apply _ f p

@[simp] theorem put_apply (a : σ) (p : σ × Store) : Edit.put a p = (.ok (), (a, p.2)) := rfl

@[simp] theorem update_bind (g : σ → σ) (f : Unit → Edit σ β) (p : σ × Store) :
    (Edit.update g >>= f) p = f () (g p.1, p.2) := bind_apply _ f p

@[simp] theorem update_apply (g : σ → σ) (p : σ × Store) :
    Edit.update g p = (.ok (), (g p.1, p.2)) := rfl

@[simp] theorem read_bind (g : Memory → α) (f : α → Edit σ β) (p : σ × Store) :
    ((liftM (StoreM.read g) : Edit σ α) >>= f) p = f (g p.2.memory) p := bind_apply _ f p

@[simp] theorem isReadOnly_bind (r : Ref) (f : Bool → Edit σ β) (p : σ × Store) :
    ((liftM (StoreM.isReadOnly r) : Edit σ Bool) >>= f) p = f (p.2.isReadOnly r) p :=
  bind_apply _ f p

@[simp] theorem modifyMemory_bind (g : Memory → Memory) (f : Unit → Edit σ β) (p : σ × Store) :
    ((liftM (StoreM.modifyMemory g) : Edit σ Unit) >>= f) p =
      f () (p.1, p.2.withMemory (g p.2.memory)) := bind_apply _ f p

@[simp] theorem modifyMemory_apply (g : Memory → Memory) (p : σ × Store) :
    (liftM (StoreM.modifyMemory g) : Edit σ Unit) p =
      (.ok (), (p.1, p.2.withMemory (g p.2.memory))) := rfl

@[simp] theorem free_apply (r : Ref) (n : Nat) (p : σ × Store) :
    (liftM (StoreM.free r n) : Edit σ Unit) p = (.ok (), (p.1, p.2.release r n)) := rfl

theorem lift_ok {x : StoreM α} {a : α} {p p' : σ × Store} :
    (liftM x : Edit σ α) p = (.ok a, p') ↔ p'.1 = p.1 ∧ x p.2 = (.ok a, p'.2) := by
  obtain ⟨b, t⟩ := p'
  have run : (liftM x : Edit σ α) p = ((x p.2).1, (p.1, (x p.2).2)) := rfl
  rw [run]
  constructor
  · intro ok
    obtain ⟨result, rfl, store⟩ : (x p.2).1 = .ok a ∧ p.1 = b ∧ (x p.2).2 = t := by
      injection ok with result rest
      injection rest with value store
      exact ⟨result, value, store⟩
    exact ⟨rfl, Prod.ext result store⟩
  · rintro ⟨rfl, ok⟩
    rw [ok]

theorem lift_error {x : StoreM α} {e : Error} {p p' : σ × Store} :
    (liftM x : Edit σ α) p = (.error e, p') ↔ p'.1 = p.1 ∧ x p.2 = (.error e, p'.2) := by
  obtain ⟨b, t⟩ := p'
  have run : (liftM x : Edit σ α) p = ((x p.2).1, (p.1, (x p.2).2)) := rfl
  rw [run]
  rcases x p.2 with ⟨r, t'⟩
  constructor
  · intro failed
    cases failed
    exact ⟨rfl, rfl⟩
  · rintro ⟨rfl, failed⟩
    cases failed
    rfl

/-- A step on the store alone. -/
theorem lift_bind_ok {x : StoreM α} {f : α → Edit σ β} {p p' : σ × Store} {b : β} :
    ((liftM x : Edit σ α) >>= f) p = (.ok b, p') ↔
      ∃ a t, x p.2 = (.ok a, t) ∧ f a (p.1, t) = (.ok b, p') := by
  rw [bind_ok]
  constructor
  · rintro ⟨a, ⟨c, t⟩, lifted, rest⟩
    obtain ⟨rfl, run⟩ := lift_ok.mp lifted
    exact ⟨a, t, run, rest⟩
  · rintro ⟨a, t, run, rest⟩
    exact ⟨a, (p.1, t), lift_ok.mpr ⟨rfl, run⟩, rest⟩

theorem on_ok {a a' : σ} {e : Edit σ α} {x : α} {s s' : Store} :
    Edit.on a e s = (.ok (x, a'), s') ↔ e (a, s) = (.ok x, (a', s')) := by
  rw [Edit.on]
  rcases e (a, s) with ⟨_ | _, _⟩
  · constructor <;> intro ok <;> cases ok
  · constructor <;> intro ok <;> cases ok <;> rfl

theorem focus_ok {part : σ → τ} {embed : τ → σ → σ} {e : Edit τ α} {x : α} {p p' : σ × Store} :
    Edit.focus part embed e p = (.ok x, p') ↔
      ∃ b, e (part p.1, p.2) = (.ok x, (b, p'.2)) ∧ p'.1 = embed b p.1 := by
  obtain ⟨c, t⟩ := p'
  rw [Edit.focus]
  rcases e (part p.1, p.2) with ⟨r, b, s⟩
  constructor
  · intro ok
    cases ok
    exact ⟨b, rfl, rfl⟩
  · rintro ⟨b, ok, rfl⟩
    cases ok
    rfl

theorem inside_ok {embed : τ → σ} {b : τ} {e : Edit τ α} {x : α} {p p' : σ × Store} :
    Edit.inside embed b e p = (.ok x, p') ↔
      ∃ b', e (b, p.2) = (.ok x, (b', p'.2)) ∧ p'.1 = embed b' := by
  obtain ⟨c, t⟩ := p'
  rw [Edit.inside]
  rcases e (b, p.2) with ⟨r, b', s⟩
  constructor
  · intro ok
    cases ok
    exact ⟨b', rfl, rfl⟩
  · rintro ⟨b', ok, rfl⟩
    cases ok
    rfl

end Edit

end ColumnStore
