import ColumnStore.Proofs.Edit

set_option autoImplicit false

/-!
What a computation does to the store in every outcome, also when it fails half way. An invariant of
the store is kept by each step; what a step returns is known only if it succeeds. Where a failure
tells something of its own, both outcomes are stated.
-/
namespace ColumnStore

variable {σ τ α β : Type} {I : Store → Prop}

/-- The invariant is kept in every outcome, and a success returns what `Q` says. -/
def StoreM.Keeps (I : Store → Prop) (x : StoreM α) (Q : α → Prop) : Prop :=
  ∀ s, I s → I (x s).2 ∧ ∀ a, (x s).1 = .ok a → Q a

/-- The same of an edit of a value that is as `P` says. -/
def Edit.Keeps (I : Store → Prop) (P : σ → Prop) (e : Edit σ α) (Q : α → σ → Prop) : Prop :=
  ∀ p, P p.1 → I p.2 → I (e p).2.2 ∧ ∀ x, (e p).1 = .ok x → Q x (e p).2.1

/-- Nothing is asked of the edited value. -/
abbrev Edit.Spares (I : Store → Prop) (e : Edit σ α) : Prop :=
  e.Keeps I (fun _ => True) fun _ _ => True

abbrev StoreM.Spares (I : Store → Prop) (x : StoreM α) : Prop := x.Keeps I fun _ => True

namespace StoreM.Keeps

variable {Q : α → Prop} {R : β → Prop} {x : StoreM α}

theorem bind {f : α → StoreM β} (first : x.Keeps I Q) (next : ∀ a, Q a → (f a).Keeps I R) :
    (x >>= f).Keeps I R := by
  intro s inv
  obtain ⟨kept, returned⟩ := first s inv
  rw [StoreM.bind_apply]
  rcases run : x s with ⟨e | a, s'⟩
  · rw [run] at kept
    exact ⟨kept, nofun⟩
  · rw [run] at kept returned
    exact next a (returned a rfl) s' kept

theorem pure {a : α} (returned : Q a) : StoreM.Keeps I (pure a) Q :=
  fun _ inv => ⟨inv, fun _ same => Except.ok.inj same ▸ returned⟩

theorem spares (kept : x.Keeps I Q) : x.Spares I :=
  fun s inv => ⟨(kept s inv).1, fun _ _ => trivial⟩

theorem read (g : Memory → α) : (StoreM.read g).Spares I :=
  fun _ inv => ⟨inv, fun _ _ => trivial⟩

theorem map (kept : x.Keeps I Q) {f : α → β} (each : ∀ a, Q a → R (f a)) :
    (f <$> x).Keeps I R := by
  rw [← bind_pure_comp]
  exact kept.bind fun a returned => .pure (each a returned)

end StoreM.Keeps

theorem StoreM.Spares.seq {x : StoreM α} {f : α → StoreM β} {R : β → Prop} (first : x.Spares I)
    (next : ∀ a, (f a).Keeps I R) : (x >>= f).Keeps I R :=
  StoreM.Keeps.bind first fun a _ => next a

theorem StoreM.Spares.forIn {l : List β} {f : β → α → StoreM (ForInStep α)} {a : α}
    (each : ∀ b a, (f b a).Spares I) : StoreM.Spares I (forIn l a f) := by
  induction l generalizing a with
  | nil => exact .pure trivial
  | cons b l ih =>
      rw [List.forIn_cons]
      refine (each b a).seq fun step => ?_
      cases step with
      | done a => exact .pure trivial
      | yield a => exact ih

namespace Edit.Keeps

variable {P P' : σ → Prop} {Q : α → σ → Prop} {R : β → σ → Prop} {e : Edit σ α}

theorem bind {f : α → Edit σ β} (first : e.Keeps I P Q) (next : ∀ x, (f x).Keeps I (Q x) R) :
    (e >>= f).Keeps I P R := by
  intro p pre inv
  obtain ⟨kept, reached⟩ := first p pre inv
  rw [Edit.bind_apply]
  rcases run : e p with ⟨err | x, q⟩
  · rw [run] at kept
    exact ⟨kept, nofun⟩
  · rw [run] at kept reached
    exact next x q (reached x rfl) kept

theorem pure {x : α} (reached : ∀ a, P a → Q x a) : Edit.Keeps I P (pure x) Q :=
  fun p pre inv => ⟨inv, fun _ same => Except.ok.inj same ▸ reached p.1 pre⟩

theorem throw (err : Error) : Edit.Keeps I P (throw err : Edit σ α) Q :=
  fun _ _ inv => ⟨inv, nofun⟩

theorem throw_bind (err : Error) {f : α → Edit σ β} :
    ((MonadExcept.throw err : Edit σ α) >>= f).Keeps I P R := by
  intro p _ inv
  rw [Edit.throw_bind]
  exact ⟨inv, nofun⟩

theorem weaken (kept : e.Keeps I P Q) (pre : ∀ a, P' a → P a) {Q' : α → σ → Prop}
    (post : ∀ x a, Q x a → Q' x a) : e.Keeps I P' Q' := by
  intro p known inv
  obtain ⟨inv, reached⟩ := kept p (pre p.1 known) inv
  exact ⟨inv, fun x ok => post x _ (reached x ok)⟩

theorem spares (kept : e.Keeps I (fun _ => True) Q) : e.Spares I :=
  kept.weaken (fun _ h => h) fun _ _ _ => trivial

/-- The value that is edited may be looked at. -/
theorem self_bind {f : σ → Edit σ β} (next : ∀ a, P a → (f a).Keeps I (Eq a) R) :
    (Edit.self >>= f).Keeps I P R := by
  intro p pre inv
  rw [Edit.self_bind]
  exact next p.1 pre p rfl inv

theorem put_bind {a : σ} {f : Unit → Edit σ β} (next : (f ()).Keeps I (Eq a) R) :
    (Edit.put a >>= f).Keeps I P R := by
  intro p _ inv
  rw [Edit.put_bind]
  exact next _ rfl inv

theorem update {g : σ → σ} {R : Unit → σ → Prop} (reached : ∀ a, P a → R () (g a)) :
    (Edit.update g).Keeps I P R :=
  fun p pre inv => ⟨inv, fun _ _ => reached p.1 pre⟩

theorem put {a : σ} {R : Unit → σ → Prop} (reached : R () a) : (Edit.put a).Keeps I P R :=
  fun _ _ inv => ⟨inv, fun _ _ => reached⟩

theorem lift {x : StoreM α} {S : α → Prop} (kept : x.Keeps I S)
    (reached : ∀ x a, S x → P a → Q x a) : Edit.Keeps I P (liftM x : Edit σ α) Q := by
  intro p pre inv
  obtain ⟨inv, returned⟩ := kept p.2 inv
  exact ⟨inv, fun x ok => reached x p.1 (returned x ok) pre⟩

/-- A step on the store alone, which leaves the edited value as it was. -/
theorem lift_bind {x : StoreM α} {S : α → Prop} {f : α → Edit σ β} (kept : x.Keeps I S)
    (next : ∀ x, S x → (f x).Keeps I P R) : ((liftM x : Edit σ α) >>= f).Keeps I P R := by
  refine .bind (.lift kept fun x a returned pre => (⟨returned, pre⟩ : S x ∧ P a)) fun x => ?_
  intro p pre
  exact next x pre.1 p pre.2

theorem read_bind {g : Memory → α} {f : α → Edit σ β} (next : ∀ x, (f x).Keeps I P R) :
    ((liftM (StoreM.read g) : Edit σ α) >>= f).Keeps I P R :=
  lift_bind (.read g) fun x _ => next x

theorem handled {handle : Error → Edit σ α} (first : e.Keeps I P Q)
    (second : ∀ err, (handle err).Keeps I (fun _ => True) Q) : (tryCatch e handle).Keeps I P Q := by
  intro p pre inv
  have unfolded : (tryCatch e handle : Edit σ α) p = (ExceptT.tryCatch e handle).run p := rfl
  obtain ⟨kept, reached⟩ := first p pre inv
  rcases run : e p with ⟨err | x, q⟩
  · have failed : (tryCatch e handle : Edit σ α) p = handle err q := by
      rw [unfolded]
      simp only [ExceptT.tryCatch, ExceptT.run, ExceptT.mk, Bind.bind, StateT.bind, run]
    rw [run] at kept
    rw [failed]
    exact second err q trivial kept
  · have returned : (tryCatch e handle : Edit σ α) p = (.ok x, q) := by
      rw [unfolded]
      simp only [ExceptT.tryCatch, ExceptT.run, ExceptT.mk, Bind.bind, StateT.bind, run]
      rfl
    rw [run] at kept reached
    rw [returned]
    exact ⟨kept, reached⟩

theorem focus {part : τ → σ} {embed : σ → τ → τ} {P' : τ → Prop} {Q' : α → τ → Prop}
    (kept : e.Keeps I P Q) (pre : ∀ b, P' b → P (part b))
    (post : ∀ x a b, P' b → Q x a → Q' x (embed a b)) :
    (Edit.focus part embed e).Keeps I P' Q' := by
  intro p known inv
  obtain ⟨inv, reached⟩ := kept (part p.1, p.2) (pre p.1 known) inv
  exact ⟨inv, fun x ok => post x _ p.1 known (reached x ok)⟩

end Edit.Keeps

namespace Edit.Spares

variable {R : β → σ → Prop} {e : Edit σ α}

theorem seq {f : α → Edit σ β} (first : e.Spares I) (next : ∀ x, (f x).Keeps I (fun _ => True) R) :
    (e >>= f).Keeps I (fun _ => True) R :=
  Keeps.bind first next

/-- Edits of which nothing is asked may follow any other step. -/
theorem from_any (spares : e.Spares I) (P : σ → Prop) : e.Keeps I P fun _ _ => True :=
  spares.weaken (fun _ _ => trivial) fun _ _ _ => trivial

theorem lift {x : StoreM α} (kept : x.Spares I) : Edit.Spares I (liftM x : Edit σ α) :=
  Keeps.lift kept fun _ _ _ _ => trivial

theorem focus {part : τ → σ} {embed : σ → τ → τ} (spares : e.Spares I) :
    (Edit.focus part embed e).Spares I :=
  Keeps.focus spares (fun _ _ => trivial) fun _ _ _ _ _ => trivial

theorem inside {embed : σ → τ} {a : σ} (spares : e.Spares I) : (Edit.inside embed a e).Spares I :=
  fun p _ inv => ⟨(spares (a, p.2) trivial inv).1, fun _ _ => trivial⟩

theorem on {a : σ} (spares : e.Spares I) : (Edit.on a e).Spares I := by
  intro s inv
  have kept := (spares (a, s) trivial inv).1
  rw [Edit.on]
  rcases run : e (a, s) with ⟨_ | _, _, _⟩
  all_goals
    rw [run] at kept
    exact ⟨kept, fun _ _ => trivial⟩

theorem forIn {l : List β} {f : β → α → Edit σ (ForInStep α)} {x : α}
    (each : ∀ b x, (f b x).Spares I) : Edit.Spares I (forIn l x f) := by
  induction l generalizing x with
  | nil => exact .pure fun _ _ => trivial
  | cons b l ih =>
      rw [List.forIn_cons]
      refine (each b x).seq fun step => ?_
      cases step with
      | done x => exact .pure fun _ _ => trivial
      | yield x => exact ih

theorem trying {a : σ} (spares : e.Spares I) : (Edit.trying a e).Spares I :=
  fun s inv => ⟨(spares (a, s) trivial inv).1, fun _ _ => trivial⟩

end Edit.Spares

/-! ### Both outcomes of a run -/

section Ends

variable {s : Store} {p : σ × Store} {failed : Error → Store → Prop}

/-- What is known of a run that succeeds, and what of one that fails. -/
def StoreM.Ends (x : StoreM α) (s : Store) (done : α → Store → Prop)
    (failed : Error → Store → Prop) : Prop :=
  match x s with
  | (.ok a, s') => done a s'
  | (.error e, s') => failed e s'

/-- The same of an edit, which drops its value when it fails. -/
def Edit.Ends (e : Edit σ α) (p : σ × Store) (done : α → σ × Store → Prop)
    (failed : Error → Store → Prop) : Prop :=
  match e p with
  | (.ok a, q) => done a q
  | (.error err, q) => failed err q.2

theorem StoreM.Ends.bind {x : StoreM α} {f : α → StoreM β} {done : α → Store → Prop}
    {done' : β → Store → Prop} (first : x.Ends s done failed)
    (next : ∀ a s', done a s' → (f a).Ends s' done' failed) : (x >>= f).Ends s done' failed := by
  rw [Ends] at first ⊢
  rw [StoreM.bind_apply]
  rcases run : x s with ⟨e | a, s'⟩
  · rwa [run] at first
  · rw [run] at first
    exact next a s' first

theorem StoreM.Ends.mono {x : StoreM α} {done done' : α → Store → Prop}
    {failed' : Error → Store → Prop} (h : x.Ends s done failed)
    (weaker : ∀ a s', done a s' → done' a s') (weaker' : ∀ e s', failed e s' → failed' e s') :
    x.Ends s done' failed' := by
  rw [Ends] at h ⊢
  split
  next a s' run =>
    rw [run] at h
    exact weaker a s' h
  next e s' run =>
    rw [run] at h
    exact weaker' e s' h

theorem StoreM.Ends.pure {a : α} {done : α → Store → Prop} (h : done a s) :
    StoreM.Ends (pure a) s done failed := h

theorem Edit.Ends.bind {x : Edit σ α} {f : α → Edit σ β} {done : α → σ × Store → Prop}
    {done' : β → σ × Store → Prop} (first : x.Ends p done failed)
    (next : ∀ a q, done a q → (f a).Ends q done' failed) : (x >>= f).Ends p done' failed := by
  rw [Ends] at first ⊢
  rw [Edit.bind_apply]
  rcases run : x p with ⟨e | a, q⟩
  · rwa [run] at first
  · rw [run] at first
    exact next a q first

theorem Edit.Ends.mono {e : Edit σ α} {done done' : α → σ × Store → Prop}
    (h : e.Ends p done failed) (weaker : ∀ a q, done a q → done' a q) : e.Ends p done' failed := by
  rw [Ends] at h ⊢
  split
  next a q run =>
    rw [run] at h
    exact weaker a q h
  next err q run => rwa [run] at h

theorem Edit.Ends.pure {a : α} {done : α → σ × Store → Prop} (h : done a p) :
    Edit.Ends (pure a) p done failed := h

/-- A step on the store leaves the edited value as it was. -/
theorem Edit.Ends.lift {x : StoreM α} {done : α → Store → Prop} (h : x.Ends p.2 done failed) :
    Edit.Ends (liftM x : Edit σ α) p (fun a q => q.1 = p.1 ∧ done a q.2) failed := by
  have lifted : (liftM x : Edit σ α) p = ((x p.2).1, (p.1, (x p.2).2)) := rfl
  rw [StoreM.Ends] at h
  rw [Edit.Ends, lifted]
  rcases run : x p.2 with ⟨e | a, s'⟩
  · rwa [run] at h
  · rw [run] at h
    exact ⟨rfl, h⟩

theorem StoreM.Ends.on {a : σ} {e : Edit σ α} {done : α → σ × Store → Prop}
    (h : e.Ends (a, s) done failed) :
    (Edit.on a e).Ends s (fun r s' => done r.1 (r.2, s')) failed := by
  rw [Edit.Ends] at h
  rw [StoreM.Ends, Edit.on]
  rcases run : e (a, s) with ⟨err | x, b, s'⟩
  · rwa [run] at h
  · rwa [run] at h

end Ends

end ColumnStore
