import ColumnStore.Store.Basic

set_option autoImplicit false

/-!
Edits of a value that refers into the store. An edit that fails keeps both the value and the store
it had reached; a value edited only locally is dropped with the failure.
-/
namespace ColumnStore

abbrev Edit (σ : Type) := ExceptT Error (StateM (σ × Store))

namespace Edit

variable {σ τ α : Type}

@[inline] def lift (x : StoreM α) : Edit σ α := fun (a, s) =>
  match x s with
  | (r, s) => (r, (a, s))

instance : MonadLift StoreM (Edit σ) := ⟨lift⟩

/-- The edited value. -/
@[inline] def self : Edit σ σ := fun (a, s) => (.ok a, (a, s))

@[inline] def put (a : σ) : Edit σ Unit := fun (_, s) => (.ok (), (a, s))

@[inline] def update (f : σ → σ) : Edit σ Unit := fun (a, s) => (.ok (), (f a, s))

/-- Edits `a` and returns it with the result. -/
@[inline] def on (a : σ) (e : Edit σ α) : StoreM (α × σ) := fun s =>
  match e (a, s) with
  | (.ok x, (a, s)) => (.ok (x, a), s)
  | (.error err, (_, s)) => (.error err, s)

/-- Edits `a` and returns it also with a failure, which is not passed on. -/
def trying (a : σ) (e : Edit σ α) : StoreM (Except Error α × σ) := fun s =>
  match e (a, s) with
  | (r, (a, s)) => (.ok (r, a), s)

/-- Edits a part in place; the part is kept as reached when the edit fails. -/
@[inline] def focus (part : σ → τ) (embed : τ → σ → σ) (e : Edit τ α) : Edit σ α := fun (a, s) =>
  match e (part a, s) with
  | (r, (b, s)) => (r, (embed b a, s))

/-- Edits the content of a constructor in place. -/
@[inline] def inside (embed : τ → σ) (b : τ) (e : Edit τ α) : Edit σ α := fun (_, s) =>
  match e (b, s) with
  | (r, (b, s)) => (r, (embed b, s))

end Edit

/-- The store is read only through its memory. -/
@[inline] def StoreM.read {α : Type} (f : Memory → α) : StoreM α := fun s => (.ok (f s.memory), s)

end ColumnStore
