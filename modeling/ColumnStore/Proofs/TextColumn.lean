import ColumnStore.Column.Text
import ColumnStore.Proofs.EnumColumn

set_option autoImplicit false

/-!
Runs of operations on columns of text in either form. The index follows every operation, so that
searches answer with it as they do by scanning.
-/
namespace ColumnStore.TextColumn

/-! ### Operations -/

inductive Op where
  | set (row : Nat) (v : String)
  /-- In front of a row, or at the end. -/
  | insert (row : Option Nat) (v : String)
  | add (v : String)
  /-- A row, or the last one. -/
  | erase (row : Option Nat)
  | clear
  | addIndex
  deriving DecidableEq, Repr

namespace Op

def run : Op → Edit TextColumn Unit
  | set row v => TextColumn.set row v
  | insert row v => TextColumn.insert row v
  | add v => TextColumn.edit (PlainColumn.add v) (EnumColumn.add v)
  | erase row => TextColumn.erase row
  | clear => TextColumn.clear
  | addIndex => TextColumn.addIndex

def onList : Op → List String → List String
  | set row v, vs => vs.set row v
  | insert row v, vs => vs.insertIdx (row.getD vs.length) v
  | add v, vs => vs ++ [v]
  | erase row, vs => vs.eraseIdx (row.getD (vs.length - 1))
  | clear, _ => []
  | addIndex, vs => vs

def InRange : Op → List String → Prop
  | set row _, vs => row < vs.length
  | insert row _, vs => row.getD vs.length ≤ vs.length
  | erase row, vs => row.getD (vs.length - 1) < vs.length
  | add _, _ | clear, _ | addIndex, _ => True

instance (op : Op) (vs : List String) : Decidable (op.InRange vs) := by
  cases op <;> unfold InRange <;> infer_instance

end Op

def run : List Op → Edit TextColumn Unit
  | [] => pure ()
  | op :: ops => do
      op.run
      run ops

def onList (ops : List Op) (vs : List String) : List String :=
  ops.foldl (fun vs op => op.onList vs) vs

def InRange : List Op → List String → Prop
  | [], _ => True
  | op :: ops, vs => op.InRange vs ∧ InRange ops (op.onList vs)

instance decidableInRange : (ops : List Op) → (vs : List String) → Decidable (InRange ops vs)
  | [], _ => .isTrue True.intro
  | op :: ops, vs =>
      have := decidableInRange ops (op.onList vs)
      inferInstanceAs (Decidable (_ ∧ _))

/-- An empty column without an index, in either form. -/
inductive Created (maxNodeSize : Nat) (s s' : Store) : TextColumn → Prop where
  | plain {c : PlainColumn} (run : PlainColumn.create maxNodeSize s = (.ok c, s')) :
      Created maxNodeSize s s' (plain c)
  | enum {c : EnumColumn} (run : EnumColumn.create maxNodeSize s = (.ok c, s')) :
      Created maxNodeSize s s' (enum c)

/-- The column holds the texts `vs`; an enumerated one holds the keys too. -/
def holds (c : TextColumn) (keys vs : List String) : Assertion :=
  match c with
  | plain c => c.holds vs
  | enum c => c.holds keys vs

variable {c c' : TextColumn} {s s' : Store} {keys vs : List String} {R : Assertion} {ops : List Op}
  {m : Memory} {base : Nat} {own : Set Nat}

theorem edit_plain_ok {α : Type} {x : α} {inPlain : Edit PlainColumn α} {inEnum : Edit EnumColumn α}
    {p : PlainColumn} : edit inPlain inEnum (plain p, s) = (.ok x, (c', s')) ↔
      ∃ p', inPlain (p, s) = (.ok x, (p', s')) ∧ c' = plain p' := by
  rw [edit, Edit.self_bind]
  exact Edit.inside_ok

theorem edit_enum_ok {α : Type} {x : α} {inPlain : Edit PlainColumn α} {inEnum : Edit EnumColumn α}
    {p : EnumColumn} : edit inPlain inEnum (enum p, s) = (.ok x, (c', s')) ↔
      ∃ p', inEnum (p, s) = (.ok x, (p', s')) ∧ c' = enum p' := by
  rw [edit, Edit.self_bind]
  exact Edit.inside_ok

theorem Op.run_plain {op : Op} {p : PlainColumn} (h : s.Holds (p.holds vs * R))
    (small : vs.length + 1 < Slot.countBound) (inRange : op.InRange vs)
    (ok : op.run (plain p, s) = (.ok (), (c', s'))) :
    ∃ p', c' = plain p' ∧ s'.Holds (p'.holds (op.onList vs) * R) := by
  have short := Nat.lt_of_succ_lt small
  cases op with
  | set row v =>
      obtain ⟨p', ran, rfl⟩ := edit_plain_ok.mp ok
      exact ⟨p', rfl, PlainColumn.set_holds h inRange short ran⟩
  | insert row v =>
      obtain ⟨p', ran, rfl⟩ := edit_plain_ok.mp ok
      exact ⟨p', rfl, PlainColumn.insert_holds h inRange small ran⟩
  | add v =>
      obtain ⟨p', ran, rfl⟩ := edit_plain_ok.mp ok
      exact ⟨p', rfl, PlainColumn.add_holds h small ran⟩
  | erase row =>
      obtain ⟨p', ran, rfl⟩ := edit_plain_ok.mp ok
      exact ⟨p', rfl, PlainColumn.erase_holds h inRange short ran⟩
  | clear =>
      obtain ⟨p', ran, rfl⟩ := edit_plain_ok.mp ok
      exact ⟨p', rfl, PlainColumn.clear_holds h ran⟩
  | addIndex =>
      obtain ⟨p', ran, rfl⟩ := edit_plain_ok.mp ok
      exact ⟨p', rfl, PlainColumn.addIndex_holds h short ran⟩

theorem Op.run_enum {op : Op} {p : EnumColumn} (h : s.Holds (p.holds keys vs * R))
    (many : keys.length + 1 < Slot.countBound) (small : vs.length + 1 < Slot.countBound)
    (inRange : op.InRange vs) (ok : op.run (enum p, s) = (.ok (), (c', s'))) :
    ∃ p' keys', c' = enum p' ∧ keys'.length ≤ keys.length + 1 ∧
      s'.Holds (p'.holds keys' (op.onList vs) * R) := by
  have few := Nat.lt_of_succ_lt many
  have short := Nat.lt_of_succ_lt small
  cases op with
  | set row v =>
      obtain ⟨p', ran, rfl⟩ := edit_enum_ok.mp ok
      obtain ⟨keys', more, h⟩ := EnumColumn.set_holds h many inRange short ran
      exact ⟨p', keys', rfl, more, h⟩
  | insert row v =>
      obtain ⟨p', ran, rfl⟩ := edit_enum_ok.mp ok
      obtain ⟨keys', more, h⟩ := EnumColumn.insert_holds h many inRange small ran
      exact ⟨p', keys', rfl, more, h⟩
  | add v =>
      obtain ⟨p', ran, rfl⟩ := edit_enum_ok.mp ok
      obtain ⟨keys', more, h⟩ := EnumColumn.add_holds h many small ran
      exact ⟨p', keys', rfl, more, h⟩
  | erase row =>
      obtain ⟨p', ran, rfl⟩ := edit_enum_ok.mp ok
      exact ⟨p', keys, rfl, Nat.le_succ _, EnumColumn.erase_holds h few inRange short ran⟩
  | clear =>
      obtain ⟨p', ran, rfl⟩ := edit_enum_ok.mp ok
      exact ⟨p', keys, rfl, Nat.le_succ _, EnumColumn.clear_holds h ran⟩
  | addIndex =>
      obtain ⟨p', ran, rfl⟩ := edit_enum_ok.mp ok
      exact ⟨p', keys, rfl, Nat.le_succ _, EnumColumn.addIndex_holds h few short ran⟩

/-- An operation adds at most one key. -/
theorem Op.run_ok {op : Op} (h : s.Holds (c.holds keys vs * R))
    (many : keys.length + 1 < Slot.countBound) (small : vs.length + 1 < Slot.countBound)
    (inRange : op.InRange vs) (ok : op.run (c, s) = (.ok (), (c', s'))) :
    ∃ keys', keys'.length ≤ keys.length + 1 ∧ s'.Holds (c'.holds keys' (op.onList vs) * R) := by
  cases c with
  | plain p =>
      obtain ⟨p', rfl, h⟩ := op.run_plain h small inRange ok
      exact ⟨keys, Nat.le_succ _, h⟩
  | enum p =>
      obtain ⟨p', keys', rfl, more, h⟩ := op.run_enum h many small inRange ok
      exact ⟨keys', more, h⟩

/-- A key stays when the last row that has it is erased. -/
theorem erase_holds {row : Option Nat} (h : s.Holds (c.holds keys vs * R))
    (many : keys.length < Slot.countBound) (small : vs.length < Slot.countBound)
    (inside : row.getD (vs.length - 1) < vs.length)
    (ok : erase row (c, s) = (.ok (), (c', s'))) :
    s'.Holds (c'.holds keys (vs.eraseIdx (row.getD (vs.length - 1))) * R) := by
  cases c with
  | plain p =>
      obtain ⟨p', ran, rfl⟩ := edit_plain_ok.mp ok
      exact PlainColumn.erase_holds h inside small ran
  | enum p =>
      obtain ⟨p', ran, rfl⟩ := edit_enum_ok.mp ok
      exact EnumColumn.erase_holds h many inside small ran

theorem Op.length_onList (op : Op) (vs : List String) : (op.onList vs).length ≤ vs.length + 1 := by
  cases op with
  | set => simp [onList]
  | insert =>
      rw [onList, List.length_insertIdx]
      split <;> omega
  | add => simp [onList]
  | erase =>
      rw [onList, List.length_eraseIdx]
      split <;> omega
  | clear => simp [onList]
  | addIndex => simp [onList]

theorem run_holds (h : s.Holds (c.holds keys vs * R))
    (many : keys.length + ops.length < Slot.countBound)
    (small : vs.length + ops.length < Slot.countBound) (inRange : InRange ops vs)
    (ok : run ops (c, s) = (.ok (), (c', s'))) :
    ∃ keys', keys'.length < Slot.countBound ∧ (onList ops vs).length < Slot.countBound ∧
      s'.Holds (c'.holds keys' (onList ops vs) * R) := by
  induction ops generalizing c s keys vs with
  | nil =>
      obtain ⟨-, same⟩ := Edit.pure_ok.mp ok
      cases same
      exact ⟨keys, many, small, h⟩
  | cons op ops ih =>
      rw [List.length_cons] at many small
      obtain ⟨_, ⟨c₁, s₁⟩, first, rest⟩ := Edit.bind_ok.mp ok
      obtain ⟨keys₁, more, h⟩ := op.run_ok h (by omega) (by omega) inRange.1 first
      have longer : (op.onList vs).length + ops.length < Slot.countBound := by
        have := op.length_onList vs
        omega
      exact ih h (by omega) longer inRange.2 rest

theorem Created.holds {maxNodeSize : Nat} (created : Created maxNodeSize s s' c) (sound : s.Sound)
    (room : 0 < maxNodeSize) (max : maxNodeSize < 2 ^ 24 - 2) :
    s'.Holds (c.holds [] [] * 1) := by
  cases created with
  | plain run => exact PlainColumn.create_holds (Store.holds_one sound) room max run
  | enum run => exact EnumColumn.create_holds (Store.holds_one sound) room max run

/-! ### What is read -/

section Read

variable (h : (c.holds keys vs).holds m base own) (many : keys.length < Slot.countBound)
  (small : vs.length < Slot.countBound)
include h

theorem indexes_of_holds : Indexes c.index? vs := by
  cases c with
  | plain p => exact PlainColumn.indexes_of_holds h
  | enum p => exact (Assertion.fact_mul.mp h).1

include small

theorem size_of_holds : c.size m = vs.length := by
  cases c with
  | plain p => exact PlainColumn.size_of_holds h small
  | enum p => exact EnumColumn.size_of_stored (Assertion.fact_mul.mp h).2 small

include many

theorem get_of_holds {row : Nat} (inside : row < vs.length) : c.get m row = vs[row] := by
  cases c with
  | plain p => exact PlainColumn.get_of_holds h small inside
  | enum p => exact EnumColumn.get_of_stored (Assertion.fact_mul.mp h).2 many small inside

theorem findFirst_of_holds (v : String) (start : Nat) (stop : Option Nat) :
    c.findFirst m v start stop = (rowsIn vs (· == v) start stop).head? := by
  cases c with
  | plain p => exact PlainColumn.findFirst_of_holds h small v start stop
  | enum p => exact EnumColumn.findFirst_of_stored (Assertion.fact_mul.mp h).2 many small v start stop

theorem findAll_of_holds (v : String) (start : Nat) (stop : Option Nat) :
    c.findAll m v start stop = rowsIn vs (· == v) start stop := by
  cases c with
  | plain p => exact PlainColumn.findAll_of_holds h small v start stop
  | enum p => exact EnumColumn.findAll_of_stored (Assertion.fact_mul.mp h).2 many small v start stop

theorem count_of_holds (v : String) : c.count m v = (rowsIn vs (· == v) 0 none).length := by
  cases c with
  | plain p => exact PlainColumn.count_of_holds h small v
  | enum p => exact EnumColumn.count_of_stored (Assertion.fact_mul.mp h).2 many small v

end Read

/-! ### The index -/

end ColumnStore.TextColumn
