import ColumnStore.Proofs.Cursors
import ColumnStore.Proofs.Interchange

set_option autoImplicit false

/-!
Comparisons of operands. Rows are evaluated in batches with a lane for each row; every lane comes to
what its row comes to alone, wherever the batches begin.
-/
namespace ColumnStore

/-! ### One row -/

namespace Arithmetic

/-- The result among all integers. A quotient is rounded towards zero, and it is zero if the divisor
is. -/
def exact (op : Arithmetic) (a b : Int) : Int :=
  match op with
  | add => a + b
  | sub => a - b
  | mul => a * b
  | div => a.tdiv b

/-- Integers wrap. -/
theorem int_eq (op : Arithmetic) (a b : Int64) :
    op.int a b = Int64.ofInt (op.exact a.toInt b.toInt) := by
  cases op with
  | add => rw [int, exact, Int64.ofInt_add, Int64.ofInt_toInt, Int64.ofInt_toInt]
  | sub => rw [int, exact, Int64.ofInt_sub, Int64.ofInt_toInt, Int64.ofInt_toInt]
  | mul => rw [int, exact, Int64.ofInt_mul, Int64.ofInt_toInt, Int64.ofInt_toInt]
  | div =>
      rw [int, exact]
      split
      next zero =>
        rw [zero, Int64.toInt_zero, Int.tdiv_zero]
        rfl
      next => rw [← Int64.toInt_inj, Int64.toInt_div, Int64.toInt_ofInt]

example : div.exact (Int64.minValue.toInt) (-1) = 2 ^ 63 ∧
    div.int Int64.minValue (-1) = Int64.minValue ∧ div.int 7 0 = 0 ∧ div.int (-7) 2 = -3 := by
  decide

end Arithmetic

namespace Number

def toSingle : Number → Float32
  | int v => v.toFloat32
  | single v => v
  | double v => v.toFloat32

def toDouble : Number → Float
  | int v => v.toFloat
  | single v => v.toFloat
  | double v => v

/-- Two numbers meet as doubles if one of them is a double, and otherwise as singles if one of them
is a single. -/
def meet {β : Type} (onInts : Int64 → Int64 → β) (onSingles : Float32 → Float32 → β)
    (onDoubles : Float → Float → β) : Number → Number → β
  | int a, int b => onInts a b
  | double a, b => onDoubles a b.toDouble
  | a, double b => onDoubles a.toDouble b
  | a, b => onSingles a.toSingle b.toSingle

def apply (op : Arithmetic) : Number → Number → Number :=
  meet (fun a b => int (.ofInt (op.exact a.toInt b.toInt))) (fun a b => single (op.single a b))
    (fun a b => double (op.double a b))

def compare (test : Comparison) : Number → Number → Bool :=
  meet test.int test.float32 test.float

end Number

/-- The number that an operand is at a row, read cell by cell. -/
def Operand.number (m : Memory) (t : Table) (row : Nat) : Operand → Except Error Number
  | column col => do
      match ← t.column col with
      | .int _ => return .int (← t.getInt m col row)
      | .single _ => return .single (← t.getSingle m col row).float
      | .double _ => return .double (← t.getDouble m col row).float
      | _ => throw (t.mismatch col "numeric")
  | value v => return v
  | apply op left right => return .apply op (← left.number m t row) (← right.number m t row)

/-- Whether a comparison of two operands holds at a row. -/
def Operand.compareAt (m : Memory) (t : Table) (test : Comparison) (left right : Operand)
    (row : Nat) : Except Error Bool :=
  return Number.compare test (← left.number m t row) (← right.number m t row)

/-! ### Lanes -/

namespace Batch

def lane (lane : Fin rows) : Batch → Number
  | ints vs => .int vs[lane]
  | singles vs => .single vs[lane]
  | doubles vs => .double vs[lane]

theorem lane_splat (v : Number) (i : Fin rows) : (splat v).lane i = v := by
  cases v <;> simp [splat, lane]

/-- An operation on a lane looks at no other lane. -/
theorem lane_apply (op : Arithmetic) (a b : Batch) (i : Fin rows) :
    (apply op a b).lane i = Number.apply op (a.lane i) (b.lane i) := by
  cases a <;> cases b <;> simp [apply, unify, lane, Number.apply, Number.meet, Number.toSingle,
    Number.toDouble, Arithmetic.int_eq]

theorem getElem_compare (test : Comparison) (a b : Batch) (i : Fin rows) :
    (compare test a b)[i] = Number.compare test (a.lane i) (b.lane i) := by
  cases a <;> cases b <;> simp [compare, unify, lane, Number.compare, Number.meet, Number.toSingle,
    Number.toDouble]

theorem getElem_fill {α : Type} (f : Nat → α) (rest : α) {start count : Nat} {i : Fin rows}
    (few : i < count) : (fill ((List.range' start count).map f) rest)[i] = f (start + i) := by
  simp [fill, few]

end Batch

/-! ### Bound operands -/

namespace BoundOperand

/-- The number that an operand is at a row. -/
def number (m : Memory) (row : Nat) : BoundOperand → Number
  | int t _ => .int (t.get m row)
  | single t _ => .single (t.get m row).float
  | double t _ => .double (t.get m row).float
  | value v => v
  | apply op left right => .apply op (left.number m row) (right.number m row)

/-- An operand over columns that have a value for each of `size` rows. -/
inductive Reads (w : View) (size : Nat) : BoundOperand → Prop where
  | int {values : IntColumn} {cursor : Cursor Node} (reads : cursor.Reads w size values) :
      Reads w size (.int values cursor)
  | single {values : ScalarColumn Single} {cursor : Cursor (ScalarLeaf Single)}
      (reads : cursor.Reads w size values) : Reads w size (.single values cursor)
  | double {values : ScalarColumn Double} {cursor : Cursor (ScalarLeaf Double)}
      (reads : cursor.Reads w size values) : Reads w size (.double values cursor)
  | value {v : Number} : Reads w size (.value v)
  | apply {op : Arithmetic} {left right : BoundOperand} (first : Reads w size left)
      (second : Reads w size right) : Reads w size (.apply op left right)

/-- The operand is the same over the same columns, but for what its cursors remember. -/
structure Follows (w : View) (size : Nat) (before after : BoundOperand) : Prop where
  reads : after.Reads w size
  same : ∀ row, after.number w.memory row = before.number w.memory row

variable {w : View} {m : Memory} {size start count stop fuel : Nat} {b left right : BoundOperand}

theorem Reads.follows (reads : b.Reads w size) : Follows w size b b := ⟨reads, fun _ => rfl⟩

theorem Follows.trans {b' b'' : BoundOperand} (first : Follows w size b b')
    (second : Follows w size b' b'') : Follows w size b b'' :=
  ⟨second.reads, fun row => (second.same row).trans (first.same row)⟩

/-- Every lane with a row has the number of its row. -/
theorem eval_lanes (reads : b.Reads w size) (same : w.Same m) (small : size < Slot.countBound)
    (inside : start + count ≤ size) : Follows w size b (b.eval m start count).2 ∧
      ∀ i : Fin Batch.rows, i < count →
        (b.eval m start count).1.lane i = b.number w.memory (start + i) := by
  induction reads with
  | int reads =>
      obtain ⟨values, reads⟩ := reads.getRows same small inside
      refine ⟨⟨.int reads, fun _ => rfl⟩, fun i few => ?_⟩
      simp only [eval, Batch.lane, values, Batch.getElem_fill _ _ few]
      rfl
  | single reads =>
      obtain ⟨values, reads⟩ := reads.getRows same small inside
      refine ⟨⟨.single reads, fun _ => rfl⟩, fun i few => ?_⟩
      simp only [eval, Batch.lane, values, List.map_map, Batch.getElem_fill _ _ few]
      rfl
  | double reads =>
      obtain ⟨values, reads⟩ := reads.getRows same small inside
      refine ⟨⟨.double reads, fun _ => rfl⟩, fun i few => ?_⟩
      simp only [eval, Batch.lane, values, List.map_map, Batch.getElem_fill _ _ few]
      rfl
  | value => exact ⟨⟨.value, fun _ => rfl⟩, fun i _ => Batch.lane_splat _ i⟩
  | apply _ _ first second =>
      obtain ⟨⟨reads, same⟩, lanes⟩ := first
      obtain ⟨⟨reads', same'⟩, lanes'⟩ := second
      refine ⟨⟨.apply reads reads', fun row => ?_⟩, fun i few => ?_⟩
      · exact congrArg₂ (Number.apply _) (same row) (same' row)
      · exact (Batch.lane_apply _ _ _ i).trans
          (congrArg₂ (Number.apply _) (lanes i few) (lanes' i few))

/-- A comparison of two operands at a row. -/
def holdsAt (m : Memory) (test : Comparison) (left right : BoundOperand) (row : Nat) : Bool :=
  Number.compare test (left.number m row) (right.number m row)

theorem Follows.holdsAt {test : Comparison} {left' right' : BoundOperand}
    (follows : Follows w size left left') (follows' : Follows w size right right') :
    holdsAt w.memory test left' right' = holdsAt w.memory test left right := by
  funext row
  exact congrArg₂ (Number.compare test) (follows.same row) (follows'.same row)

theorem lanes_first (test : Comparison) (reads : left.Reads w size) (reads' : right.Reads w size)
    (same : w.Same m) (small : size < Slot.countBound) (inside : start + count ≤ size)
    (few : count ≤ Batch.rows) :
    First (holdsAt w.memory test left right) start (start + count)
      (((List.range count).find? fun lane => (Batch.compare test (left.eval m start count).1
        (right.eval m start count).1)[lane]?.getD false).map (start + ·)) := by
  obtain ⟨-, lanes⟩ := eval_lanes reads same small inside
  obtain ⟨-, lanes'⟩ := eval_lanes reads' same small inside
  have found := find?_first (fun lane => (Batch.compare test (left.eval m start count).1
    (right.eval m start count).1)[lane]?.getD false) 0 count
  rw [Nat.zero_add, ← List.range_eq_range'] at found
  -- Lanes are counted from the first row of the batch; those behind its last row do not matter.
  have shifted := First.shift (n := start) (q := holdsAt w.memory test left right)
    (found.congr (Nat.le_refl _) fun lane within => ?_)
  · rwa [Nat.add_zero] at shifted
  · have here : lane < Batch.rows := Nat.lt_of_lt_of_le within few
    rw [Vector.getElem?_eq_getElem here, Option.getD_some]
    have value := Batch.getElem_compare test (left.eval m start count).1
      (right.eval m start count).1 ⟨lane, here⟩
    rw [lanes _ within, lanes' _ within] at value
    exact value.symm

theorem findCompared_first (test : Comparison) (reads : left.Reads w size)
    (reads' : right.Reads w size) (same : w.Same m) (small : size < Slot.countBound)
    (inside : stop ≤ size) (fueled : stop - start ≤ fuel) :
    ∃ r left' right', findCompared m test stop fuel start (left, right) = (r, left', right') ∧
      Follows w size left left' ∧ Follows w size right right' ∧
        First (holdsAt w.memory test left right) start stop r := by
  induction fuel generalizing start left right with
  | zero => exact ⟨none, _, _, rfl, reads.follows, reads'.follows, .empty (by omega)⟩
  | succ fuel ih =>
      rw [findCompared]
      split
      next some =>
        dsimp only
        have few := Nat.min_le_right (stop - start) Batch.rows
        have fits := Nat.min_le_left (stop - start) Batch.rows
        have more : 0 < min (stop - start) Batch.rows :=
          Nat.lt_min.mpr ⟨Nat.sub_pos_of_lt some, by decide⟩
        generalize min (stop - start) Batch.rows = count at few fits more ⊢
        have within : start + count ≤ size := by omega
        have here := lanes_first test reads reads' same small within few
        obtain ⟨follows, -⟩ := eval_lanes reads same small within
        obtain ⟨follows', -⟩ := eval_lanes reads' same small within
        split
        next lane found =>
          rw [found] at here
          exact ⟨_, _, _, rfl, follows, follows', here.widen (by omega)⟩
        next none =>
          rw [none] at here
          -- The next batch begins where this one ends, with the cursors that this one left.
          obtain ⟨r, left', right', run, later, later', rest⟩ :=
            ih follows.reads follows'.reads (by omega : stop - (start + count) ≤ fuel)
          refine ⟨r, left', right', run, follows.trans later, follows'.trans later', ?_⟩
          rw [follows.holdsAt follows'] at rest
          refine rest.after (Nat.le_add_right start count) ?_
          rwa [Nat.min_eq_left (by omega : start + count ≤ stop)]
      next none =>
        exact ⟨_, _, _, rfl, reads.follows, reads'.follows, .empty (Nat.not_lt.mp none)⟩

end BoundOperand

/-! ### Binding -/

namespace Operand

variable {w : View} {t : Table} {b : Nat} {x : Sheet} {operand : Operand} {bound : BoundOperand}

/-- Every column that an operand is bound to has a number in each row. -/
theorem bind_reads (sees : w.Sees (t.holds b x)) (binds : operand.bind t = .ok bound) :
    bound.Reads w t.size ∧
      ∀ row < t.size, operand.number w.memory t row = .ok (bound.number w.memory row) := by
  induction operand generalizing bound with
  | column col =>
      rcases found : t.column col with e | c <;> rw [Operand.bind, found] at binds
      · cases binds
      cases c with
      | int c =>
          cases binds
          have here : t.columnOf IntColumn col = .ok c := Table.columnOf_of_column found rfl
          refine ⟨.int (Probe.reads_column sees (f := .int) here rfl fun _ => rfl), ?_⟩
          intro row inside
          rw [number, found]
          simp only [Table.getInt, Table.cell_eq here inside]
          rfl
      | single c =>
          cases binds
          have here : t.columnOf (ScalarColumn Single) col = .ok c :=
            Table.columnOf_of_column found rfl
          refine ⟨.single (Probe.reads_column sees (f := .single) here rfl fun _ => rfl), ?_⟩
          intro row inside
          rw [number, found]
          simp only [Table.getSingle, Table.cell_eq here inside]
          rfl
      | double c =>
          cases binds
          have here : t.columnOf (ScalarColumn Double) col = .ok c :=
            Table.columnOf_of_column found rfl
          refine ⟨.double (Probe.reads_column sees (f := .double) here rfl fun _ => rfl), ?_⟩
          intro row inside
          rw [number, found]
          simp only [Table.getDouble, Table.cell_eq here inside]
          rfl
      | _ => cases binds
  | value v =>
      cases binds
      exact ⟨.value, fun row _ => rfl⟩
  | apply op left right first second =>
      rcases here : left.bind t with e | l <;> rcases there : right.bind t with e | r <;>
        rw [Operand.bind, here, there] at binds <;> cases binds
      obtain ⟨reads, numbers⟩ := first here
      obtain ⟨reads', numbers'⟩ := second there
      refine ⟨.apply reads reads', fun row inside => ?_⟩
      rw [number, numbers row inside, numbers' row inside]
      rfl

end Operand

/-! ### Ranges -/

/-- Searches of ranges of rows, one after the other; the cursors stay where they were left. -/
def compareEach (m : Memory) (test : Comparison) :
    List (Nat × Nat) → BoundOperand × BoundOperand → List (Option Nat)
  | [], _ => []
  | (start, stop) :: ranges, operands =>
      let (r, operands) := findCompared m test stop (stop - start) start operands
      r :: compareEach m test ranges operands

theorem compareEach_first {w : View} {m : Memory} {size : Nat} {left right : BoundOperand}
    {test : Comparison} {ranges : List (Nat × Nat)} (reads : left.Reads w size)
    (reads' : right.Reads w size) (same : w.Same m) (small : size < Slot.countBound)
    (inside : ∀ range ∈ ranges, range.2 ≤ size) :
    List.Forall₂
      (fun range => First (BoundOperand.holdsAt w.memory test left right) range.1 range.2)
      ranges (compareEach m test ranges (left, right)) := by
  induction ranges generalizing left right with
  | nil => exact .nil
  | cons range ranges ih =>
      obtain ⟨here, later⟩ := List.forall_mem_cons.mp inside
      obtain ⟨r, left', right', run, follows, follows', first⟩ := BoundOperand.findCompared_first
        test reads reads' same small here (Nat.le_refl (range.2 - range.1))
      have rest := ih follows.reads follows'.reads later
      rw [follows.holdsAt follows'] at rest
      rw [compareEach, run]
      exact .cons first rest

/-- Searches for the first row of a range where a comparison of two operands holds answer what the
rows come to one by one, whatever was searched before. -/
theorem compareEach_rowwise {settings : StoreSettings} {schema : List ColumnSpec}
    {ops : List Table.Op} {s : Store} {t : Table} {left right : Operand} {l r : BoundOperand}
    {ranges : List (Nat × Nat)} (max : settings.maxNodeSize < 2 ^ 24 - 2)
    (built : Table.Built settings schema ops s t) (short : Table.Short ops (.ofSchema schema))
    (few : Table.weight ops < Slot.countBound) (binds : left.bind t = .ok l)
    (binds' : right.bind t = .ok r) (test : Comparison)
    (inside : ∀ range ∈ ranges, range.2 ≤ t.size) :
    ∃ holds : Nat → Bool,
      (∀ row < t.size, Operand.compareAt s.memory t test left right row = .ok (holds row)) ∧
        List.Forall₂ (fun range => First holds range.1 range.2) ranges
          (compareEach s.memory test ranges (l, r)) := by
  have h := built.holds max short few
  obtain ⟨reads, numbers⟩ := Operand.bind_reads h.sees binds
  obtain ⟨reads', numbers'⟩ := Operand.bind_reads h.sees binds'
  have small := Nat.lt_of_le_of_lt (Table.size_le_of_sees h.sees) few
  refine ⟨BoundOperand.holdsAt s.memory test l r, fun row here => ?_, ?_⟩
  · rw [Operand.compareAt, show s.memory = s.view.memory from rfl, numbers row here,
      numbers' row here]
    rfl
  · exact compareEach_first reads reads' s.view.same_self small inside

def oneColumn : List ColumnSpec := [{ name := "number", kind := .int }]

def oneNumber : List Table.Op := [.addRows 10, .setInt 0 9 7]

/-- Zero divided by zero is zero. -/
def selfQuotient : Operand := .apply .div (.column 0) (.column 0)

/-- The row that is found is in the second batch. -/
theorem compareEach_rowwise_tenRows : ∃ s t l r,
    Table.Built { maxNodeSize := 16 } oneColumn oneNumber s t ∧
      selfQuotient.bind t = .ok l ∧ (Operand.value (.int 1)).bind t = .ok r ∧
      compareEach s.memory .equal [(0, 10), (2, 9)] (l, r) = [some 9, none] ∧
      ∃ holds : Nat → Bool, (∀ row < 10, Operand.compareAt s.memory t .equal selfQuotient
        (.value (.int 1)) row = .ok (holds row)) ∧
        List.Forall₂ (fun range => First holds range.1 range.2) [(0, 10), (2, 9)]
          [some 9, none] := by
  have searches : ((Table.ofOps { maxNodeSize := 16 } oneColumn oneNumber >>= fun t =>
      StoreM.read fun m => (t.size, (selfQuotient.bind t).toOption.map fun l =>
        compareEach m .equal [(0, 10), (2, 9)] (l, .value (.int 1)))) (.empty {})).1.toOption =
      some (10, some [some 9, none]) := by decide +kernel
  rw [StoreM.bind_apply] at searches
  cases made : Table.ofOps { maxNodeSize := 16 } oneColumn oneNumber (.empty {}) with
  | mk r s =>
      rw [made] at searches
      cases r with
      | error e => cases searches
      | ok t =>
          have built := Table.ofOps_built (Store.sound_empty {}) made
          obtain ⟨size, found⟩ := Prod.mk.inj (Option.some.inj searches)
          cases binds : selfQuotient.bind t with
          | error e =>
              rw [binds] at found
              cases found
          | ok l =>
              rw [binds] at found
              have found : compareEach s.memory .equal [(0, 10), (2, 9)] (l, .value (.int 1)) =
                  [some 9, none] := Option.some.inj found
              have short : Table.Short oneNumber (.ofSchema oneColumn) :=
                ⟨trivial, trivial, trivial⟩
              have inside : ∀ range ∈ [(0, 10), (2, 9)], range.2 ≤ t.size := by
                rw [size]
                decide
              have constant : (Operand.value (.int 1)).bind t = .ok (.value (.int 1)) := rfl
              have rowwise := compareEach_rowwise (by decide) built short (by decide) binds
                constant .equal inside
              rw [size, found] at rowwise
              exact ⟨s, t, l, _, built, binds, constant, found, rowwise⟩

end ColumnStore
