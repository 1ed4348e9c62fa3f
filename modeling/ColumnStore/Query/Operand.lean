import ColumnStore.Table.Cells

set_option autoImplicit false

/-!
Arithmetic over the numeric columns of a row. Where the types of two operands differ, integers
become single precision and everything becomes double precision. Integers wrap, and dividing one
by zero gives zero. Operands are evaluated for several rows at a time.
-/
namespace ColumnStore

inductive Number where
  | int (v : Int64)
  | single (v : Float32)
  | double (v : Float)
  deriving Inhabited

inductive Arithmetic where
  | add
  | sub
  | mul
  | div
  deriving DecidableEq, Repr, Inhabited

inductive Operand where
  | column (col : Nat)
  | value (v : Number)
  | apply (op : Arithmetic) (left right : Operand)

namespace Arithmetic

def int (op : Arithmetic) (a b : Int64) : Int64 :=
  match op with
  | add => a + b
  | sub => a - b
  | mul => a * b
  | div => if b = 0 then 0 else a / b

def single (op : Arithmetic) (a b : Float32) : Float32 :=
  match op with
  | add => a + b
  | sub => a - b
  | mul => a * b
  | div => a / b

def double (op : Arithmetic) (a b : Float) : Float :=
  match op with
  | add => a + b
  | sub => a - b
  | mul => a * b
  | div => a / b

end Arithmetic

/-- Rows evaluated together. -/
def Batch.rows : Nat := 8

/-- Numbers of one type for consecutive rows, one row to a lane. If there are fewer rows than lanes
then the last lanes stand for no row. -/
inductive Batch where
  | ints (vs : Vector Int64 Batch.rows)
  | singles (vs : Vector Float32 Batch.rows)
  | doubles (vs : Vector Float Batch.rows)
  deriving Inhabited

namespace Batch

/-- The values of the first lanes, and a value for the lanes without a row. -/
def fill {α : Type} (vs : List α) (rest : α) : Vector α rows :=
  .ofFn fun lane => vs.getD lane rest

/-- One number in every lane. -/
def splat : Number → Batch
  | .int v => ints (.replicate rows v)
  | .single v => singles (.replicate rows v)
  | .double v => doubles (.replicate rows v)

/-- Runs what fits the wider of two types, to which the other operand is brought first. -/
def unify {β : Type} (onInts : Vector Int64 rows → Vector Int64 rows → β)
    (onSingles : Vector Float32 rows → Vector Float32 rows → β)
    (onDoubles : Vector Float rows → Vector Float rows → β) : Batch → Batch → β
  | ints a, ints b => onInts a b
  | ints a, singles b => onSingles (a.map Int64.toFloat32) b
  | ints a, doubles b => onDoubles (a.map Int64.toFloat) b
  | singles a, ints b => onSingles a (b.map Int64.toFloat32)
  | singles a, singles b => onSingles a b
  | singles a, doubles b => onDoubles (a.map Float32.toFloat) b
  | doubles a, ints b => onDoubles a (b.map Int64.toFloat)
  | doubles a, singles b => onDoubles a (b.map Float32.toFloat)
  | doubles a, doubles b => onDoubles a b

def apply (op : Arithmetic) : Batch → Batch → Batch :=
  unify (fun a b => ints (.zipWith op.int a b)) (fun a b => singles (.zipWith op.single a b))
    (fun a b => doubles (.zipWith op.double a b))

/-- For each lane whether the comparison holds. -/
def compare (test : Comparison) : Batch → Batch → Vector Bool rows :=
  unify (.zipWith test.int) (.zipWith test.float32) (.zipWith test.float)

end Batch

/-- An operand over the columns of a table. -/
inductive BoundOperand where
  | int (values : IntColumn) (cursor : Cursor Node)
  | single (values : ScalarColumn Single) (cursor : Cursor (ScalarLeaf Single))
  | double (values : ScalarColumn Double) (cursor : Cursor (ScalarLeaf Double))
  | value (v : Number)
  | apply (op : Arithmetic) (left right : BoundOperand)

def Operand.bind (t : Table) : Operand → Except Error BoundOperand
  | column col => do
      match ← t.column col with
      | .int c => return .int c {}
      | .single c => return .single c {}
      | .double c => return .double c {}
      | _ => throw (t.mismatch col "numeric")
  | value v => return .value v
  | apply op left right => return .apply op (← left.bind t) (← right.bind t)

/-- The values of `count` rows from row `i` on. -/
def Cursor.getRows {L V : Type} [Leaf L V] (m : Memory) (t : Tree L) :
    Nat → Nat → Cursor L → List V × Cursor L
  | 0, _, c => ([], c)
  | count + 1, i, c =>
      let (v, c) := c.get m t i
      let (vs, c) := getRows m t count (i + 1) c
      (v :: vs, c)

/-- The values of `count` rows from row `start` on, which are at most as many as there are lanes. -/
def BoundOperand.eval (m : Memory) (start count : Nat) : BoundOperand → Batch × BoundOperand
  | int t c =>
      let (vs, c) := c.getRows m t count start
      (.ints (Batch.fill vs 0), int t c)
  | single t c =>
      let (vs, c) := c.getRows m t count start
      (.singles (Batch.fill (vs.map Single.float) 0.0), single t c)
  | double t c =>
      let (vs, c) := c.getRows m t count start
      (.doubles (Batch.fill (vs.map Double.float) 0.0), double t c)
  | value v => (.splat v, value v)
  | apply op left right =>
      let (a, left) := left.eval m start count
      let (b, right) := right.eval m start count
      (.apply op a b, apply op left right)

/-- The first row of a range where a comparison of two operands holds, batch by batch. Only lanes
with a row are looked at. -/
def findCompared (m : Memory) (test : Comparison) (stop : Nat) :
    Nat → Nat → BoundOperand × BoundOperand → Option Nat × BoundOperand × BoundOperand
  | 0, _, operands => (none, operands)
  | fuel + 1, start, (left, right) =>
      if start < stop then
        let count := min (stop - start) Batch.rows
        let (a, left) := left.eval m start count
        let (b, right) := right.eval m start count
        let holds := Batch.compare test a b
        match (List.range count).find? fun lane => holds[lane]?.getD false with
        | some i => (some (start + i), left, right)
        | none => findCompared m test stop fuel (start + count) (left, right)
      else (none, left, right)

end ColumnStore
