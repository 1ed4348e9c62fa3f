import ColumnStore.Node.Edit
import ColumnStore.Proofs.Memory

set_option autoImplicit false

/-!
Memory after writes at an address and above. What lies below the address is never written.
-/
namespace ColumnStore

/-- Every write from the first memory to the second one is at `base` or above it. -/
inductive Memory.WritesFrom (base : Nat) (m : Memory) : Memory → Prop where
  | none : WritesFrom base m m
  | set {m' : Memory} {i : Nat} (b : UInt8) (before : WritesFrom base m m') (high : base ≤ i) :
      WritesFrom base m (m'.set i b)
  | write {m' : Memory} {start : Nat} (data : ByteArray) (before : WritesFrom base m m')
      (high : base ≤ start) : WritesFrom base m (m'.write start data)

namespace Memory.WritesFrom

variable {base : Nat} {m m' : Memory} {p : Nat}

theorem get (writes : WritesFrom base m m') {i : Nat} (below : i < base) : m'.get i = m.get i := by
  induction writes with
  | none => rfl
  | set b _ high ih =>
      rw [get_set_ne _ _ _ _ (Nat.ne_of_lt (Nat.lt_of_lt_of_le below high)), ih]
  | write data _ high ih =>
      rw [get_write, if_neg, ih]
      exact fun inside => Nat.not_lt_of_le inside.1 (Nat.lt_of_lt_of_le below high)

theorem move (before : WritesFrom base m m') (source n : Nat) (high : base ≤ p) :
    WritesFrom base m (m'.move source p n) :=
  before.write _ high

/-! ### Headers -/

theorem write24 (before : WritesFrom base m m') (v : Nat) (high : base ≤ p) :
    WritesFrom base m (m'.write24 p v) :=
  ((before.set _ high).set _ (Nat.le_add_right_of_le high)).set _ (Nat.le_add_right_of_le high)

theorem setHeaderSize (before : WritesFrom base m m') (size : Nat) (high : base ≤ p) :
    WritesFrom base m (m'.setHeaderSize p size) :=
  before.write24 size (Nat.le_add_right_of_le high)

theorem setHeaderCapacity (before : WritesFrom base m m') (capacity : Nat) (high : base ≤ p) :
    WritesFrom base m (m'.setHeaderCapacity p capacity) :=
  before.write24 capacity high

theorem setHeaderWidth (before : WritesFrom base m m') (width : Nat) (high : base ≤ p) :
    WritesFrom base m (m'.setHeaderWidth p width) :=
  before.set _ (Nat.le_add_right_of_le high)

theorem setHeaderContext (before : WritesFrom base m m') (value : Bool) (high : base ≤ p) :
    WritesFrom base m (m'.setHeaderContext p value) :=
  before.set _ (Nat.le_add_right_of_le high)

theorem setHeader (before : WritesFrom base m m') (h : Header) (high : base ≤ p) :
    WritesFrom base m (m'.setHeader p h) := by
  have front := (before.write24 h.capacity high).set 0 (Nat.le_add_right_of_le (k := 3) high)
  exact (front.set h.flags (Nat.le_add_right_of_le high)).write24 h.size
    (Nat.le_add_right_of_le high)

/-! ### Elements -/

theorem setWordOf (before : WritesFrom base m m') (v : UInt64) (n : Nat) (high : base ≤ p) :
    WritesFrom base m (m'.setWordOf p v n) := by
  induction n generalizing m' p v with
  | zero => exact before
  | succ n ih => exact ih (before.set _ high) _ (Nat.le_succ_of_le high)

theorem setElement (before : WritesFrom base m m') (w i : Nat) (v : Int64) (high : base ≤ p) :
    WritesFrom base m (m'.setElement p w i v) := by
  rw [Memory.setElement]
  split
  · exact before
  split
  · exact before.set _ (Nat.le_add_right_of_le high)
  · exact before.setWordOf _ _ (Nat.le_add_right_of_le high)

theorem widen (before : WritesFrom base m m') (w w' n : Nat) (high : base ≤ p) :
    WritesFrom base m (m'.widen p w w' n) := by
  induction n generalizing m' with
  | zero => exact before
  | succ n ih => exact ih (before.setElement _ _ _ high)

theorem shiftUp (before : WritesFrom base m m') (w w' i n : Nat) (high : base ≤ p) :
    WritesFrom base m (m'.shiftUp p w w' i n) := by
  induction n generalizing m' with
  | zero => exact before
  | succ n ih => exact ih (before.setElement _ _ _ high)

theorem shiftDown (before : WritesFrom base m m') (w source target n : Nat) (high : base ≤ p) :
    WritesFrom base m (m'.shiftDown p w source target n) := by
  induction n generalizing m' source target with
  | zero => exact before
  | succ n ih => exact ih (before.setElement _ _ _ high) _ _

theorem insertElement (before : WritesFrom base m m') (w w' size i : Nat) (v : Int64)
    (high : base ≤ p) : WritesFrom base m (Node.insertElement m' p w w' size i v) := by
  rw [Node.insertElement]
  split
  · have placed := (before.shiftUp w w' i (size - i) high).setElement w' i v high
    dsimp only
    split
    · exact placed.widen w w' i high
    · exact placed
  · dsimp only
    split
    · exact before.setElement w i v high
    · exact (before.move _ _ (Nat.le_add_right_of_le high)).setElement w i v high

theorem eraseElements (before : WritesFrom base m m') (w size start stop : Nat) (high : base ≤ p) :
    WritesFrom base m (Node.eraseElements m' p w size start stop) := by
  rw [Node.eraseElements]
  split
  · exact before.shiftDown _ _ _ _ high
  · exact before.move _ _ (Nat.le_add_right_of_le high)

end Memory.WritesFrom

end ColumnStore
