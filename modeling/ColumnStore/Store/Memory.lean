set_option autoImplicit false

/-!
The bytes behind all refs. A byte that was never written is zero, so an address is always legal.
-/
namespace ColumnStore

structure Memory where
  bytes : ByteArray

namespace Memory

def empty : Memory := ⟨.empty⟩

def get (m : Memory) (i : Nat) : UInt8 := if h : i < m.bytes.size then m.bytes[i] else 0

def pushZeros (bytes : ByteArray) : Nat → ByteArray
  | 0 => bytes
  | n + 1 => pushZeros (bytes.push 0) n

/-- Zeros are added until addresses below `n` are backed by bytes. -/
def reserve (m : Memory) (n : Nat) : Memory := ⟨pushZeros m.bytes (n - m.bytes.size)⟩

def set (m : Memory) (i : Nat) (b : UInt8) : Memory :=
  let m := m.reserve (i + 1)
  if h : i < m.bytes.size then ⟨m.bytes.set i b h⟩ else m

/-- A copy of `n` bytes. -/
def read (m : Memory) (start n : Nat) : ByteArray :=
  pushZeros (m.bytes.extract start (start + n)) (n - (m.bytes.size - start))

def write (m : Memory) (start : Nat) (data : ByteArray) : Memory :=
  let m := m.reserve (start + data.size)
  ⟨data.copySlice 0 m.bytes start data.size⟩

/-- Moves `n` bytes; all are read before any is written, so the ranges may overlap. -/
def move (m : Memory) (source target n : Nat) : Memory := m.write target (m.read source n)

/-- Eight bytes as a word, least significant first. -/
def word (m : Memory) (start : Nat) : UInt64 :=
  (List.range 8).foldr (fun i w => w <<< 8 ||| (m.get (start + i)).toUInt64) 0

@[simp] theorem size_pushZeros (bytes : ByteArray) (n : Nat) :
    (pushZeros bytes n).size = bytes.size + n := by
  induction n generalizing bytes with
  | zero => rfl
  | succ n ih => simp [pushZeros, ih, ByteArray.size_push]; omega

@[simp] theorem size_reserve (m : Memory) (n : Nat) :
    (m.reserve n).bytes.size = max m.bytes.size n := by
  simp [reserve]; omega

theorem get_push (bytes : ByteArray) (i : Nat) : get ⟨bytes.push 0⟩ i = get ⟨bytes⟩ i := by
  simp only [get, ByteArray.size_push]
  by_cases h : i < bytes.size
  · have h' : i < bytes.size + 1 := by omega
    simp only [h, h', dite_true]
    exact Array.getElem_push_lt h
  · by_cases e : i < bytes.size + 1
    · have : i = bytes.size := by omega
      subst this
      simp only [Nat.lt_irrefl, e, dite_true, dite_false]
      exact Array.getElem_push_eq
    · simp [h, e]

theorem get_pushZeros (bytes : ByteArray) (n i : Nat) :
    get ⟨pushZeros bytes n⟩ i = get ⟨bytes⟩ i := by
  induction n generalizing bytes with
  | zero => rfl
  | succ n ih => rw [pushZeros, ih, get_push]

@[simp] theorem get_reserve (m : Memory) (n i : Nat) : (m.reserve n).get i = m.get i :=
  get_pushZeros _ _ _

@[simp] theorem get_set_eq (m : Memory) (i : Nat) (b : UInt8) : (m.set i b).get i = b := by
  have h : i < (m.reserve (i + 1)).bytes.size := by rw [size_reserve]; omega
  have h' : i < ((m.reserve (i + 1)).bytes.set i b h).size := by
    show i < (Array.set _ _ _ _).size
    rwa [Array.size_set]
  simp only [set, h, dite_true, get]
  rw [dif_pos h']
  exact Array.getElem_set_self _

theorem get_set_ne (m : Memory) (i j : Nat) (b : UInt8) (ne : j ≠ i) :
    (m.set i b).get j = m.get j := by
  have h : i < (m.reserve (i + 1)).bytes.size := by rw [size_reserve]; omega
  rw [← get_reserve m (i + 1) j]
  simp only [set, h, dite_true, get]
  have size : ((m.reserve (i + 1)).bytes.set i b h).size = (m.reserve (i + 1)).bytes.size :=
    Array.size_set ..
  by_cases hj : j < (m.reserve (i + 1)).bytes.size
  · rw [dif_pos (by rw [size]; exact hj), dif_pos hj]
    exact Array.getElem_set_ne _ _ (Ne.symm ne)
  · rw [dif_neg (by rw [size]; exact hj), dif_neg hj]

end Memory

end ColumnStore
