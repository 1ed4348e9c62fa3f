import ColumnStore.Node.Header

set_option autoImplicit false

/-!
Packed elements at an address: below eight bits several share a byte, the first in its low bits;
from eight bits up they are little-endian and signed.
-/
namespace ColumnStore.Memory

def subByteMask (w : Nat) : UInt8 := UInt8.ofNat (1 <<< w - 1)

/-- `n` bytes as a word, least significant first. -/
def wordOf (m : Memory) (p : Nat) : Nat → UInt64
  | 0 => 0
  | n + 1 => wordOf m (p + 1) n <<< 8 ||| (m.get p).toUInt64

def setWordOf (m : Memory) (p : Nat) (v : UInt64) : Nat → Memory
  | 0 => m
  | n + 1 => setWordOf (m.set p v.toUInt8) (p + 1) (v >>> 8) n

/-- The low `w` bits as a signed value. -/
def signExtend (w : Nat) (u : UInt64) : Int64 :=
  let k := Int64.ofNat (64 - w)
  (u.toInt64 <<< k) >>> k

/-- Element `i` at width `w` of the elements that start at `p`. -/
def element (m : Memory) (p w i : Nat) : Int64 :=
  if w = 0 then 0
  else if w < 8 then
    ((m.get (p + i * w / 8) >>> UInt8.ofNat (i * w % 8)) &&& subByteMask w).toUInt64.toInt64
  else signExtend w (m.wordOf (p + i * (w / 8)) (w / 8))

def setElement (m : Memory) (p w i : Nat) (v : Int64) : Memory :=
  if w = 0 then m
  else if w < 8 then
    let shift := UInt8.ofNat (i * w % 8)
    let old := m.get (p + i * w / 8)
    m.set (p + i * w / 8)
      (old &&& ~~~(subByteMask w <<< shift) ||| (v.toUInt64.toUInt8 &&& subByteMask w) <<< shift)
  else m.setWordOf (p + i * (w / 8)) v.toUInt64 (w / 8)

/-- Elements `0 .. n` read at width `w` and written at width `w'`, the last one first. -/
def widen (m : Memory) (p w w' : Nat) : Nat → Memory
  | 0 => m
  | n + 1 => widen (m.setElement p w' n (m.element p w n)) p w w' n

/-- Elements `i .. i + n` move up by one place, the last one first. -/
def shiftUp (m : Memory) (p w w' i : Nat) : Nat → Memory
  | 0 => m
  | n + 1 => shiftUp (m.setElement p w' (i + n + 1) (m.element p w (i + n))) p w w' i n

/-- `n` elements from `source` move down to `target`, the first one first. -/
def shiftDown (m : Memory) (p w source target : Nat) : Nat → Memory
  | 0 => m
  | n + 1 =>
      shiftDown (m.setElement p w target (m.element p w source)) p w (source + 1) (target + 1) n

end ColumnStore.Memory
