import ColumnStore.Node.Width
import ColumnStore.Store.Memory

set_option autoImplicit false

/-!
The eight bytes in front of a node's elements: capacity in three bytes, one zero byte, flags with
the width, size in three bytes.
-/
namespace ColumnStore

structure Header where
  /-- An inner node of a tree. -/
  inner : Bool
  /-- Elements may be refs of children. -/
  hasRefs : Bool
  /-- Free for the owner's use. -/
  context : Bool
  layout : Layout
  width : Nat
  size : Nat
  /-- Bytes of the whole block. -/
  capacity : Nat
  deriving DecidableEq, Repr, Inhabited

namespace Header

def length : Nat := 8

def initialCapacity : Nat := 128

/-- The largest multiple of eight that fits the capacity field. -/
def maxCapacity : Nat := 0xFFFFF8

/-- Bytes of header and elements, a multiple of eight. -/
def bytesFor (size width : Nat) (layout : Layout) : Nat :=
  (length + layout.dataSize size width + 7) / 8 * 8

def byteSize (h : Header) : Nat := bytesFor h.size h.width h.layout

def bit (b : Bool) (n : Nat) : Nat := if b then n else 0

def flags (h : Header) : UInt8 :=
  UInt8.ofNat (bit h.inner 128 + bit h.hasRefs 64 + bit h.context 32 +
    8 * h.layout.code + Width.code h.width)

def ofFlags (f : UInt8) (size capacity : Nat) : Header where
  inner := f &&& 0x80 ≠ 0
  hasRefs := f &&& 0x40 ≠ 0
  context := f &&& 0x20 ≠ 0
  layout := .ofCode ((f >>> 3) &&& 3).toNat
  width := Width.ofCode (f &&& 7).toNat
  size := size
  capacity := capacity

end Header

namespace Memory

/-- Three bytes, the most significant first. -/
def read24 (m : Memory) (p : Nat) : Nat :=
  (m.get p).toNat * 65536 + (m.get (p + 1)).toNat * 256 + (m.get (p + 2)).toNat

def write24 (m : Memory) (p v : Nat) : Memory :=
  ((m.set p (UInt8.ofNat (v / 65536))).set (p + 1) (UInt8.ofNat (v / 256))).set (p + 2)
    (UInt8.ofNat v)

def header (m : Memory) (p : Nat) : Header :=
  .ofFlags (m.get (p + 4)) (m.read24 (p + 5)) (m.read24 p)

def setHeader (m : Memory) (p : Nat) (h : Header) : Memory :=
  (((m.write24 p h.capacity).set (p + 3) 0).set (p + 4) h.flags).write24 (p + 5) h.size

def setHeaderSize (m : Memory) (p size : Nat) : Memory := m.write24 (p + 5) size

def setHeaderCapacity (m : Memory) (p capacity : Nat) : Memory := m.write24 p capacity

def setHeaderWidth (m : Memory) (p width : Nat) : Memory :=
  let f := m.get (p + 4)
  m.set (p + 4) (f &&& 0xF8 ||| UInt8.ofNat (Width.code width))

def setHeaderContext (m : Memory) (p : Nat) (value : Bool) : Memory :=
  let f := m.get (p + 4)
  m.set (p + 4) (if value then f ||| 0x20 else f &&& 0xDF)

end Memory

def Header.encode (h : Header) : ByteArray := (Memory.empty.setHeader 0 h).read 0 Header.length

def Header.decode (buf : ByteArray) : Header := (Memory.mk buf).header 0

end ColumnStore
