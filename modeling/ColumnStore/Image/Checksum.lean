set_option autoImplicit false

/-!
The standard 32-bit cyclic redundancy check, bit by bit, least significant bit first.
-/
namespace ColumnStore.Image

def polynomial : UInt32 := 0xEDB88320

def shiftBit (r : UInt32) : UInt32 :=
  if r &&& 1 = 0 then r >>> 1 else (r >>> 1) ^^^ polynomial

def shiftBits : Nat → UInt32 → UInt32
  | 0, r => r
  | n + 1, r => shiftBits n (shiftBit r)

def feed (r : UInt32) (b : UInt8) : UInt32 := shiftBits 8 (r ^^^ b.toUInt32)

def checksum (data : ByteArray) : UInt32 :=
  data.foldl feed 0xFFFFFFFF ^^^ 0xFFFFFFFF

end ColumnStore.Image
