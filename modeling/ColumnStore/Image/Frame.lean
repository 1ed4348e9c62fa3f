import ColumnStore.Error
import ColumnStore.Image.Checksum
import ColumnStore.Slot
import ColumnStore.Store.Memory

set_option autoImplicit false

/-!
A complete image: a header, the nodes, and a footer that repeats the root and checks the nodes.
Nodes start at offset 24, and refs count from the start of the image.
-/
namespace ColumnStore.Image

def frameSize : Nat := 24

def mnemonic : List UInt8 := [84, 45, 68, 66]

def version : UInt8 × UInt8 := (2, 0)

def cookie : UInt64 := 0x3034125237E526C8

/-- What an image can get wrong apart from its checksum. -/
inductive Fault where
  | badSize (size : Nat)
  | shortHeader (size : Nat)
  | badMnemonic (found : List UInt8)
  | badVersion (major minor : UInt8)
  | shortFooter
  | badCookie (found : UInt64)
  | rootsDisagree (header footer : Ref)
  | rootOutOfRange (root : Ref)
  deriving DecidableEq, Repr

def Fault.message : Fault → String
  | .badSize size => s!"bad file size {size}"
  | .shortHeader size => s!"file too small for header: {size} bytes"
  | .badMnemonic found => "bad mnemonic [" ++ ", ".intercalate (found.map toString) ++ "]"
  | .badVersion major minor => s!"unsupported format version {major}.{minor}"
  | .shortFooter => "truncated footer"
  | .badCookie found => "bad footer cookie 0x" ++ Text.hex found.toNat
  | .rootsDisagree header footer => s!"header top ref {header} disagrees with footer {footer}"
  | .rootOutOfRange root => s!"top ref {root} out of range"

def Fault.error (f : Fault) : Error := .invalidDatabase f.message

def littleEndian : Nat → UInt64 → List UInt8
  | 0, _ => []
  | n + 1, w => w.toUInt8 :: littleEndian n (w >>> 8)

def word (buf : ByteArray) (start : Nat) : UInt64 := (Memory.mk buf).word start

def byte (buf : ByteArray) (i : Nat) : UInt8 := (Memory.mk buf).get i

/-- Two slots for the root, of which the low bit of `select` names the current one. -/
structure Header where
  root₀ : UInt64
  root₁ : UInt64
  reserved : UInt8
  select : UInt8
  deriving DecidableEq, Repr

def Header.ofRoot (root : Ref) : Header := ⟨UInt64.ofNat root, 0, 0, 0⟩

def Header.root (h : Header) : Ref :=
  if h.select &&& 1 = 0 then h.root₀.toNat else h.root₁.toNat

def Header.encode (h : Header) : ByteArray :=
  ⟨(littleEndian 8 h.root₀ ++ littleEndian 8 h.root₁ ++ mnemonic ++
    [version.1, version.2, h.reserved, h.select]).toArray⟩

def Header.decode (buf : ByteArray) : Except Fault Header :=
  let found := [byte buf 16, byte buf 17, byte buf 18, byte buf 19]
  if buf.size < frameSize then throw (.shortHeader buf.size)
  else if found ≠ mnemonic then throw (.badMnemonic found)
  else if (byte buf 20, byte buf 21) ≠ version then throw (.badVersion (byte buf 20) (byte buf 21))
  else pure ⟨word buf 0, word buf 8, byte buf 22, byte buf 23⟩

structure Footer where
  root : UInt64
  checksum : UInt32
  deriving DecidableEq, Repr

def Footer.ofNodes (root : Ref) (nodes : ByteArray) : Footer :=
  ⟨UInt64.ofNat root, Image.checksum nodes⟩

def Footer.encode (f : Footer) : ByteArray :=
  ⟨(littleEndian 8 f.root ++ littleEndian 4 f.checksum.toUInt64 ++ [0, 0, 0, 0] ++
    littleEndian 8 cookie).toArray⟩

def Footer.decode (buf : ByteArray) : Except Fault Footer :=
  if buf.size < frameSize then throw .shortFooter
  else if word buf 16 ≠ cookie then throw (.badCookie (word buf 16))
  else pure ⟨word buf 0, (word buf 8).toUInt32⟩

def frame (nodes : ByteArray) (root : Ref) : ByteArray :=
  (Header.ofRoot root).encode ++ nodes ++ (Footer.ofNodes root nodes).encode

/-- The nodes of an image, between header and footer. -/
def nodes (image : ByteArray) : ByteArray := image.extract frameSize (image.size - frameSize)

/-- A root is a node position, or 0 for none. -/
def rootInRange (root size : Nat) : Bool :=
  root = 0 || (frameSize ≤ root && root < size - frameSize && root % 8 = 0)

/-- The root of an image whose parts agree. -/
def validate (image : ByteArray) : Except Error Ref := do
  if image.size < 2 * frameSize ∨ image.size % 8 ≠ 0 then
    throw (Fault.badSize image.size).error
  let header ← (Header.decode image).mapError Fault.error
  let footer ← (Footer.decode (image.extract (image.size - frameSize) image.size)).mapError Fault.error
  let actual := checksum (nodes image)
  if actual ≠ footer.checksum then throw (.checksumMismatch footer.checksum actual)
  let root := footer.root.toNat
  if header.root ≠ root then throw (Fault.rootsDisagree header.root root).error
  if !rootInRange root image.size then throw (Fault.rootOutOfRange root).error
  return root

end ColumnStore.Image
