import ColumnStore.Query.Fault
import ColumnStore.Text.CaseMap

set_option autoImplicit false

/-!
Tests of byte strings against a needle. Tests that ignore case go character by character: a
character of the needle matches its upper and its lower form, and a stored value that is no text is
read with replacement characters.
-/
namespace ColumnStore

inductive TextTest where
  | equal
  | notEqual
  | contains
  | beginsWith
  | endsWith
  deriving DecidableEq, Repr, Inhabited

structure Needle where
  bytes : ByteArray
  /-- Upper and lower form of every character; there are none if the bytes are no text. -/
  forms : List (Char × Char)

namespace Needle

def new (bytes : ByteArray) : Needle where
  bytes := bytes
  forms := ((Text.decode? bytes).getD []).map fun c => (Text.toUpper c, Text.toLower c)

def isText (bytes : ByteArray) : Bool := (Text.decode? bytes).isSome

def fault? (bytes : ByteArray) : Option QueryFault :=
  if isText bytes then none else some (.malformedText bytes)

/-- The needle as text. -/
def text? (n : Needle) : Option String := (Text.decode? n.bytes).map String.ofList

/-- What follows the forms in a list of characters that begins with them. -/
def afterForms : List (Char × Char) → List Char → Option (List Char)
  | [], cs => some cs
  | _ :: _, [] => none
  | (upper, lower) :: fs, c :: cs =>
      if upper = c ∨ lower = c then afterForms fs cs else none

def hasInfix {α : Type} [BEq α] (part : List α) : List α → Bool
  | [] => part.isEmpty
  | a :: as => part.isPrefixOf (a :: as) || hasInfix part as

def containsForms (forms : List (Char × Char)) : List Char → Bool
  | [] => forms.isEmpty
  | c :: cs => (afterForms forms (c :: cs)).isSome || containsForms forms cs

def testBytes (n : Needle) (value : ByteArray) : TextTest → Bool
  | .equal => value == n.bytes
  | .notEqual => value != n.bytes
  | .contains => hasInfix n.bytes.toList value.toList
  | .beginsWith => n.bytes.toList.isPrefixOf value.toList
  | .endsWith => n.bytes.toList.isSuffixOf value.toList

def testText (n : Needle) (value : List Char) : TextTest → Bool
  | .equal => afterForms n.forms value == some []
  | .notEqual => afterForms n.forms value != some []
  | .contains => containsForms n.forms value
  | .beginsWith => (afterForms n.forms value).isSome
  | .endsWith => (afterForms n.forms.reverse value.reverse).isSome

def test (n : Needle) (test : TextTest) (caseSensitive : Bool) (value : ByteArray) : Bool :=
  if caseSensitive then n.testBytes value test else n.testText (Text.decodeLossy value).toList test

end Needle

end ColumnStore
