import ColumnStore.Error
import ColumnStore.Text.Utf8

set_option autoImplicit false

/-!
What makes a query malformed.
-/
namespace ColumnStore

inductive QueryFault where
  | unbalancedGroup
  | unbalancedSubtable
  | nothingToNegate
  | emptyLeftOfOr
  | emptyRightOfOr
  /-- A needle for text that is not text. -/
  | malformedText (bytes : ByteArray)

namespace QueryFault

def message : QueryFault → String
  | unbalancedGroup => "Unbalanced group"
  | unbalancedSubtable => "Unbalanced subtable/end_subtable block"
  | nothingToNegate => "Missing argument to Not"
  | emptyLeftOfOr => "Missing left-hand side of OR"
  | emptyRightOfOr => "Missing final right-hand side of OR"
  | malformedText bytes => "Malformed UTF-8: " ++ Text.decodeLossy bytes

def error (f : QueryFault) : Error := .queryValidation f.message

end QueryFault

end ColumnStore
