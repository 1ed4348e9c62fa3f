import ColumnStore.Text.Hex

set_option autoImplicit false

/-!
What can go wrong, as causes; `Error.message` holds the wording.
-/
namespace ColumnStore

inductive Error where
  | io
  | outOfMemory (requested : Nat)
  | capacityExceeded (requested max : Nat)
  | invalidRef (ref : Nat)
  | invalidDatabase (reason : String)
  | checksumMismatch (expected actual : UInt32)
  | storageCorrupted (reason : String)
  | indexOutOfBounds (index size : Nat)
  | columnTypeMismatch (column : Nat) (expected actual : String)
  | columnNotFound (column : Nat)
  | notIndexable (column : Nat)
  | queryValidation (reason : String)
  | unsupportedAction (action state : String)
  | workerFailed (reason : String)
  | configError (reason : String)
  | invalidParameter (name value : String)
  | internal (reason : String)
  deriving DecidableEq, Repr, Inhabited

/-- The name of the cause. -/
def Error.name : Error → String
  | .io => "Io"
  | .outOfMemory _ => "OutOfMemory"
  | .capacityExceeded _ _ => "CapacityExceeded"
  | .invalidRef _ => "InvalidRef"
  | .invalidDatabase _ => "InvalidDatabase"
  | .checksumMismatch _ _ => "ChecksumMismatch"
  | .storageCorrupted _ => "StorageCorrupted"
  | .indexOutOfBounds _ _ => "IndexOutOfBounds"
  | .columnTypeMismatch _ _ _ => "ColumnTypeMismatch"
  | .columnNotFound _ => "ColumnNotFound"
  | .notIndexable _ => "NotIndexable"
  | .queryValidation _ => "QueryValidation"
  | .unsupportedAction _ _ => "UnsupportedAction"
  | .workerFailed _ => "WorkerFailed"
  | .configError _ => "ConfigError"
  | .invalidParameter _ _ => "InvalidParameter"
  | .internal _ => "Internal"

/-- The wording of an error; an input or output failure leaves it to its cause. -/
def Error.message : Error → String
  | .io => ""
  | .outOfMemory requested => s!"Out of memory: requested {requested} bytes"
  | .capacityExceeded requested max => s!"Array capacity exceeded: {requested} bytes (max {max})"
  | .invalidRef ref => s!"Invalid ref: {ref}"
  | .invalidDatabase reason => "Invalid database: " ++ reason
  | .checksumMismatch expected actual =>
      "Checksum mismatch: expected 0x" ++ Text.hex32 expected ++ ", got 0x" ++ Text.hex32 actual
  | .storageCorrupted reason => "Storage corrupted: " ++ reason
  | .indexOutOfBounds index size => s!"Index out of bounds: {index} (size {size})"
  | .columnTypeMismatch column expected actual =>
      s!"Column type mismatch at column {column}: expected {expected}, got {actual}"
  | .columnNotFound column => s!"Column not found: {column}"
  | .notIndexable column => s!"Column {column} cannot carry a search index"
  | .queryValidation reason => "Query validation failed: " ++ reason
  | .unsupportedAction action state => s!"Unsupported action {action} for {state} state"
  | .workerFailed reason => "Worker failed: " ++ reason
  | .configError reason => "Configuration error: " ++ reason
  | .invalidParameter name value => s!"Invalid parameter: {name} = {value}"
  | .internal reason => "Internal error: " ++ reason

end ColumnStore
