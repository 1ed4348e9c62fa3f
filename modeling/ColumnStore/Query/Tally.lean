import ColumnStore.Error
import ColumnStore.Node.Search

set_option autoImplicit false

/-!
What a query makes of its matches: a tally takes them one at a time and says whether it wants more.
-/
namespace ColumnStore

inductive Action where
  | returnFirst
  | sum
  | max
  | min
  | count
  | findAll
  | callback
  deriving DecidableEq, Repr, Inhabited

namespace Action

def all : List Action := [returnFirst, sum, max, min, count, findAll, callback]

def name : Action → String
  | returnFirst => "ReturnFirst"
  | sum => "Sum"
  | max => "Max"
  | min => "Min"
  | count => "Count"
  | findAll => "FindAll"
  | callback => "CallbackIdx"

def ofName? (name : String) : Option Action := all.find? (·.name == name)

/-- The action reads a source column. -/
def usesValue : Action → Bool
  | sum | max | min => true
  | _ => false

end Action

/-- Values that a tally adds up and compares. -/
class Tallied (R : Type) where
  name : String
  zero : R
  /-- Below it nothing wins a maximum. -/
  lowest : R
  /-- Above it nothing wins a minimum. -/
  highest : R
  /-- Actions on rows are supported, and not only those on values. -/
  rowActions : Bool
  add : R → R → R
  less : R → R → Bool
  ofCount : Nat → R
  toFloat : R → Float

instance : Tallied Int64 where
  name := "i64"
  zero := 0
  lowest := Int64.minValue
  highest := Int64.maxValue
  rowActions := true
  add := (· + ·)
  less a b := a < b
  ofCount := Int64.ofNat
  toFloat := Int64.toFloat

def infinity : Float := .ofBits 0x7FF0000000000000

instance : Tallied Float where
  name := "f64"
  zero := 0.0
  lowest := -infinity
  highest := infinity
  rowActions := false
  add := (· + ·)
  less a b := a < b
  ofCount := Float.ofNat
  toFloat := id

structure Tally (R : Type) where
  action : Action
  value : R
  matched : Nat := 0
  /-- No more matches are wanted when this many were taken. -/
  limit : Option Nat
  /-- The row of the extreme so far, or the first match. -/
  row : Option Nat := none
  /-- The rows found, the newest first. -/
  found : List Nat := []
  /-- The rows passed to the callback, the newest first. -/
  passed : List Nat := []
  /-- Told all rows passed so far, the callback says whether it wants another. -/
  callback : List Nat → Bool := fun _ => true

namespace Tally

variable {R : Type} [Tallied R]

def start (action : Action) : R :=
  match action with
  | .max => Tallied.lowest
  | .min => Tallied.highest
  | _ => Tallied.zero

def new (action : Action) (limit : Option Nat) : Except Error (Tally R) :=
  if !action.usesValue && !Tallied.rowActions R then
    throw (.unsupportedAction action.name (Tallied.name R))
  else if action = .callback then
    throw (.invalidParameter "action" "CallbackIdx requires QueryState::with_callback")
  else pure { action, value := start action, limit }

def withCallback (limit : Option Nat) (callback : List Nat → Bool) : Tally Int64 :=
  { action := .callback, value := 0, limit, callback }

def rows (t : Tally R) : List Nat := t.found.reverse

/-- Whether `n` matches are fewer than the limit. -/
def below (t : Tally R) (n : Nat) : Bool :=
  match t.limit with
  | none => true
  | some limit => n < limit

/-- A match of `v` at row `i`. -/
def take (t : Tally R) (i : Nat) (v : R) : Tally R × Bool :=
  let t := { t with matched := t.matched + 1 }
  match t.action with
  | .returnFirst => ({ t with row := some i }, false)
  | .sum => ({ t with value := Tallied.add t.value v }, t.below t.matched)
  | .max =>
      (if Tallied.less t.value v then { t with value := v, row := some i } else t,
        t.below t.matched)
  | .min =>
      (if Tallied.less v t.value then { t with value := v, row := some i } else t,
        t.below t.matched)
  | .count => ({ t with value := Tallied.ofCount t.matched }, t.below t.matched)
  | .findAll => ({ t with found := i :: t.found }, t.below t.matched)
  | .callback =>
      let t := { t with passed := i :: t.passed }
      (t, t.callback t.passed && t.below t.matched)

/-- Takes a batch of at most 64 matches when it only counts and cannot reach the limit. -/
def takeBatch (t : Tally R) (mask : UInt64) : Option (Tally R) :=
  if t.action = .count ∧ t.below (t.matched + 64) then
    let matched := t.matched + Receiver.popCount mask
    some { t with matched, value := Tallied.ofCount matched }
  else none

/-- Takes a whole range of matches under the same condition. -/
def takeRange (t : Tally R) (start stop : Nat) : Option (Tally R × Bool) :=
  if t.action = .count ∧ t.below (t.matched + (stop - start)) then
    let matched := t.matched + (stop - start)
    some ({ t with matched, value := Tallied.ofCount matched }, true)
  else none

def receiver : Receiver (Tally Int64) where
  onMatch t i v := t.take i v
  onBatch t _ mask := t.takeBatch mask
  onRange t start stop := t.takeRange start stop

end Tally

end ColumnStore
