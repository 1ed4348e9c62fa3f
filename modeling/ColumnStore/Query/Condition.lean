import ColumnStore.Query.Needle
import ColumnStore.Query.Operand

set_option autoImplicit false

/-!
Conditions on the rows of a table. A list of conditions is a chain, which holds where all of them
hold.
-/
namespace ColumnStore

inductive NumberType where
  | int
  | single
  | double
  deriving DecidableEq, Repr, Inhabited

inductive Condition where
  | int (column : Nat) (test : Comparison) (needle : Int64)
  | single (column : Nat) (test : Comparison) (needle : Single)
  | double (column : Nat) (test : Comparison) (needle : Double)
  /-- Text equal to the needle byte by byte; a needle that is no text equals nothing. -/
  | exactText (column : Nat) (needle : ByteArray)
  | text (column : Nat) (test : TextTest) (caseSensitive : Bool) (needle : ByteArray)
  | bytes (column : Nat) (test : TextTest) (needle : ByteArray)
  | columns (type : NumberType) (test : Comparison) (left right : Nat)
  /-- A link to the target, or a list with a link to it. -/
  | linksTo (column : Nat) (target : Option Nat)
  | compare (test : Comparison) (left right : Operand)
  | negation (chain : List Condition)
  /-- Holds where one of the branches holds. -/
  | disjunction (branches : List (List Condition))
  /-- Holds where some row of the subtable satisfies the chain. -/
  | subtable (column : Nat) (chain : List Condition)

namespace Condition

def bool (column : Nat) (b : Bool) : Condition := int column .equal (if b then 1 else 0)

/-- Text equal to the needle. -/
def equalText (column : Nat) (needle : ByteArray) (caseSensitive : Bool) : Condition :=
  if caseSensitive then exactText column needle else text column .equal false needle

mutual

/-- How deep chains are nested below a condition. -/
def depth : Condition → Nat
  | negation chain => chainDepth chain
  | disjunction branches => branchDepth branches
  | subtable _ chain => chainDepth chain
  | _ => 0

/-- How many levels of chains there are from a chain down. -/
def chainDepth : List Condition → Nat
  | [] => 1
  | c :: cs => max (depth c + 1) (chainDepth cs)

def branchDepth : List (List Condition) → Nat
  | [] => 0
  | chain :: rest => max (chainDepth chain) (branchDepth rest)

end

/-- A branch at one of the ends of a disjunction is empty. -/
def emptyEnd? (branches : List (List Condition)) : Option QueryFault :=
  if (branches.head?.getD []).isEmpty then some .emptyLeftOfOr
  else if (branches.getLast?.getD []).isEmpty then some .emptyRightOfOr
  else none

mutual

/-- The first fault of a condition. -/
def fault? : Condition → Option QueryFault
  | text _ _ _ needle => Needle.fault? needle
  | negation chain => if chain.isEmpty then some .nothingToNegate else chainFault? chain
  | disjunction branches => (emptyEnd? branches).or (branchFault? branches)
  | subtable _ chain => chainFault? chain
  | _ => none

def chainFault? : List Condition → Option QueryFault
  | [] => none
  | c :: cs => (fault? c).or (chainFault? cs)

def branchFault? : List (List Condition) → Option QueryFault
  | [] => none
  | chain :: rest => (chainFault? chain).or (branchFault? rest)

end

end Condition

end ColumnStore
