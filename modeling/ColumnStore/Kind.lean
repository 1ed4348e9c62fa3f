set_option autoImplicit false

/-!
The kinds of column a table can hold.
-/
namespace ColumnStore

inductive Kind where
  | int | bool | dateTime
  | float | double
  | string | stringEnum | binary
  | table
  | link | linkList
  deriving DecidableEq, Repr, Inhabited

namespace Kind

def all : List Kind :=
  [int, bool, dateTime, float, double, string, stringEnum, binary, table, link, linkList]

def name : Kind → String
  | int => "Int"
  | bool => "Bool"
  | dateTime => "DateTime"
  | float => "Float"
  | double => "Double"
  | string => "String"
  | stringEnum => "StringEnum"
  | binary => "Binary"
  | table => "Table"
  | link => "Link"
  | linkList => "LinkList"

def ofName? (name : String) : Option Kind := all.find? (·.name == name)

/-- The number that stands for a kind in stored schemas. -/
def code : Kind → Nat
  | int => 0
  | bool => 1
  | dateTime => 7
  | float => 9
  | double => 10
  | string => 2
  | stringEnum => 3
  | binary => 4
  | table => 5
  | link => 12
  | linkList => 13

def isInteger : Kind → Bool
  | int | bool | dateTime => true
  | _ => false

def isFloating : Kind → Bool
  | float | double => true
  | _ => false

def isString : Kind → Bool
  | string | stringEnum => true
  | _ => false

/-- A numeric column can stand in an arithmetic expression. -/
def isNumeric (k : Kind) : Bool := k.isInteger || k.isFloating

theorem code_injective (a b : Kind) (h : a.code = b.code) : a = b := by
  cases a <;> cases b <;> simp_all [code]

@[simp] theorem ofName?_name (k : Kind) : ofName? k.name = some k := by
  cases k <;> decide

end Kind

end ColumnStore
