import ColumnStore.Column.Int

set_option autoImplicit false

/-!
Links to rows of another table, one for each row or a list for each row.
-/
namespace ColumnStore

namespace Link

/-- The row number with all bits set stands for no row. -/
def nowhere : Nat := UInt64.size - 1

/-- A row number as a stored word. -/
def toWord (row : Nat) : Int64 := Int64.ofNat row

def ofWord (v : Int64) : Nat := v.toUInt64.toNat

end Link

/-- A column of optional links; a link is stored as its row plus one, and zero is no link. -/
structure LinkColumn where
  values : IntColumn
  deriving Inhabited

namespace LinkColumn

variable {α : Type}

def create (maxNodeSize : Nat) : StoreM LinkColumn := LinkColumn.mk <$> Tree.create maxNodeSize

def size (m : Memory) (c : LinkColumn) : Nat := c.values.size m

/-- The stored word of a link. -/
def encode (target : Option Nat) : Int64 := Link.toWord (target.getD Link.nowhere) + 1

def get (m : Memory) (c : LinkColumn) (row : Nat) : Option Nat :=
  let v := c.values.get m row
  if v = 0 then none else some (v.toUInt64.toNat - 1)

def editValues (e : Edit IntColumn α) : Edit LinkColumn α :=
  Edit.focus LinkColumn.values (fun values _ => ⟨values⟩) e

def set (row : Nat) (target : Option Nat) : Edit LinkColumn Unit :=
  editValues (Tree.set row (encode target))

/-- Inserts a row without a link. -/
def insert (row : Option Nat) : Edit LinkColumn Unit := editValues (Tree.insert row 0)

/-- Erases a row, the last one if there is no index. -/
def erase (row : Option Nat) : Edit LinkColumn Unit := editValues (Tree.erase row)

def clear : Edit LinkColumn Unit := editValues Tree.clear

end LinkColumn

/-- A column of lists of links; each list that is not empty is a node of its own. -/
structure LinkListColumn where
  lists : Tree RefLeaf
  deriving Inhabited

namespace LinkListColumn

variable {α : Type}

def create (maxNodeSize : Nat) : StoreM LinkListColumn :=
  LinkListColumn.mk <$> Tree.create maxNodeSize

def size (m : Memory) (c : LinkListColumn) : Nat := c.lists.size m

/-- The node with the links of a row. -/
def list? (m : Memory) (c : LinkListColumn) (row : Nat) : Option Node :=
  let v := c.lists.get m row
  if v = 0 then none else some (.load m (Slot.toRef v))

def get (m : Memory) (c : LinkListColumn) (row : Nat) : List Nat :=
  match c.list? m row with
  | none => []
  | some list => (list.toList m).map Link.ofWord

def count (m : Memory) (c : LinkListColumn) (row : Nat) : Nat :=
  match c.list? m row with
  | none => 0
  | some list => list.size

def contains (m : Memory) (c : LinkListColumn) (row target : Nat) : Bool :=
  match c.list? m row with
  | none => false
  | some list => (list.findFirst m .equal (Link.toWord target) 0 none).isSome

def editLists (e : Edit (Tree RefLeaf) α) : Edit LinkListColumn α :=
  Edit.focus LinkListColumn.lists (fun lists _ => ⟨lists⟩) e

def setList (row : Nat) (r : Ref) : Edit LinkListColumn Unit :=
  editLists (Tree.set row (Slot.ofRef r))

/-- Edits the list of a row and stores its ref again if it moved. -/
def editList (row : Nat) (list : Node) (e : Edit Node Unit) : Edit LinkListColumn Unit := do
  let (_, edited) ← Edit.on list e
  if edited.ref ≠ list.ref then setList row edited.ref

/-- Appends a link to the list of a row. -/
def addLink (row target : Nat) : Edit LinkListColumn Unit := do
  let c ← Edit.self
  match ← StoreM.read (c.list? · row) with
  | some list => editList row list (Node.add (Link.toWord target))
  | none =>
      let list ← Node.ofValues .plain [Link.toWord target]
      setList row list.ref

/-- Frees the list of a row. -/
def dropList (row : Nat) (list : Node) : Edit LinkListColumn Unit := do
  list.destroy
  setList row 0

/-- Removes entry `i` from the list of a row; the last entry takes the list with it. -/
def removeLink (row i : Nat) : Edit LinkListColumn Unit := do
  let c ← Edit.self
  if let some list ← StoreM.read (c.list? · row) then
    if list.size = 1 then dropList row list else editList row list (Node.erase i)

/-- Inserts a row with an empty list. -/
def insert (row : Option Nat) : Edit LinkListColumn Unit := editLists (Tree.insert row 0)

def erase (row : Nat) : Edit LinkListColumn Unit := do
  let c ← Edit.self
  if let some list ← StoreM.read (c.list? · row) then dropList row list
  editLists (Tree.erase (some row))

def clear : Edit LinkListColumn Unit := editLists Tree.clear

end LinkListColumn

end ColumnStore
