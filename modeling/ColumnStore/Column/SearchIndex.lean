import ColumnStore.Ascending

set_option autoImplicit false

/-!
For every value of a column the rows that hold it, in ascending order. A value without rows has no
entry.
-/
namespace ColumnStore

structure SearchIndex where
  entries : List (String × List Nat) := []
  deriving DecidableEq, Repr, Inhabited

namespace SearchIndex

def rows (x : SearchIndex) (v : String) : List Nat := (x.entries.lookup v).getD []

def findFirst (x : SearchIndex) (v : String) : Option Nat := (x.rows v).head?

def count (x : SearchIndex) (v : String) : Nat := (x.rows v).length

/-- How many values have rows. -/
def distinct (x : SearchIndex) : Nat := x.entries.length

def addRow (row : Nat) (rows : List Nat) : List Nat :=
  rows.insertIdx (Ascending.count (· < row) rows) row

def removeRow (row : Nat) (rows : List Nat) : List Nat :=
  let i := Ascending.halve (· ≤ row) rows
  if rows[i]? = some row then rows.eraseIdx i else rows

/-- Row numbers have 64 bits: after the last one comes row 0, which stays where it was. -/
def shiftRows (start step : Nat) (rows : List Nat) : List Nat :=
  let n := Ascending.count (· < start) rows
  rows.take n ++ (rows.drop n).map fun r => (r + step) % UInt64.size

/-- The rows of a value change; there are none before its first entry. -/
def editEntry (f : List Nat → List Nat) (v : String) :
    List (String × List Nat) → List (String × List Nat)
  | [] => [(v, f [])]
  | (w, rows) :: rest => if w = v then (w, f rows) :: rest else (w, rows) :: editEntry f v rest

def removeEntry (row : Nat) (v : String) : List (String × List Nat) → List (String × List Nat)
  | [] => []
  | (w, rows) :: rest =>
      if w = v then
        match removeRow row rows with
        | [] => rest
        | r :: rs => (w, r :: rs) :: rest
      else (w, rows) :: removeEntry row v rest

def add (row : Nat) (v : String) (x : SearchIndex) : SearchIndex :=
  ⟨editEntry (addRow row) v x.entries⟩

def remove (row : Nat) (v : String) (x : SearchIndex) : SearchIndex :=
  ⟨removeEntry row v x.entries⟩

/-- Adds `step` to the rows from `start` on. -/
def shift (start step : Nat) (x : SearchIndex) : SearchIndex :=
  ⟨x.entries.map fun (v, rows) => (v, shiftRows start step rows)⟩

/-- The index of a column with these values. -/
def build (values : List String) : SearchIndex :=
  ⟨values.zipIdx.foldr (fun (v, row) => editEntry (row :: ·) v) []⟩

/-- A row with `v` goes in at `row`; unless it is the last one, later rows move up. -/
def insert (row : Nat) (v : String) (append : Bool) (x : SearchIndex) : SearchIndex :=
  (if append then x else x.shift row 1).add row v

/-- The row changes from `old` to `new`. -/
def set (row : Nat) (old new : String) (x : SearchIndex) : SearchIndex :=
  if old = new then x else (x.remove row old).add row new

/-- The row, which holds `v`, goes; unless it was the last one, later rows move down. -/
def erase (row : Nat) (v : String) (last : Bool) (x : SearchIndex) : SearchIndex :=
  let x := x.remove row v
  if last then x else x.shift ((row + 1) % UInt64.size) (UInt64.size - 1)

end SearchIndex

end ColumnStore
