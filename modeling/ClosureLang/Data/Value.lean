import ClosureLang.Data.Double

/-! Values that a structured text describes, whatever its format, and the dates among them. -/
namespace ClosureLang.Data

inductive Value where
  | null
  | bool (b : Bool)
  | int (n : Int)
  | real (x : Double)
  | text (s : String)
  /-- A date, a time, or both, as it is written. -/
  | moment (s : String)
  | list (items : List Value)
  | table (fields : List (String × Value))

/-- Fields by their names, in the order of their first appearance. -/
abbrev Table := List (String × Value)

namespace Table

/-- Gives a field a value; a field that is there keeps its place. -/
def set (t : Table) (name : String) (v : Value) : Table :=
  match t with
  | [] => [(name, v)]
  | (n, w) :: rest => if n = name then (name, v) :: rest else (n, w) :: set rest name v

def get? (t : Table) (name : String) : Option Value := t.lookup name

/-- The table below a field; fields with other values hold none. -/
def below (t : Table) (name : String) : Table :=
  match t.get? name with
  | some (.table fields) => fields
  | _ => []

/-- Gives the field at the end of a path a value. Tables on the way are made if they are missing,
and in place of other values. -/
def setPath (t : Table) : List String → Value → Table
  | [], _ => t
  | [name], v => t.set name v
  | name :: path, v => t.set name (.table (setPath (t.below name) path v))

end Table

end ClosureLang.Data

namespace ClosureLang.Data.Calendar

def isLeapYear (year : Nat) : Bool := year % 4 = 0 && (year % 100 ≠ 0 || year % 400 = 0)

def daysIn (year month : Nat) : Nat :=
  if month = 2 then (if isLeapYear year then 29 else 28)
  else if [4, 6, 9, 11].contains month then 30
  else 31

def isDate (year month day : Nat) : Bool :=
  1 ≤ month && month ≤ 12 && 1 ≤ day && day ≤ daysIn year month

end ClosureLang.Data.Calendar
