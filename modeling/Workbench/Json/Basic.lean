import Workbench.Decimal

/-!
# JSON values

The values that a JSON text denotes. Numbers written with a point or an exponent are kept apart from whole
numbers. The fields of an object keep the order in which their names came first.
-/

namespace Workbench

inductive Json where
  | null
  | bool (b : Bool)
  | int (n : Int)
  | decimal (d : Decimal)
  /-- A number that is not finite, by its name. -/
  | special (name : String)
  | text (s : String)
  | list (items : List Json)
  | object (fields : List (String × Json))

namespace Json

instance : Inhabited Json := ⟨.null⟩

def setField (name : String) (v : Json) : List (String × Json) → List (String × Json)
  | [] => [(name, v)]
  | (n, w) :: rest => if n = name then (n, v) :: rest else (n, w) :: setField name v rest

def field? (fields : List (String × Json)) (name : String) : Option Json := fields.lookup name

/-- Whether a value counts as something: not null, false, zero or empty. -/
def isSomething : Json → Bool
  | null => false
  | bool b => b
  | int n => n != 0
  | decimal d => !d.isZero
  | special _ => true
  | text s => !s.isEmpty
  | list xs => !xs.isEmpty
  | object fs => !fs.isEmpty

def fields : Json → List (String × Json)
  | object fs => fs
  | _ => []

def items : Json → List Json
  | list xs => xs
  | _ => []

def get (j : Json) (name : String) : Json := (field? j.fields name).getD null

/-- The item at this place; null if there is none. -/
def item (j : Json) (k : Nat) : Json := j.items[k]?.getD null

def text? : Json → Option String
  | text s => some s
  | _ => none

def bool? : Json → Option Bool
  | bool b => some b
  | _ => none

def number? : Json → Option Decimal
  | int n => some (.ofInt n)
  | decimal d => some d
  | _ => none

/-- The whole number that a value is or spells. -/
def int? : Json → Option Int
  | int n => some n
  | decimal d => some d.truncate
  | text s => s.toInt?
  | _ => none

/-- Null stands for nothing. -/
def isNull : Json → Bool
  | null => true
  | _ => false

end Json

end Workbench
