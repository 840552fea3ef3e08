import Workbench.Text.Numeral

/-!
# Types

The types of the language and how they are named. An array type keeps the name that it was
written with: `int[3]` and `int[03]` have the same size and are different types.
-/

namespace Workbench

inductive Ty where
  | int
  | str
  | void
  | bool
  | ptr
  | array (name : String) (length : Nat)
  deriving DecidableEq, Repr

namespace Ty

def name : Ty → String
  | int => "int"
  | str => "str"
  | void => "void"
  | bool => "bool"
  | ptr => "ptr"
  | array name _ => name

/-- The number of bytes that a value of the type takes. -/
def size : Ty → Nat
  | int => 2
  | str => 2
  | void => 0
  | bool => 1
  | ptr => 2
  | array _ n => 2 * n

def isArray : Ty → Bool
  | array _ _ => true
  | _ => false

/-- What stands between the brackets of a name `int[...]`. -/
def bracketed? (name : String) : Option String :=
  match name.toList with
  | 'i' :: 'n' :: 't' :: '[' :: cs =>
    if cs.getLast? == some ']' then some (String.ofList cs.dropLast) else none
  | _ => none

/-- The length of the array type named `int[N]`, for a positive integer `N`. -/
def arrayLength? (name : String) : Option Nat :=
  match (bracketed? name).bind Text.readInt? with
  | some n => if 0 < n then some n.toNat else none
  | none => none

/-- The type with the given name; a name that names no type stands for `int`. -/
def ofName (name : String) : Ty :=
  match arrayLength? name with
  | some n => array name n
  | none =>
    if name == "str" then str
    else if name == "void" then void
    else if name == "bool" then bool
    else if name == "ptr" then ptr
    else int

/-- The type that a name stands for where the name may be left out. -/
def ofName? (name : Option String) : Ty := (name.map ofName).getD int

def written? (name : Option String) : Option String := name.filter (!·.isEmpty)

end Ty

end Workbench
