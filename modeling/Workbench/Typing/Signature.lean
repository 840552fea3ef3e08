import Workbench.Program
import Workbench.Ty

/-!
# Signatures

The `FunctionSig`: what the analysis knows of a function: the types of its parameters and of its result.
The table of signatures keeps the order in which functions were entered, the built-in ones first.
-/

namespace Workbench.Typing

/-- The parameter types and the result type of a function. -/
structure Signature where
  params : List Ty
  result : Ty
  deriving DecidableEq, Repr

/-- Signatures by function name, in the order of entry. -/
abbrev Signatures := List (String × Signature)

/-- The built-in functions: the names of their parameter types and of their result type. -/
def builtins : List (String × List String × String) :=
  [("load16", ["ptr"], "int"),
   ("store16", ["ptr", "int"], "void"),
   ("memcpy", ["ptr", "ptr", "int"], "void"),
   ("memset", ["ptr", "int", "int"], "void"),
   ("array_push", ["int", "int", "int"], "int"),
   ("array_pop", ["int", "int"], "int"),
   ("ct_eq", ["int", "int"], "bool"),
   ("ct_select", ["int", "int", "int"], "int")]

namespace Signatures

/-- Enters a built-in function unless its name is taken. -/
def addBuiltin (table : Signatures) (b : String × List String × String) : Signatures :=
  if (table.lookup b.1).isSome then table
  else table ++ [(b.1, ⟨b.2.1.map Ty.ofName, Ty.ofName b.2.2⟩)]

def withBuiltins (table : Signatures) : Signatures := builtins.foldl addBuiltin table

/-- The signature that a function declares. A function without a result type has none. -/
def ofFunction {α : Type} (f : Function α) : Signature :=
  { params := f.params.map fun p => Ty.ofName p.typeName
    result := ((Ty.written? f.returnType).map Ty.ofName).getD .void }

end Signatures

end Workbench.Typing
