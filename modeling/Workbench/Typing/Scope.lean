import Workbench.Ty

/-!
# Scopes

The variables that are visible at some point, as frames from the innermost to the outermost. A
name can be declared once in a frame, and an inner frame hides the names of the outer ones.
-/

namespace Workbench.Typing

/-- The variables declared in one block. -/
abbrev Frame := List (String × Ty)

/-- The frames around a point of the program, innermost first. -/
abbrev Scope := List Frame

namespace Scope

def enter (s : Scope) : Scope := [] :: s

/-- Declares a variable in the innermost frame; `none` if it is declared there already. -/
def declare? (x : String) (t : Ty) : Scope → Option Scope
  | [] => some [[(x, t)]]
  | f :: fs => if (f.lookup x).isSome then none else some ((f ++ [(x, t)]) :: fs)

/-- The type of a visible variable. -/
def resolve? (x : String) (s : Scope) : Option Ty := s.findSome? (·.lookup x)

end Scope

end Workbench.Typing
