import Workbench.Program
import Workbench.Ty

/-!
# Slots

The `FunctionLayout`: where the variables of a function live in its frame. Parameters come first, then
the variables in the order in which the body declares them; an array takes one cell for each element. A
name has one slot: later declarations of it, also in other blocks, share the first one. Declarations
inside a bare block get no slot.
-/

namespace Workbench.Bytecode

/-- The slots of a function: the first cell of each variable, the lengths of the arrays among them,
and the number of cells. -/
structure Slots where
  cells : List (String × Nat) := []
  arrays : List (String × Nat) := []
  size : Nat := 0
  deriving DecidableEq, Repr

namespace Slots

def cell? (s : Slots) (x : String) : Option Nat := s.cells.lookup x

def length? (s : Slots) (x : String) : Option Nat := s.arrays.lookup x

def arrayCell? (s : Slots) (x : String) : Option Nat :=
  if (s.length? x).isSome then s.cell? x else none

def addScalar (s : Slots) (x : String) : Slots :=
  if (s.cell? x).isSome then s
  else { s with cells := s.cells ++ [(x, s.size)], size := s.size + 1 }

/-- Gives an array its cells, unless it has a slot. -/
def addArray (s : Slots) (x : String) (n : Nat) : Slots :=
  if (s.cell? x).isSome then s
  else { cells := s.cells ++ [(x, s.size)], arrays := s.arrays ++ [(x, n)], size := s.size + n }

/-- Gives a declared variable its cells. -/
def addDeclared (s : Slots) (x : String) (typeName : Option String) : Slots :=
  match typeName.bind Ty.arrayLength? with
  | some n => s.addArray x n
  | none => s.addScalar x

mutual

def addStmt {α : Type} (s : Slots) : Stmt α → Slots
  | .decl x t _ => s.addDeclared x t
  | .cond _ thenBody none => s.addStmts thenBody
  | .cond _ thenBody (some elseBody) => (s.addStmts thenBody).addStmts elseBody
  | .loop _ body => s.addStmts body
  | _ => s
termination_by structural st => st

def addStmts {α : Type} (s : Slots) : List (Stmt α) → Slots
  | [] => s
  | st :: sts => (s.addStmt st).addStmts sts
termination_by structural sts => sts

end

def ofFunction {α : Type} (f : Function α) : Slots :=
  (f.params.foldl (fun (s : Slots) p => s.addScalar p.name) {}).addStmts f.body

end Slots

end Workbench.Bytecode
