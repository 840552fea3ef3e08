import Workbench.Program
import Workbench.Ty

/-!
# Stack frames

The `LayoutBuilder`: where the variables of a function live below the frame base. Each declared name
gets a range of bytes of its own, in the order of the first declarations; blocks of every kind are
searched. Parameters have no place in the frame.
-/

namespace Workbench.Assembly

/-- The offsets of variables below the frame base, and the size of the frame in bytes. -/
structure Frame where
  offsets : List (String × Nat) := []
  size : Nat := 0
  deriving DecidableEq, Repr

/-- The bytes that a declared variable takes: those of its type, but two for one byte and two if no
type is written. -/
def declaredBytes (typeName : Option String) : Nat :=
  match Ty.written? typeName with
  | none => 2
  | some t => if (Ty.ofName t).size = 1 then 2 else (Ty.ofName t).size

namespace Frame

def offset? (f : Frame) (x : String) : Option Nat := f.offsets.lookup x

def add (f : Frame) (x : String) (bytes : Nat) : Frame :=
  if (f.offset? x).isSome then f
  else { offsets := f.offsets ++ [(x, f.size + bytes)], size := f.size + bytes }

mutual

def addStmt {α : Type} (f : Frame) : Stmt α → Frame
  | .decl x t _ => f.add x (declaredBytes t)
  | .cond _ thenBody none => f.addStmts thenBody
  | .cond _ thenBody (some elseBody) => (f.addStmts thenBody).addStmts elseBody
  | .loop _ body => f.addStmts body
  | .block body => f.addStmts body
  | _ => f
termination_by structural st => st

def addStmts {α : Type} (f : Frame) : List (Stmt α) → Frame
  | [] => f
  | st :: sts => (f.addStmt st).addStmts sts
termination_by structural sts => sts

end

def ofFunction {α : Type} (fn : Function α) : Frame := Frame.addStmts {} fn.body

end Frame

end Workbench.Assembly
