import Workbench.Program

/-!
# Linear form

What the `IRBuilder` makes: a program as straight lines of evaluations, prints and stores. Branches and
loops are left out, and an assignment has no linear form.
-/

namespace Workbench.Linear

/-- Instructions of the linear form. -/
inductive Instr (α : Type) where
  | eval (e : Expr α)
  | print
  | store (name : String)
  | ret

/-- The program has an assignment, which cannot be stored by name. -/
structure AssignError where
  deriving DecidableEq, Repr

def ofStmt {α : Type} : Stmt α → Except AssignError (List (Instr α))
  | .print false e => .ok [.eval e, .print]
  | .ret (some e) => .ok [.eval e, .ret]
  | .ret none => .ok [.ret]
  | .decl x _ (some e) => .ok [.eval e, .store x]
  | .assign _ _ => .error {}
  | .expr e => .ok [.eval e]
  | _ => .ok []

/-- The linear form of a function, which always ends with a return. -/
def ofFunction {α : Type} (f : Function α) : Except AssignError (List (Instr α)) := do
  return (← f.body.mapM ofStmt).flatten ++ [.ret]

def ofProgram {α : Type} (p : Program α) :
    Except AssignError (List (String × List (Instr α))) :=
  p.functions.mapM fun f => do return (f.name, ← ofFunction f)

end Workbench.Linear
