import Workbench.Program

/-!
# The parts of a program

All expressions of a program in the order in which they are written, each before its own parts.
-/

namespace Workbench

namespace Expr

variable {α : Type}

mutual

def parts : Expr α → List (Expr α)
  | lit a v => [lit a v]
  | var a x => [var a x]
  | hole a => [hole a]
  | unary a op e => unary a op e :: e.parts
  | binary a op l r => binary a op l r :: (l.parts ++ r.parts)
  | call a f args => call a f args :: partsOfAll args
  | index a x i => index a x i :: (x.parts ++ i.parts)
  | addr a t => addr a t :: t.parts

def partsOfAll : List (Expr α) → List (Expr α)
  | [] => []
  | e :: es => e.parts ++ partsOfAll es

end

end Expr

namespace Stmt

variable {α : Type}

mutual

def parts : Stmt α → List (Expr α)
  | expr e | print _ e | ret (some e) | decl _ _ (some e) => e.parts
  | assign t v => t.parts ++ v.parts
  | cond c t none => c.parts ++ partsOfAll t
  | cond c t (some e) => c.parts ++ (partsOfAll t ++ partsOfAll e)
  | loop c b => c.parts ++ partsOfAll b
  | block b => partsOfAll b
  | ret none | decl _ _ none | asm _ | vmAsm _ => []

def partsOfAll : List (Stmt α) → List (Expr α)
  | [] => []
  | s :: ss => s.parts ++ partsOfAll ss

end

end Stmt

def Program.parts {α : Type} (p : Program α) : List (Expr α) :=
  p.functions.flatMap fun f => Stmt.partsOfAll f.body

end Workbench
