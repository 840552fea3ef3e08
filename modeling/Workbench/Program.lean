/-!
# Programs

The tree of a program. Every expression carries a note of type `α`: the tree as it was read has no
notes (`Unit`), and the analysis notes the type of each expression that it looked at.
-/

namespace Workbench

inductive Literal where
  | int (n : Int)
  | bool (b : Bool)
  | str (s : String)
  | none
  deriving DecidableEq, Repr

inductive UnaryOp where
  | neg
  | not
  | other (text : String)
  deriving DecidableEq, Repr

namespace UnaryOp

def ofText : String → UnaryOp
  | "-" => neg
  | "!" => not
  | text => other text

def text : UnaryOp → String
  | neg => "-"
  | not => "!"
  | other text => text

end UnaryOp

inductive BinaryOp where
  | add | sub | mul | div
  | eq | ne | lt | le | gt | ge
  | and | or
  | other (text : String)
  deriving DecidableEq, Repr

namespace BinaryOp

def ofText : String → BinaryOp
  | "+" => add
  | "-" => sub
  | "*" => mul
  | "/" => div
  | "==" => eq
  | "!=" => ne
  | "<" => lt
  | "<=" => le
  | ">" => gt
  | ">=" => ge
  | "&&" => and
  | "||" => or
  | text => other text

def text : BinaryOp → String
  | add => "+"
  | sub => "-"
  | mul => "*"
  | div => "/"
  | eq => "=="
  | ne => "!="
  | lt => "<"
  | le => "<="
  | gt => ">"
  | ge => ">="
  | and => "&&"
  | or => "||"
  | other text => text

end BinaryOp

/-- Expressions. A `hole` stands where an expression is missing. -/
inductive Expr (α : Type) where
  | lit (note : α) (value : Literal)
  | var (note : α) (name : String)
  | unary (note : α) (op : UnaryOp) (operand : Expr α)
  | binary (note : α) (op : BinaryOp) (left right : Expr α)
  | call (note : α) (callee : String) (args : List (Expr α))
  | index (note : α) (array index : Expr α)
  | addr (note : α) (target : Expr α)
  | hole (note : α)

instance {α : Type} [Inhabited α] : Inhabited (Expr α) := ⟨.hole default⟩

namespace Expr

variable {α β : Type}

def note : Expr α → α
  | lit a _ | var a _ | unary a _ _ | binary a _ _ _ | call a _ _ | index a _ _ | addr a _ | hole a =>
    a

def varName? : Expr α → Option String
  | var _ x => some x
  | _ => none

mutual

def annotate (b : β) : Expr α → Expr β
  | lit _ v => lit b v
  | var _ x => var b x
  | unary _ op e => unary b op (e.annotate b)
  | binary _ op l r => binary b op (l.annotate b) (r.annotate b)
  | call _ f args => call b f (annotateAll b args)
  | index _ a i => index b (a.annotate b) (i.annotate b)
  | addr _ t => addr b (t.annotate b)
  | hole _ => hole b

def annotateAll (b : β) : List (Expr α) → List (Expr β)
  | [] => []
  | e :: es => e.annotate b :: annotateAll b es

end

end Expr

/-- Statements. `asm` holds assembly text, `vmAsm` the text of machine instructions. -/
inductive Stmt (α : Type) where
  | expr (e : Expr α)
  | decl (name : String) (typeName : Option String) (init : Option (Expr α))
  | assign (target value : Expr α)
  | print (newline : Bool) (value : Expr α)
  | ret (value : Option (Expr α))
  | asm (text : String)
  | vmAsm (text : String)
  | cond (test : Expr α) (thenBody : List (Stmt α)) (elseBody : Option (List (Stmt α)))
  | loop (test : Expr α) (body : List (Stmt α))
  | block (body : List (Stmt α))

instance {α : Type} : Inhabited (Stmt α) := ⟨.block []⟩

namespace Stmt

variable {α β : Type}

mutual

def annotate (b : β) : Stmt α → Stmt β
  | expr e => expr (e.annotate b)
  | decl x t none => decl x t none
  | decl x t (some e) => decl x t (some (e.annotate b))
  | assign t v => assign (t.annotate b) (v.annotate b)
  | print nl e => print nl (e.annotate b)
  | ret none => ret none
  | ret (some e) => ret (some (e.annotate b))
  | asm s => asm s
  | vmAsm s => vmAsm s
  | cond c t none => cond (c.annotate b) (annotateAll b t) none
  | cond c t (some e) => cond (c.annotate b) (annotateAll b t) (some (annotateAll b e))
  | loop c body => loop (c.annotate b) (annotateAll b body)
  | block body => block (annotateAll b body)

def annotateAll (b : β) : List (Stmt α) → List (Stmt β)
  | [] => []
  | s :: ss => s.annotate b :: annotateAll b ss

end

def isReturn : Stmt α → Bool
  | ret _ => true
  | _ => false

end Stmt

structure Param where
  name : String
  typeName : String
  deriving DecidableEq, Repr

structure Function (α : Type) where
  name : String
  params : List Param
  returnType : Option String
  body : List (Stmt α)

/-- A program: its functions in the order in which they are written. -/
structure Program (α : Type) where
  functions : List (Function α)

namespace Function

def annotate {α β : Type} (b : β) (f : Function α) : Function β :=
  { name := f.name, params := f.params, returnType := f.returnType,
    body := Stmt.annotateAll b f.body }

end Function

def Program.annotate {α β : Type} (b : β) (p : Program α) : Program β :=
  ⟨p.functions.map (Function.annotate b)⟩

end Workbench
