import Workbench.Json.Basic
import Workbench.Program

/-!
# Programs as JSON values

A node of a program is a list that starts with its kind, followed by its parts; what is missing is null.
Notes are left out. Reading takes a value of any shape: an expression that it does not know is a hole, and a
statement that it does not know is a block.
-/

namespace Workbench

open Json (list text int bool null)

def Json.ofText? : Option String → Json
  | some s => text s
  | none => null

namespace Expr

variable {α : Type}

def kind : Expr α → String
  | lit .. => "lit"
  | var .. => "id"
  | unary .. => "un"
  | binary .. => "bin"
  | call .. => "call"
  | index .. => "index"
  | addr .. => "addr"
  | hole .. => "expr"

/-- The value of a literal with its kind. -/
def literalParts : Literal → List Json
  | .int n => [text "int", int n]
  | .bool b => [text "bool", bool b]
  | .str s => [text "str", text s]
  | .none => [text "none"]

mutual

def toJson : Expr α → Json
  | lit _ v => list (text "lit" :: literalParts v)
  | var _ x => list [text "id", text x]
  | unary _ op e => list [text "un", text op.text, e.toJson]
  | binary _ op l r => list [text "bin", text op.text, l.toJson, r.toJson]
  | call _ f args => list [text "call", text f, list (allToJson args)]
  | index _ a i => list [text "index", a.toJson, i.toJson]
  | addr _ t => list [text "addr", t.toJson]
  | hole _ => list [text "expr"]

def allToJson : List (Expr α) → List Json
  | [] => []
  | e :: es => e.toJson :: allToJson es

end

def optToJson : Option (Expr α) → Json
  | some e => e.toJson
  | none => null

/-- The literal with these parts. A whole number may be given in words of digits. -/
def literalOf : List Json → Literal
  | [text "int", n] => .int (n.int?.getD 0)
  | [text "bool", b] => .bool (b.bool?.getD false)
  | [text "str", text s] => .str s
  | _ => .none

mutual

def ofJson : Json → Expr Unit
  | list (text "lit" :: parts) => lit () (literalOf parts)
  | list [text "id", text x] => var () x
  | list [text "un", text op, e] => unary () (.ofText op) (ofJson e)
  | list [text "bin", text op, l, r] => binary () (.ofText op) (ofJson l) (ofJson r)
  | list [text "call", text f, list args] => call () f (allOfJson args)
  | list [text "index", a, i] => index () (ofJson a) (ofJson i)
  | list [text "addr", t] => addr () (ofJson t)
  | _ => hole ()

def allOfJson : List Json → List (Expr Unit)
  | [] => []
  | j :: js => ofJson j :: allOfJson js

end

def optOfJson (j : Json) : Option (Expr Unit) := if j.isNull then none else some (ofJson j)

end Expr

namespace Stmt

variable {α : Type}

mutual

def toJson : Stmt α → Json
  | expr e => list [text "exprstmt", e.toJson]
  | decl x t i => list [text "let", text x, .ofText? t, Expr.optToJson i]
  | assign t v => list [text "assign", t.toJson, v.toJson]
  | print nl e => list [text (if nl then "println" else "print"), e.toJson]
  | ret e => list [text "return", Expr.optToJson e]
  | asm s => list [text "asm", text s]
  | vmAsm s => list [text "vm_asm", text s]
  | cond c t none => list [text "if", c.toJson, list (allToJson t), null]
  | cond c t (some e) => list [text "if", c.toJson, list (allToJson t), list (allToJson e)]
  | loop c b => list [text "while", c.toJson, list (allToJson b)]
  | block b => list [text "block", list (allToJson b)]

def allToJson : List (Stmt α) → List Json
  | [] => []
  | s :: ss => s.toJson :: allToJson ss

end

mutual

def ofJson : Json → Stmt Unit
  | list [text "exprstmt", e] => expr (.ofJson e)
  | list [text "let", text x, t, i] => decl x t.text? (Expr.optOfJson i)
  | list [text "assign", t, v] => assign (.ofJson t) (.ofJson v)
  | list [text "print", e] => print false (.ofJson e)
  | list [text "println", e] => print true (.ofJson e)
  | list [text "return", e] => ret (Expr.optOfJson e)
  | list [text "asm", text s] => asm s
  | list [text "vm_asm", text s] => vmAsm s
  | list [text "if", c, list t, list e] => cond (.ofJson c) (allOfJson t) (some (allOfJson e))
  | list [text "if", c, list t, _] => cond (.ofJson c) (allOfJson t) none
  | list [text "while", c, list b] => loop (.ofJson c) (allOfJson b)
  | list [text "block", list b] => block (allOfJson b)
  | _ => block []

def allOfJson : List Json → List (Stmt Unit)
  | [] => []
  | j :: js => ofJson j :: allOfJson js

end

end Stmt

def Function.toJson {α : Type} (f : Function α) : Json :=
  list [text "fn", text f.name, list (f.params.map fun p => list [text p.name, text p.typeName]),
    .ofText? f.returnType, list (Stmt.allToJson f.body)]

def Function.ofJson (j : Json) : Function Unit :=
  { name := (j.item 1).text?.getD ""
    params := (j.item 2).items.map fun p => ⟨(p.item 0).text?.getD "", (p.item 1).text?.getD ""⟩
    returnType := (j.item 3).text?
    body := Stmt.allOfJson (j.item 4).items }

def Program.toJson {α : Type} (p : Program α) : Json := list (p.functions.map Function.toJson)

def Program.ofJson (j : Json) : Program Unit := ⟨j.items.map Function.ofJson⟩

end Workbench
