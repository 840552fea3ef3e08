import Workbench.Bytecode.Inline
import Workbench.Machine.State
import Workbench.Typing.Check

/-!
# Machine code for programs

The `CodeGenVM`. Code is generated as lists of instructions. Jumps are absolute and strings are numbered
through the whole program, so each piece is generated for the place where it will stand; the lengths of
the pieces before it give that place, and the lengths of the pieces jumped over give the targets.

Functions are numbered in the order in which they are written, and a call can only name the function it
stands in or an earlier one: any other name gives zero, without its arguments.
-/

namespace Workbench.Bytecode

open Machine (Instr Op)
open Typing (Note)

/-- The place of a piece of code: the address of its first instruction and the number of the first
string in it. -/
structure Place where
  pc : Nat
  string : Nat

/-- A piece of code and the strings that it refers to. -/
structure Piece where
  code : List Instr
  strings : List String := []

namespace Piece

instance : Append Piece := ⟨fun a b => ⟨a.code ++ b.code, a.strings ++ b.strings⟩⟩

def ofCode (code : List Instr) : Piece := ⟨code, []⟩

def op (o : Op) : Piece := ofCode [⟨o, none⟩]

def arg (o : Op) (n : Int) : Piece := ofCode [⟨o, some n⟩]

def push (n : Int) : Piece := arg .pushInt n

end Piece

namespace Place

def after (p : Place) (c : Piece) : Place :=
  ⟨p.pc + c.code.length, p.string + c.strings.length⟩

def skip (p : Place) (n : Nat) : Place := { p with pc := p.pc + n }

end Place

/-- What code generation knows inside a function: its slots, and the numbers of the functions that can
be called, the latest first. -/
structure Env where
  slots : Slots
  functions : List (String × Nat)

/-- The operation for an operator whose operands are both evaluated; none for an unknown one. -/
def binaryOps : BinaryOp → List Op
  | .add => [.add]
  | .sub => [.sub]
  | .mul => [.mul]
  | .div => [.div]
  | .eq => [.cmpEq]
  | .ne => [.cmpNe]
  | .lt => [.cmpLt]
  | .le => [.cmpLe]
  | .gt => [.cmpGt]
  | .ge => [.cmpGe]
  | .and | .or | .other _ => []

/-- The operation for an operator with one operand; none for an unknown one. -/
def unaryOps : UnaryOp → List Op
  | .neg => [.neg]
  | .not => [.not]
  | .other _ => []

def literalCode (p : Place) : Literal → Piece
  | .bool b => .push (if b then 1 else 0)
  | .int n => .push n
  | .str s => ⟨[⟨.pushInt, some (p.string : Int)⟩], [s]⟩
  | .none => .ofCode []

/-- The code of `left && right`: `right` is evaluated only if `left` holds. -/
def andCode (p : Place) (left : Piece) (right : Place → Piece) : Piece :=
  let p₁ := (p.after left).skip 1
  let r := right p₁
  let no := (p₁.after r).pc + 3
  left ++ .arg .jz no ++ r ++ .arg .jz no ++ .push 1 ++ .arg .jmp (no + 1) ++ .push 0

/-- The code of `left || right`: `right` is evaluated only if `left` fails. -/
def orCode (p : Place) (left : Piece) (right : Place → Piece) : Piece :=
  let p₁ := (p.after left).skip 1
  let r := right p₁
  let yes := (p₁.after r).pc + 3
  left ++ .arg .jnz yes ++ r ++ .arg .jnz yes ++ .push 0 ++ .arg .jmp (yes + 1) ++ .push 1

/-- The first cell of an array that is named directly. -/
def Env.arrayCell? {α : Type} (env : Env) (e : Expr α) : Option Nat :=
  e.varName?.bind env.slots.arrayCell?

mutual

/-- The code of an expression, which leaves its value on the stack. -/
def exprCode {α : Type} (env : Env) (p : Place) : Expr α → Piece
  | .lit _ v => literalCode p v
  | .var _ x => match env.slots.cell? x with
    | some k => .arg .loadLocal k
    | none => .push 0
  | .addr _ (.var _ x) => .push ((env.slots.cell? x).getD 0)
  | .addr _ (.index _ a i) => match env.arrayCell? a with
    | some base => exprCode env p i ++ .push base ++ .op .add
    | none => .push 0
  | .addr _ _ => .push 0
  | .unary _ op e => exprCode env p e ++ .ofCode ((unaryOps op).map fun o => ⟨o, none⟩)
  | .binary _ .and l r => andCode p (exprCode env p l) fun q => exprCode env q r
  | .binary _ .or l r => orCode p (exprCode env p l) fun q => exprCode env q r
  | .binary _ op l r =>
    let cl := exprCode env p l
    cl ++ exprCode env (p.after cl) r ++ .ofCode ((binaryOps op).map fun o => ⟨o, none⟩)
  | .index _ a i => match env.arrayCell? a with
    | some base => exprCode env p i ++ .arg .loadLocalIdx base
    | none => .push 0
  | .call _ "array_push" [a, n, v] => match env.arrayCell? a with
    | some base =>
      let cv := exprCode env p v
      let c := cv ++ exprCode env (p.after cv) n ++ .arg .storeLocalIdx base
      c ++ exprCode env (p.after c) n ++ .push 1 ++ .op .add
    | none => exprCode env p n ++ .push 1 ++ .op .add
  | .call _ "array_pop" [a, n] => match env.arrayCell? a with
    | some base => exprCode env p n ++ .push 1 ++ .op .sub ++ .arg .loadLocalIdx base
    | none => .push 0
  | .call _ "load16" [a] => exprCode env p a ++ .op .loadIndirect
  | .call _ "store16" [a, b] =>
    let ca := exprCode env p a
    ca ++ exprCode env (p.after ca) b ++ .op .storeIndirect ++ .push 0
  | .call _ "memcpy" [a, b, c] =>
    let ca := exprCode env p a
    let cb := ca ++ exprCode env (p.after ca) b
    cb ++ exprCode env (p.after cb) c ++ .op .memcpyLocals ++ .push 0
  | .call _ "memset" [a, b, c] =>
    let ca := exprCode env p a
    let cb := ca ++ exprCode env (p.after ca) b
    cb ++ exprCode env (p.after cb) c ++ .op .memsetLocals ++ .push 0
  | .call _ "ct_eq" [a, b] =>
    let ca := exprCode env p a
    ca ++ exprCode env (p.after ca) b ++ .op .cmpEq
  | .call _ "ct_select" [m, x, y] =>
    let cx := exprCode env p x
    let cy := cx ++ exprCode env (p.after cx) y ++ .op .sub
    let cm := cy ++ exprCode env (p.after cy) m ++ .op .mul
    cm ++ exprCode env (p.after cm) y ++ .op .add
  | .call _ f args => match env.functions.lookup f with
    | some n => argsCode env p args ++ .arg .call n
    | none => .push 0
  | .hole _ => .ofCode []
termination_by structural e => e

/-- The code of arguments, from left to right. -/
def argsCode {α : Type} (env : Env) (p : Place) : List (Expr α) → Piece
  | [] => .ofCode []
  | a :: as =>
    let ca := exprCode env p a
    ca ++ argsCode env (p.after ca) as
termination_by structural as => as

end

/-- The code of a declaration. An array is filled with zeros, whatever its initial value. -/
def declCode {α : Type} (env : Env) (p : Place) (x : String) (init : Option (Expr α)) : Piece :=
  let base := (env.slots.cell? x).getD 0
  match env.slots.length? x with
  | some n => .ofCode ((List.range n).flatMap fun (k : Nat) =>
      [⟨.pushInt, some 0⟩, ⟨.storeLocal, some ((base + k : Nat) : Int)⟩])
  | none => match init with
    | some e => exprCode env p e ++ .arg .storeLocal base
    | none => .push 0 ++ .arg .storeLocal base

/-- The code of an assignment. A target that is no variable and no element of an array has no
code. -/
def assignCode {α : Type} (env : Env) (p : Place) (target value : Expr α) : Piece :=
  match target with
  | .var _ x => match env.slots.cell? x with
    | some k => exprCode env p value ++ .arg .storeLocal k
    | none => .ofCode []
  | .index _ a i => match env.arrayCell? a with
    | some base =>
      let cv := exprCode env p value
      cv ++ exprCode env (p.after cv) i ++ .arg .storeLocalIdx base
    | none => .ofCode []
  | _ => .ofCode []

/-- The operation that prints a value of the type `t`. -/
def printOp (newline : Bool) (t : Ty) : Op :=
  match newline, decide (t = .str) with
  | false, true => .printStr
  | false, false => .printInt
  | true, true => .printlnStr
  | true, false => .printlnInt

mutual

/-- The code of a statement. The value of an expression that is a statement stays on the stack. -/
def stmtCode (env : Env) (p : Place) : Stmt Note → Except EmitError Piece
  | .decl x _ init => .ok (declCode env p x init)
  | .assign target value => .ok (assignCode env p target value)
  | .print newline e => match e.note with
    | some t => .ok (exprCode env p e ++ .op (printOp newline t))
    | none => .error .untyped
  | .ret (some e) => .ok (exprCode env p e ++ .op .ret)
  | .ret none => .ok (.push 0 ++ .op .ret)
  | .expr e => .ok (exprCode env p e)
  | .cond test thenBody elseBody => do
    let ct := exprCode env p test
    let p₁ := (p.after ct).skip 1
    let cThen ← stmtsCode env p₁ thenBody
    let p₂ := (p₁.after cThen).skip 1
    let cElse ← match elseBody with
      | some body => stmtsCode env p₂ body
      | none => pure (.ofCode [])
    return ct ++ .arg .jz p₂.pc ++ cThen ++ .arg .jmp (p₂.after cElse).pc ++ cElse
  | .loop test body => do
    let ct := exprCode env p test
    let p₁ := (p.after ct).skip 1
    let cBody ← stmtsCode env p₁ body
    return ct ++ .arg .jz ((p₁.after cBody).pc + 1) ++ cBody ++ .arg .jmp p.pc
  | .asm _ => .ok (.ofCode [])
  | .vmAsm text => do return .ofCode (← inlineCode env.slots text)
  | .block _ => .ok (.ofCode [])
termination_by structural s => s

def stmtsCode (env : Env) (p : Place) : List (Stmt Note) → Except EmitError Piece
  | [] => .ok (.ofCode [])
  | s :: ss => do
    let c ← stmtCode env p s
    let cs ← stmtsCode env (p.after c) ss
    return c ++ cs
termination_by structural ss => ss

end

/-- The code that ends a function: it returns, with zero if the function has no result type or
returns an `int`. -/
def closingCode (returnType : Option String) : Piece :=
  if returnType = none ∨ returnType = some "int" then .push 0 ++ .op .ret else .op .ret

/-- A function in the code. -/
structure Compiled where
  name : String
  entry : Nat
  slots : Slots
  numParams : Nat

structure Object where
  code : List Instr
  functions : List Compiled
  strings : List String

/-- The code of functions from `p` on. `known` are the numbers of the earlier functions, the latest
first. -/
def functionsCode (known : List (String × Nat)) (p : Place) :
    List (Function Note) → Except EmitError (Piece × List Compiled)
  | [] => .ok (.ofCode [], [])
  | f :: fs => do
    let slots := Slots.ofFunction f
    let known' := (f.name, known.length) :: known
    let body ← stmtsCode ⟨slots, known'⟩ p f.body
    let c := body ++ closingCode f.returnType
    let (cs, infos) ← functionsCode known' (p.after c) fs
    return (c ++ cs, ⟨f.name, p.pc, slots, f.params.length⟩ :: infos)

def emit (prog : Program Note) : Except EmitError Object := do
  let (c, infos) ← functionsCode [] ⟨0, 0⟩ prog.functions
  return ⟨c.code, infos, c.strings⟩

def Object.numberedStrings (u : Object) : List (Int × String) :=
  u.strings.zipIdx.map fun (s, k) => ((k : Int), s)

def Object.image (u : Object) : Machine.Image :=
  { code := u.code.toArray
    functions := (u.functions.map fun f =>
      ⟨f.name, f.entry, f.slots.size, f.numParams⟩).toArray
    strings := u.numberedStrings }

end Workbench.Bytecode
