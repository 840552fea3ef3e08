import Workbench.Machine.Step
import Workbench.Proofs.Syntax
import Workbench.Typing.Check

/-!
# The scalar language

Programs over numbers and truths: variables and results are `int` or `bool`, every call is of the function that
it stands in or of an earlier one, and no name is declared twice in a function (`isScalar`). Their meaning
is given on the tree, with variables in nested blocks (`Store`) and with values that are integers:
`Scalar.run` evaluates a program to what it prints and returns. Going round a loop and calling a
function use up fuel, so that a program without end has a meaning as well: what it prints with more and
more fuel.
-/

namespace Workbench.Scalar

open Machine (wrap ofBool)
open Typing (Note)

/-! ### Values in scope -/

/-- The variables in scope with their values, block by block, the innermost first. -/
abbrev Store := List (List (String × Int))

namespace Store

/-- The value of a variable. -/
def get? (s : Store) (x : String) : Option Int := s.findSome? (·.lookup x)

/-- Declares a variable in the innermost block. -/
def declare (x : String) (v : Int) : Store → Store
  | [] => [[(x, v)]]
  | b :: bs => (b ++ [(x, v)]) :: bs

/-- Gives the innermost variable named `x` a new value. -/
def set? (x : String) (v : Int) : Store → Option Store
  | [] => none
  | b :: bs =>
    if (b.lookup x).isSome then some (b.map (fun p => if p.1 = x then (x, v) else p) :: bs)
    else (set? x v bs).map (b :: ·)

end Store

/-! ### Evaluation -/

/-- Why an evaluation gives no value. -/
inductive Stop where
  | returned (v : Int)
  | divisionByZero
  /-- A name that is not declared, a wrong number of arguments, or a construct outside the scalar language. -/
  | stuck
  | outOfFuel
  deriving DecidableEq, Repr

/-- An evaluation: what it prints, and its value. -/
structure Eval (α : Type) where
  out : List String
  result : Except Stop α
  deriving DecidableEq

namespace Eval

variable {α β : Type}

def bind (m : Eval α) (f : α → Eval β) : Eval β :=
  match m.result with
  | .ok a => ⟨m.out ++ (f a).out, (f a).result⟩
  | .error e => ⟨m.out, .error e⟩

instance : Monad Eval where
  pure a := ⟨[], .ok a⟩
  bind := bind

instance : LawfulMonad Eval := by
  refine LawfulMonad.mk' Eval (fun x => ?_) (fun a f => rfl) (fun x f g => ?_)
  · obtain ⟨out, result⟩ := x
    cases result with
    | error e => rfl
    | ok a => exact congrArg (Eval.mk · (.ok a)) (List.append_nil out)
  · obtain ⟨out, result⟩ := x
    cases result with
    | error e => rfl
    | ok a =>
      show bind (bind ⟨out, .ok a⟩ f) g = bind ⟨out, .ok a⟩ fun a => bind (f a) g
      simp only [bind]
      cases (f a).result <;> simp

def stop (e : Stop) : Eval α := ⟨[], .error e⟩

/-- Prints a text. -/
def say (newline : Bool) (s : String) : Eval Unit := ⟨[if newline then s ++ "\n" else s], .ok ()⟩

/-- The value of a call whose body is `m`: zero if the body comes to its end. -/
def returned (m : Eval α) : Eval Int :=
  match m.result with
  | .ok _ => ⟨m.out, .ok 0⟩
  | .error (.returned v) => ⟨m.out, .ok v⟩
  | .error e => ⟨m.out, .error e⟩

end Eval

open Eval (stop say)

/-- An operator with one operand. -/
def unary : UnaryOp → Int → Eval Int
  | .neg, a => pure (wrap (-a))
  | .not, a => pure (ofBool (a = 0))
  | .other _, _ => stop .stuck

/-- An operator whose operands are both evaluated. -/
def binary : BinaryOp → Int → Int → Eval Int
  | .add, a, b => pure (wrap (a + b))
  | .sub, a, b => pure (wrap (a - b))
  | .mul, a, b => pure (wrap (a * b))
  | .div, a, b => if b = 0 then stop .divisionByZero else pure (a.fdiv b)
  | .eq, a, b => pure (ofBool (a = b))
  | .ne, a, b => pure (ofBool (a ≠ b))
  | .lt, a, b => pure (ofBool (a < b))
  | .le, a, b => pure (ofBool (a ≤ b))
  | .gt, a, b => pure (ofBool (a > b))
  | .ge, a, b => pure (ofBool (a ≥ b))
  | .and, _, _ | .or, _, _ | .other _, _, _ => stop .stuck

section Evaluation

variable {α : Type}

mutual

/-- The value of an expression; `call` calls functions. -/
def expr (call : String → List Int → Eval Int) (s : Store) : Expr α → Eval Int
  | .lit _ (.int n) => pure n
  | .lit _ (.bool b) => pure (ofBool b)
  | .lit _ _ => stop .stuck
  | .var _ x => match s.get? x with
    | some v => pure v
    | none => stop .stuck
  | .unary _ op e => do
    let a ← expr call s e
    unary op a
  | .binary _ .and l r => do
    let a ← expr call s l
    if a = 0 then pure 0 else do
      let b ← expr call s r
      pure (ofBool (b ≠ 0))
  | .binary _ .or l r => do
    let a ← expr call s l
    if a = 0 then do
      let b ← expr call s r
      pure (ofBool (b ≠ 0))
    else pure 1
  | .binary _ op l r => do
    let a ← expr call s l
    let b ← expr call s r
    binary op a b
  | .call _ f args => do
    let vs ← exprs call s args
    call f vs
  | .index .. | .addr .. | .hole _ => stop .stuck
termination_by structural e => e

/-- The values of arguments, from left to right. -/
def exprs (call : String → List Int → Eval Int) (s : Store) : List (Expr α) → Eval (List Int)
  | [] => pure []
  | e :: es => do
    let v ← expr call s e
    let vs ← exprs call s es
    pure (v :: vs)
termination_by structural es => es

end

/-- How functions are called and how loops go round. -/
structure Deeper (α : Type) where
  call : String → List Int → Eval Int
  loop : Expr α → List (Stmt α) → Store → Eval Store

mutual

/-- Carries out a statement. -/
def stmt (d : Deeper α) (s : Store) : Stmt α → Eval Store
  | .decl x _ none => pure (s.declare x 0)
  | .decl x _ (some e) => do
    let v ← expr d.call s e
    pure (s.declare x v)
  | .assign (.var _ x) e => do
    let v ← expr d.call s e
    match s.set? x v with
    | some s' => pure s'
    | none => stop .stuck
  | .print newline (.lit _ (.str t)) => do
    say newline t
    pure s
  | .print newline e => do
    let v ← expr d.call s e
    say newline (toString v)
    pure s
  | .ret none => stop (.returned 0)
  | .ret (some e) => do
    let v ← expr d.call s e
    stop (.returned v)
  | .cond test yes none => do
    let v ← expr d.call s test
    if v = 0 then pure s else do
      let s' ← stmts d ([] :: s) yes
      pure s'.tail
  | .cond test yes (some no) => do
    let v ← expr d.call s test
    if v = 0 then do
      let s' ← stmts d ([] :: s) no
      pure s'.tail
    else do
      let s' ← stmts d ([] :: s) yes
      pure s'.tail
  | .loop test body => do
    let v ← expr d.call s test
    if v = 0 then pure s else do
      let s' ← stmts d ([] :: s) body
      d.loop test body s'.tail
  | .asm _ => pure s
  | .assign .. | .expr _ | .vmAsm _ | .block _ => stop .stuck
termination_by structural st => st

/-- Carries out statements one after the other. -/
def stmts (d : Deeper α) (s : Store) : List (Stmt α) → Eval Store
  | [] => pure s
  | st :: sts => do
    let s' ← stmt d s st
    stmts d s' sts
termination_by structural sts => sts

end

/-- Calls a function. Its parameters take the arguments modulo 2^16. -/
def invoke (d : Deeper α) (f : Function α) (args : List Int) : Eval Int :=
  if args.length = f.params.length then
    (stmts d [(f.params.map (·.name)).zip (args.map wrap)] f.body).returned
  else stop .stuck

/-- Calls and loops with `n` units of fuel. -/
def deeper (fs : List (Function α)) : Nat → Deeper α
  | 0 => ⟨fun _ _ => stop .outOfFuel, fun _ _ _ => stop .outOfFuel⟩
  | n + 1 =>
    { call := fun f args => match fs.find? (·.name == f) with
        | some fn => invoke (deeper fs n) fn args
        | none => stop .stuck
      loop := fun test body s => stmt (deeper fs n) s (.loop test body) }

/-- Runs `main` with `n` units of fuel, with zeros for its arguments. -/
def run (prog : Program α) (n : Nat) : Eval Int :=
  match prog.functions.find? (·.name == "main") with
  | some f => invoke (deeper prog.functions n) f (f.params.map fun _ => 0)
  | none => stop .stuck

end Evaluation

/-! ### Scalar programs -/

def scalarTy (t : Ty) : Bool := t = .int || t = .bool

mutual

/-- Literals, variables, operators, and calls of the functions of `known`. -/
def scalarExpr {α : Type} (known : List String) : Expr α → Bool
  | .lit _ (.int _) | .lit _ (.bool _) | .var _ _ => true
  | .unary _ _ e => scalarExpr known e
  | .binary _ _ l r => scalarExpr known l && scalarExpr known r
  | .call _ f args => known.contains f && scalarExprs known args
  | .lit _ _ | .index .. | .addr .. | .hole _ => false
termination_by structural e => e

def scalarExprs {α : Type} (known : List String) : List (Expr α) → Bool
  | [] => true
  | e :: es => scalarExpr known e && scalarExprs known es
termination_by structural es => es

end

/-- The type of a declared variable is scalar. -/
def scalarDecl (written : Option String) (init : Option (Expr Note)) : Bool :=
  match Ty.written? written with
  | some name => scalarTy (Ty.ofName name)
  | none => (init.bind (·.note)).any scalarTy

mutual

/-- Declarations, assignments to variables, prints, tests, loops, returns and `asm`. -/
def scalarStmt (known : List String) : Stmt Note → Bool
  | .decl _ written none => scalarDecl written none
  | .decl _ written (some e) => scalarDecl written (some e) && scalarExpr known e
  | .assign (.var _ _) e => scalarExpr known e
  | .print _ (.lit _ (.str _)) => true
  | .print _ e => scalarExpr known e
  | .ret none => true
  | .ret (some e) => scalarExpr known e
  | .cond test yes none => scalarExpr known test && scalarStmts known yes
  | .cond test yes (some no) => scalarExpr known test && scalarStmts known yes && scalarStmts known no
  | .loop test body => scalarExpr known test && scalarStmts known body
  | .asm _ => true
  | .assign .. | .expr _ | .vmAsm _ | .block _ => false
termination_by structural s => s

def scalarStmts (known : List String) : List (Stmt Note) → Bool
  | [] => true
  | s :: ss => scalarStmt known s && scalarStmts known ss
termination_by structural ss => ss

end

/-- A function of the scalar language that calls functions of `known` only. -/
def scalarFunction (known : List String) (f : Function Note) : Bool :=
  f.params.all (fun p => scalarTy (Ty.ofName p.typeName)) &&
    f.returnType.all (fun name => !name.isEmpty && scalarTy (Ty.ofName name)) &&
    decide (f.params.map (·.name) ++ (Stmt.decls f.body).map (·.1)).Nodup &&
    scalarStmts known f.body

def scalarFunctions (known : List String) : List (Function Note) → Bool
  | [] => true
  | f :: fs => scalarFunction (known ++ [f.name]) f && scalarFunctions (known ++ [f.name]) fs

def isScalar (prog : Program Note) : Bool := scalarFunctions [] prog.functions

end Workbench.Scalar
