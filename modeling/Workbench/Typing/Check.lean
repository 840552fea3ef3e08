import Workbench.Typing.Scope
import Workbench.Typing.Signature

/-!
# The analysis of programs

The `SemanticAnalyzer`. A program is accepted if every name that it uses is declared, operators and
calls get operands of the types they ask for, and every function with a result returns at the top level
of its body. The analysis gives back the program with the type of each expression noted on it.
Expressions that only name a place (the target of an assignment or of `&`) keep no note, and neither do
the statements of a bare block, which are not looked at.
-/

namespace Workbench.Typing

inductive SemanticError where
  | functionRedefined (name : String)
  | noMain
  | noReturn (function : String)
  | redeclared (name : String)
  | undeclared (name : String)
  | initMismatch (name : String) (declared found : Ty)
  | noType (name : String)
  | assignMismatch (name : String) (declared found : Ty)
  | indexTarget
  | indexNotInt
  | elementNotInt
  | badTarget
  | badPrint
  | badUnary (op : UnaryOp) (found : Ty)
  | arithmetic
  | comparison
  | logical
  | unknownOperator (op : BinaryOp)
  | notIndexable
  | addrNotArray
  | badAddr
  | pushArity
  | pushArray
  | pushLength
  | pushValue
  | popArity
  | popArray
  | popLength
  | undeclaredFunction (name : String)
  | arity (function : String) (expected found : Nat)
  | argMismatch (expected found : Ty)
  | hole
  deriving DecidableEq, Repr

def SemanticError.message : SemanticError → String
  | functionRedefined f => "Redefinition of function '" ++ f ++ "'"
  | noMain => "Missing entry point 'main'"
  | noReturn f => "Function '" ++ f ++ "' missing return statement"
  | redeclared x => "Redeclaration of variable '" ++ x ++ "'"
  | undeclared x => "Undeclared variable '" ++ x ++ "'"
  | initMismatch x d t =>
    "Type mismatch in initializer for '" ++ x ++ "': " ++ d.name ++ " vs " ++ t.name
  | noType x => "Cannot infer type for '" ++ x ++ "' without initializer"
  | assignMismatch x d t =>
    "Cannot assign " ++ t.name ++ " to " ++ d.name ++ " variable '" ++ x ++ "'"
  | indexTarget => "Index target must be an int[N] array"
  | indexNotInt => "Array index must be int"
  | elementNotInt => "Array elements must be int"
  | badTarget => "Invalid assignment target"
  | badPrint => "print/println expect int or str"
  | badUnary op t => "Invalid unary op " ++ op.text ++ " for type " ++ t.name
  | arithmetic => "Arithmetic operators require int operands"
  | comparison => "Comparison requires operands of same type"
  | logical => "Logical && and || require bool operands"
  | unknownOperator op => "Unknown operator " ++ op.text
  | notIndexable => "Indexing requires int[N] array"
  | addrNotArray => "Can only take address of int[N] array elements"
  | badAddr => "Can only take address of variables or array elements"
  | pushArity => "array_push expects 3 arguments"
  | pushArray => "array_push first argument must be int[N] array"
  | pushLength => "array_push length must be int"
  | pushValue => "array_push value must be int"
  | popArity => "array_pop expects 2 arguments"
  | popArray => "array_pop first argument must be int[N] array"
  | popLength => "array_pop length must be int"
  | undeclaredFunction f => "Call to undeclared function '" ++ f ++ "'"
  | arity f n m =>
    "Function '" ++ f ++ "' expects " ++ toString n ++ " args, got " ++ toString m
  | argMismatch p a => "Argument type mismatch: expected " ++ p.name ++ ", got " ++ a.name
  | hole => "Unhandled expression type"

/-- The note of the analysis on an expression: its type, if it was given one. -/
abbrev Note := Option Ty

abbrev Typed := Expr Note × Ty

def require (c : Bool) (e : SemanticError) : Except SemanticError Unit :=
  if c then .ok () else .error e

def literalType : Literal → Ty
  | .bool _ => .bool
  | .int _ => .int
  | .str _ => .str
  | .none => .void

def unaryType (op : UnaryOp) (t : Ty) : Except SemanticError Ty :=
  if op = .neg ∧ t = .int then .ok .int
  else if op = .not ∧ t = .bool then .ok .bool
  else .error (.badUnary op t)

def binaryType (op : BinaryOp) (l r : Ty) : Except SemanticError Ty :=
  match op with
  | .add | .sub | .mul | .div =>
    if l = .int ∧ r = .int then .ok .int else .error .arithmetic
  | .eq | .ne | .lt | .le | .gt | .ge => if l = r then .ok .bool else .error .comparison
  | .and | .or => if l = .bool ∧ r = .bool then .ok .bool else .error .logical
  | .other _ => .error (.unknownOperator op)

/-- The array and the index of an array element, from the analysis of either; `notArray` is said of
anything that is no array. -/
def element (notArray : SemanticError) (array index : Except SemanticError Typed) :
    Except SemanticError (Expr Note × Expr Note) := do
  let (a, t) ← array
  require t.isArray notArray
  let (i, u) ← index
  require (u = .int) .indexNotInt
  return (a, i)

mutual

def checkExpr (table : Signatures) (scope : Scope) : Expr Unit → Except SemanticError Typed
  | .lit _ v => .ok (.lit (some (literalType v)) v, literalType v)
  | .var _ x => match scope.resolve? x with
    | some t => .ok (.var (some t) x, t)
    | none => .error (.undeclared x)
  | .unary _ op e => do
    let (e', t) ← checkExpr table scope e
    let u ← unaryType op t
    return (.unary (some u) op e', u)
  | .binary _ op l r => do
    let (l', lt) ← checkExpr table scope l
    let (r', rt) ← checkExpr table scope r
    let u ← binaryType op lt rt
    return (.binary (some u) op l' r', u)
  | .index _ a i => do
    let (a', i') ← element .notIndexable (checkExpr table scope a) (checkExpr table scope i)
    return (.index (some .int) a' i', .int)
  | .addr _ (.var _ x) => match scope.resolve? x with
    | some _ => .ok (.addr (some .ptr) (.var none x), .ptr)
    | none => .error (.undeclared x)
  | .addr _ (.index _ a i) => do
    let (a', i') ← element .addrNotArray (checkExpr table scope a) (checkExpr table scope i)
    return (.addr (some .ptr) (.index none a' i'), .ptr)
  | .addr _ _ => .error .badAddr
  | .call _ f args =>
    if f == "array_push" then
      match args with
      | [a, n, v] => do
        let (a', at') ← checkExpr table scope a
        require at'.isArray .pushArray
        let (n', nt) ← checkExpr table scope n
        require (nt = .int) .pushLength
        let (v', vt) ← checkExpr table scope v
        require (vt = .int) .pushValue
        return (.call (some .int) f [a', n', v'], .int)
      | _ => .error .pushArity
    else if f == "array_pop" then
      match args with
      | [a, n] => do
        let (a', at') ← checkExpr table scope a
        require at'.isArray .popArray
        let (n', nt) ← checkExpr table scope n
        require (nt = .int) .popLength
        return (.call (some .int) f [a', n'], .int)
      | _ => .error .popArity
    else match table.lookup f with
      | none => .error (.undeclaredFunction f)
      | some sig => do
        require (args.length = sig.params.length) (.arity f sig.params.length args.length)
        let args' ← checkArgs table scope sig.params args
        return (.call (some sig.result) f args', sig.result)
  | .hole _ => .error .hole
termination_by structural e => e

def checkArgs (table : Signatures) (scope : Scope) :
    List Ty → List (Expr Unit) → Except SemanticError (List (Expr Note))
  | p :: ps, a :: as => do
    let (a', t) ← checkExpr table scope a
    require (t = p) (.argMismatch p t)
    let as' ← checkArgs table scope ps as
    return a' :: as'
  | _, _ => .ok []
termination_by structural _ as => as

end

/-- The type of a declared variable, from its written type and its initial value. -/
def declaredType (x : String) (written : Option String) (init : Option Typed) :
    Except SemanticError Ty :=
  match (Ty.written? written).map Ty.ofName, init with
  | some d, some (_, t) => if d = t then .ok d else .error (.initMismatch x d t)
  | some d, none => .ok d
  | none, some (_, t) => .ok t
  | none, none => .error (.noType x)

def declare (scope : Scope) (x : String) (t : Ty) : Except SemanticError Scope :=
  match scope.declare? x t with
  | some s => .ok s
  | none => .error (.redeclared x)

/-- Analyses an assignment; `value` is the analysis of what is assigned. -/
def checkAssign (table : Signatures) (scope : Scope) (target value : Expr Unit) :
    Except SemanticError (Stmt Note) :=
  match target with
  | .var _ x => match scope.resolve? x with
    | none => .error (.undeclared x)
    | some d => do
      let (v, t) ← checkExpr table scope value
      require (d = t) (.assignMismatch x d t)
      return .assign (.var none x) v
  | .index _ a i => do
    let (a', i') ← element .indexTarget (checkExpr table scope a) (checkExpr table scope i)
    let (v, t) ← checkExpr table scope value
    require (t = .int) .elementNotInt
    return .assign (.index none a' i') v
  | _ => .error .badTarget

def checkOptional (table : Signatures) (scope : Scope) :
    Option (Expr Unit) → Except SemanticError (Option Typed)
  | none => .ok none
  | some e => do return some (← checkExpr table scope e)

mutual

/-- Analyses a statement and gives the scope after it. -/
def checkStmt (table : Signatures) (scope : Scope) :
    Stmt Unit → Except SemanticError (Stmt Note × Scope)
  | .decl x written init => do
    let init' ← checkOptional table scope init
    let t ← declaredType x written init'
    let scope' ← declare scope x t
    return (.decl x written (init'.map (·.1)), scope')
  | .assign target value => do
    return (← checkAssign table scope target value, scope)
  | .print newline e => do
    let (e', t) ← checkExpr table scope e
    require (t = .int || t = .str) .badPrint
    return (.print newline e', scope)
  | .ret value => do
    let value' ← checkOptional table scope value
    return (.ret (value'.map (·.1)), scope)
  | .cond test thenBody elseBody => do
    let (test', _) ← checkExpr table scope test
    let thenBody' ← checkStmts table scope.enter thenBody
    match elseBody with
    | none => return (.cond test' thenBody' none, scope)
    | some body => do
      let body' ← checkStmts table scope.enter body
      return (.cond test' thenBody' (some body'), scope)
  | .loop test body => do
    let (test', _) ← checkExpr table scope test
    let body' ← checkStmts table scope.enter body
    return (.loop test' body', scope)
  | .expr e => do
    let (e', _) ← checkExpr table scope e
    return (.expr e', scope)
  | .asm text => .ok (.asm text, scope)
  | .vmAsm text => .ok (.vmAsm text, scope)
  | .block body => .ok (.block (Stmt.annotateAll none body), scope)
termination_by structural s => s

def checkStmts (table : Signatures) (scope : Scope) :
    List (Stmt Unit) → Except SemanticError (List (Stmt Note))
  | [] => .ok []
  | s :: ss => do
    let (s', scope') ← checkStmt table scope s
    let ss' ← checkStmts table scope' ss
    return s' :: ss'
termination_by structural ss => ss

end

def declareParams (scope : Scope) : List Param → List Ty → Except SemanticError Scope
  | p :: ps, t :: ts => do declareParams (← declare scope p.name t) ps ts
  | _, _ => .ok scope

def checkFunction (table : Signatures) (f : Function Unit) :
    Except SemanticError (Function Note) := do
  let sig := (table.lookup f.name).getD (Signatures.ofFunction f)
  let scope ← declareParams [[]] f.params sig.params
  let body ← checkStmts table scope f.body
  require (sig.result = .void || f.body.any Stmt.isReturn) (.noReturn f.name)
  return { name := f.name, params := f.params, returnType := f.returnType, body := body }

def enterFunctions (table : Signatures) :
    List (Function Unit) → Signatures × Except SemanticError Unit
  | [] => (table, .ok ())
  | f :: fs =>
    if (table.lookup f.name).isSome then (table, .error (.functionRedefined f.name))
    else enterFunctions (table ++ [(f.name, Signatures.ofFunction f)]) fs

/-- Analyses the functions of a program over a full table. -/
def checkFunctions (table : Signatures) (fs : List (Function Unit)) :
    Except SemanticError (List (Function Note)) := do
  require (table.lookup "main").isSome .noMain
  fs.mapM (checkFunction table)

/-- Analyses a program where the functions of `known` are known already. The table that results
holds every function that was entered, also if the program is not accepted. -/
def checkAfter (known : Signatures) (p : Program Unit) :
    Signatures × Except SemanticError (Program Note) :=
  let (table, entered) := enterFunctions known.withBuiltins p.functions
  (table, do
    entered
    let fs ← checkFunctions table p.functions
    return ⟨fs⟩)

def check (p : Program Unit) : Except SemanticError (Program Note) := (checkAfter [] p).2

end Workbench.Typing
