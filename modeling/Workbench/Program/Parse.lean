import Workbench.Program
import Workbench.Text.Numeral
import Workbench.Token

/-!
# Reading programs

The `Parser`: a program is read from its tokens by recursive descent. Every rule returns the tokens that
it left together with the fact that there are fewer of them, which is what makes the rules end. A
failure says what was expected and which token stood there instead; a list of tokens that ends without
an end token can also run out. After a `vm_asm` block that is not closed `_vm_asm_block` reads the end
token for ever and never returns; here that is the failure `vmAsmClose`.
-/

namespace Workbench.Program.Parse

/-- What a rule expects at some point. -/
inductive Expected where
  | fn | functionName | paramsOpen | paramName | paramColon | paramsClose
  | typeName | arraySize | arraySizeClose
  | blockOpen
  | variableName | declEnd
  | printOpen (newline : Bool) | printClose (newline : Bool) | printEnd (newline : Bool)
  | asmText | asmEnd | vmAsmOpen | vmAsmClose
  | returnEnd | ifOpen | whileOpen | testClose
  | assignEnd | exprEnd | argsClose | indexClose | groupClose
  deriving DecidableEq, Repr

namespace Expected

def printWord (newline : Bool) : String := if newline then "println" else "print"

def text : Expected → String
  | fn => "Expected 'fn' at function start"
  | functionName => "Expected function name"
  | paramsOpen => "Expected '(' after function name"
  | paramName => "Expected parameter name"
  | paramColon => "Expected ':' after parameter name"
  | paramsClose => "Expected ')' after parameters"
  | typeName => "Expected type name"
  | arraySize => "Expected array size after '['"
  | arraySizeClose => "Expected ']' after array size"
  | blockOpen => "Expected '\x7b' to start block"
  | variableName => "Expected variable name"
  | declEnd => "Expected ';' after variable declaration"
  | printOpen nl => "Expected '(' after '" ++ printWord nl ++ "'"
  | printClose nl => "Expected ')' after " ++ printWord nl ++ " expression"
  | printEnd nl => "Expected ';' after " ++ printWord nl ++ " statement"
  | asmText => "Expected string literal after 'asm'"
  | asmEnd => "Expected ';' after asm statement"
  | vmAsmOpen => "Expected '\x7b' after 'vm_asm'"
  | vmAsmClose => "Expected '\x7d' after vm_asm block"
  | returnEnd => "Expected ';' after return value"
  | ifOpen => "Expected '(' after 'if'"
  | whileOpen => "Expected '(' after 'while'"
  | testClose => "Expected ')' after condition"
  | assignEnd => "Expected ';' after assignment"
  | exprEnd => "Expected ';' after expression"
  | argsClose => "Expected ')' after arguments"
  | indexClose => "Expected ']' after index expression"
  | groupClose => "Expected ')' after expression"

end Expected

end Parse

inductive ParseError where
  | unexpected (want : Parse.Expected) (found : Token)
  | noExpression (found : Token)
  | outOfTokens
  | badArraySize (text : String)
  | noArraySize
  deriving DecidableEq, Repr

namespace ParseError

/-- What is said of the failure; nothing for a size that denotes nothing. -/
def message : ParseError → String
  | unexpected want t => want.text ++ " (found '" ++ t.lexeme ++ "')"
  | noExpression _ => "Expected expression"
  | outOfTokens => "list index out of range"
  | badArraySize s => Text.badNumeralMessage 10 s
  | noArraySize => ""

/-- The token at which the program stops being one. -/
def token? : ParseError → Option Token
  | unexpected _ t | noExpression t => some t
  | _ => none

end ParseError

namespace Parse

/-- A value that was read, and the tokens after it, of which there are fewer than `n`. -/
structure Parsed (α : Type) (n : Nat) where
  value : α
  rest : List Token
  rest_lt : rest.length < n

/-- The result of a rule that leaves fewer than `n` tokens. -/
abbrev Result (α : Type) (n : Nat) := Except ParseError (Parsed α n)

abbrev SourceExpr := Expr Unit

abbrev SourceStmt := Stmt Unit

def nextIs (k : Token.Kind) : List Token → Except ParseError Bool
  | [] => .error .outOfTokens
  | t :: _ => .ok (t.kind == k)

def expect (k : Token.Kind) (want : Expected) (ts : List Token) : Result Token ts.length :=
  match ts with
  | [] => .error .outOfTokens
  | t :: r => if t.kind == k then .ok ⟨t, r, Nat.lt_succ_self _⟩ else .error (.unexpected want t)

def accept (k : Token.Kind) (ts : List Token) : Result Bool (ts.length + 1) :=
  match ts with
  | [] => .error .outOfTokens
  | t :: r =>
    if t.kind == k then .ok ⟨true, r, by simp only [List.length_cons]; omega⟩
    else .ok ⟨false, t :: r, Nat.lt_succ_self _⟩

def arraySize (t : Token) : Except ParseError Int :=
  match t.value with
  | some (.number n) => .ok n
  | some (.text s) => match Text.readInt? s with
    | some n => .ok n
    | none => .error (.badArraySize s)
  | none => .error .noArraySize

/-- Reads the name of a type: one word, and after `int` possibly a size in brackets. -/
def typeName (ts : List Token) : Result String ts.length :=
  match ts with
  | [] => .error .outOfTokens
  | t :: r =>
    let base? := match t.kind with
      | .kwInt => some "int"
      | .kwStr => some "str"
      | .kwVoid => some "void"
      | .kwPtr => some "ptr"
      | .identifier => some t.lexeme
      | _ => none
    match base? with
    | none => .error (.unexpected .typeName t)
    | some base => do
      if base != "int" then
        return ⟨base, r, Nat.lt_succ_self _⟩
      let ⟨bracket, r₁, h₁⟩ ← accept .leftBracket r
      if bracket then
        let ⟨size, r₂, h₂⟩ ← expect .number .arraySize r₁
        let ⟨_, r₃, h₃⟩ ← expect .rightBracket .arraySizeClose r₂
        let n ← arraySize size
        return ⟨"int[" ++ toString n ++ "]", r₃, by simp only [List.length_cons]; omega⟩
      else
        return ⟨base, r₁, by simpa using h₁⟩

/-- The operators of two operands by how tightly they bind, the loosest first. -/
def tiers : List (List Token.Kind) :=
  [[.orOr], [.andAnd], [.equalEqual, .bangEqual], [.greater, .greaterEqual, .less, .lessEqual],
   [.plus, .minus], [.star, .slash]]

theorem tiers_length : tiers.length = 6 := rfl

/-- The literal that a number or string token denotes. -/
def literalOf (t : Token) : Literal :=
  match t.value with
  | some (.number n) => .int n
  | some (.text s) => .str s
  | none => .none

mutual

/-- Reads operands of the tightest tiers joined by the operators of `ops`, from the left. -/
def tier (ops : List (List Token.Kind)) (ts : List Token) : Result SourceExpr ts.length :=
  match ops with
  | [] => unary ts
  | loosest :: tighter => do
    let ⟨left, r, h⟩ ← tier tighter ts
    let ⟨e, r', h'⟩ ← tierRest loosest tighter left r
    return ⟨e, r', by omega⟩
termination_by 20 * ts.length + 3 + ops.length

/-- Goes on after the operand `left`. -/
def tierRest (loosest : List Token.Kind) (tighter : List (List Token.Kind)) (left : SourceExpr)
    (ts : List Token) : Result SourceExpr (ts.length + 1) :=
  match ts with
  | [] => .error .outOfTokens
  | t :: r =>
    if loosest.contains t.kind then do
      let ⟨right, r₁, h₁⟩ ← tier tighter r
      let ⟨e, r₂, h₂⟩ ← tierRest loosest tighter (.binary () (.ofText t.lexeme) left right) r₁
      return ⟨e, r₂, by simp only [List.length_cons]; omega⟩
    else return ⟨left, t :: r, Nat.lt_succ_self _⟩
termination_by 20 * ts.length + 3 + tighter.length

/-- Reads an operand with the operators that stand before it. -/
def unary (ts : List Token) : Result SourceExpr ts.length :=
  match ts with
  | [] => .error .outOfTokens
  | t :: r =>
    if t.kind == .amp then do
      let ⟨e, r', h'⟩ ← unary r
      return ⟨.addr () e, r', by simp only [List.length_cons]; omega⟩
    else if t.kind == .bang || t.kind == .minus then do
      let ⟨e, r', h'⟩ ← unary r
      return ⟨.unary () (.ofText t.lexeme) e, r', by simp only [List.length_cons]; omega⟩
    else do
      let ⟨e, r₁, h₁⟩ ← primary (t :: r)
      let ⟨e', r₂, h₂⟩ ← postfixes e r₁
      return ⟨e', r₂, by omega⟩
termination_by 20 * ts.length + 2
decreasing_by all_goals simp only [List.length_cons] at *; omega

/-- Goes on after `e` with calls, which only a name takes, and indices. -/
def postfixes (e : SourceExpr) (ts : List Token) : Result SourceExpr (ts.length + 1) :=
  match ts with
  | [] => .error .outOfTokens
  | t :: r =>
    match e, t.kind with
    | .var _ f, .leftParen => do
      if ← nextIs .rightParen r then
        let ⟨_, r₁, h₁⟩ ← expect .rightParen .argsClose r
        let ⟨e', r₂, h₂⟩ ← postfixes (.call () f []) r₁
        return ⟨e', r₂, by simp only [List.length_cons]; omega⟩
      else
        let ⟨as, r₁, h₁⟩ ← arguments r
        let ⟨_, r₂, h₂⟩ ← expect .rightParen .argsClose r₁
        let ⟨e', r₃, h₃⟩ ← postfixes (.call () f as) r₂
        return ⟨e', r₃, by simp only [List.length_cons]; omega⟩
    | _, .leftBracket => do
      let ⟨i, r₁, h₁⟩ ← tier tiers r
      let ⟨_, r₂, h₂⟩ ← expect .rightBracket .indexClose r₁
      let ⟨e', r₃, h₃⟩ ← postfixes (.index () e i) r₂
      return ⟨e', r₃, by simp only [List.length_cons]; omega⟩
    | _, _ => return ⟨e, t :: r, Nat.lt_succ_self _⟩
termination_by 20 * ts.length + 1
decreasing_by all_goals have := tiers_length; simp only [List.length_cons] at *; omega

/-- Reads one or more expressions with commas between them. -/
def arguments (ts : List Token) : Result (List SourceExpr) ts.length := do
  let ⟨e, r₁, h₁⟩ ← tier tiers ts
  let ⟨comma, r₂, h₂⟩ ← accept .comma r₁
  if comma then
    let ⟨es, r₃, h₃⟩ ← arguments r₂
    return ⟨e :: es, r₃, by omega⟩
  else return ⟨[e], r₂, by omega⟩
termination_by 20 * ts.length + 10
decreasing_by all_goals have := tiers_length; omega

/-- Reads a literal, a name or an expression in parentheses. -/
def primary (ts : List Token) : Result SourceExpr ts.length :=
  match ts with
  | [] => .error .outOfTokens
  | t :: r =>
    match t.kind with
    | .kwFalse => .ok ⟨.lit () (.bool false), r, Nat.lt_succ_self _⟩
    | .kwTrue => .ok ⟨.lit () (.bool true), r, Nat.lt_succ_self _⟩
    | .number | .string => .ok ⟨.lit () (literalOf t), r, Nat.lt_succ_self _⟩
    | .identifier => .ok ⟨.var () t.lexeme, r, Nat.lt_succ_self _⟩
    | .leftParen => do
      let ⟨e, r₁, h₁⟩ ← tier tiers r
      let ⟨_, r₂, h₂⟩ ← expect .rightParen .groupClose r₁
      return ⟨e, r₂, by simp only [List.length_cons]; omega⟩
    | _ => .error (.noExpression t)
termination_by 20 * ts.length
decreasing_by all_goals have := tiers_length; simp only [List.length_cons] at *; omega

end

def expression (ts : List Token) : Result SourceExpr ts.length := tier tiers ts

def instructionLine (lexemes : List String) : String := Text.trim (" ".intercalate lexemes)

/-- Reads the lines of a block of machine instructions up to its closing brace. Each line ends
with a semicolon; `line` holds the lexemes read since the last one, and lexemes without a
semicolon after them are dropped. -/
def instructionLines (line : List String) (ts : List Token) : Result (List String) ts.length :=
  match ts with
  | [] => .error .outOfTokens
  | t :: r =>
    if t.kind == .rightBrace then .ok ⟨[], r, Nat.lt_succ_self _⟩
    else if t.kind == .eof then .error (.unexpected .vmAsmClose t)
    else if t.kind == .semicolon then do
      let text := instructionLine (line ++ [t.lexeme])
      let ⟨lines, r', h'⟩ ← instructionLines [] r
      return ⟨if text.isEmpty then lines else text :: lines, r', by
        simp only [List.length_cons]; omega⟩
    else do
      let ⟨lines, r', h'⟩ ← instructionLines (line ++ [t.lexeme]) r
      return ⟨lines, r', by simp only [List.length_cons]; omega⟩

/-- Reads a condition between parentheses. -/
def test (want : Expected) (ts : List Token) : Result SourceExpr ts.length := do
  let ⟨_, r₁, h₁⟩ ← expect .leftParen want ts
  let ⟨e, r₂, h₂⟩ ← expression r₁
  let ⟨_, r₃, h₃⟩ ← expect .rightParen .testClose r₂
  return ⟨e, r₃, by omega⟩

/-- Reads a colon and the name of a type after it, if there is a colon. -/
def writtenType (ts : List Token) : Result (Option String) (ts.length + 1) := do
  let ⟨colon, r₁, h₁⟩ ← accept .colon ts
  if colon then
    let ⟨t, r₂, h₂⟩ ← typeName r₁
    return ⟨some t, r₂, by omega⟩
  else return ⟨none, r₁, h₁⟩

/-- Reads an equals sign and an expression after it, if there is an equals sign. -/
def initialValue (ts : List Token) : Result (Option SourceExpr) (ts.length + 1) := do
  let ⟨equal, r₁, h₁⟩ ← accept .equal ts
  if equal then
    let ⟨e, r₂, h₂⟩ ← expression r₁
    return ⟨some e, r₂, by omega⟩
  else return ⟨none, r₁, h₁⟩

/-- Reads a declaration after its `let`. -/
def declaration (ts : List Token) : Result SourceStmt ts.length := do
  let ⟨name, r₁, h₁⟩ ← expect .identifier .variableName ts
  let ⟨type?, r₂, h₂⟩ ← writtenType r₁
  let ⟨init?, r₃, h₃⟩ ← initialValue r₂
  let ⟨_, r₄, h₄⟩ ← expect .semicolon .declEnd r₃
  return ⟨.decl name.lexeme type? init?, r₄, by omega⟩

/-- Reads a print statement after its first word. -/
def printStatement (newline : Bool) (ts : List Token) : Result SourceStmt ts.length := do
  let ⟨_, r₁, h₁⟩ ← expect .leftParen (.printOpen newline) ts
  let ⟨e, r₂, h₂⟩ ← expression r₁
  let ⟨_, r₃, h₃⟩ ← expect .rightParen (.printClose newline) r₂
  let ⟨_, r₄, h₄⟩ ← expect .semicolon (.printEnd newline) r₃
  return ⟨.print newline e, r₄, by omega⟩

/-- Reads assembly text after its `asm`. -/
def asmStatement (ts : List Token) : Result SourceStmt ts.length := do
  let ⟨t, r₁, h₁⟩ ← expect .string .asmText ts
  let ⟨_, r₂, h₂⟩ ← expect .semicolon .asmEnd r₁
  let text := match t.value with
    | some (.text s) => s
    | some (.number n) => toString n
    | none => ""
  return ⟨.asm text, r₂, by omega⟩

/-- Reads a block of machine instructions after its `vm_asm`. -/
def vmAsmStatement (ts : List Token) : Result SourceStmt ts.length := do
  let ⟨_, r₁, h₁⟩ ← expect .leftBrace .vmAsmOpen ts
  let ⟨lines, r₂, h₂⟩ ← instructionLines [] r₁
  return ⟨.vmAsm ("\n".intercalate lines), r₂, by omega⟩

def returnStatement (ts : List Token) : Result SourceStmt ts.length := do
  if ← nextIs .semicolon ts then
    let ⟨_, r, h⟩ ← expect .semicolon .returnEnd ts
    return ⟨.ret none, r, h⟩
  else
    let ⟨e, r₁, h₁⟩ ← expression ts
    let ⟨_, r₂, h₂⟩ ← expect .semicolon .returnEnd r₁
    return ⟨.ret (some e), r₂, by omega⟩

def expressionStatement (ts : List Token) : Result SourceStmt ts.length := do
  let ⟨e, r₁, h₁⟩ ← expression ts
  let ⟨equal, r₂, h₂⟩ ← accept .equal r₁
  if equal then
    let ⟨v, r₃, h₃⟩ ← expression r₂
    let ⟨_, r₄, h₄⟩ ← expect .semicolon .assignEnd r₃
    return ⟨.assign e v, r₄, by omega⟩
  else
    let ⟨_, r₃, h₃⟩ ← expect .semicolon .exprEnd r₂
    return ⟨.expr e, r₃, by omega⟩

mutual

/-- Reads a statement other than a declaration. -/
def statement (ts : List Token) : Result SourceStmt ts.length :=
  match ts with
  | [] => .error .outOfTokens
  | t :: r =>
    match t.kind with
    | .kwPrint => do
      let ⟨s, r', h'⟩ ← printStatement false r
      return ⟨s, r', Nat.lt_succ_of_lt h'⟩
    | .kwPrintln => do
      let ⟨s, r', h'⟩ ← printStatement true r
      return ⟨s, r', Nat.lt_succ_of_lt h'⟩
    | .kwAsm => do
      let ⟨s, r', h'⟩ ← asmStatement r
      return ⟨s, r', Nat.lt_succ_of_lt h'⟩
    | .kwVmAsm => do
      let ⟨s, r', h'⟩ ← vmAsmStatement r
      return ⟨s, r', Nat.lt_succ_of_lt h'⟩
    | .kwReturn => do
      let ⟨s, r', h'⟩ ← returnStatement r
      return ⟨s, r', Nat.lt_succ_of_lt h'⟩
    | .kwIf => do
      let ⟨c, r₁, h₁⟩ ← test .ifOpen r
      let ⟨thenBody, r₂, h₂⟩ ← block r₁
      let ⟨hasElse, r₃, h₃⟩ ← accept .kwElse r₂
      if hasElse then
        let ⟨elseBody, r₄, h₄⟩ ← block r₃
        return ⟨.cond c thenBody (some elseBody), r₄, by simp only [List.length_cons]; omega⟩
      else
        return ⟨.cond c thenBody none, r₃, by simp only [List.length_cons]; omega⟩
    | .kwWhile => do
      let ⟨c, r₁, h₁⟩ ← test .whileOpen r
      let ⟨body, r₂, h₂⟩ ← block r₁
      return ⟨.loop c body, r₂, by simp only [List.length_cons]; omega⟩
    | _ => expressionStatement (t :: r)
termination_by 3 * ts.length

/-- Reads statements and declarations up to the closing brace of their block. -/
def blockRest (ts : List Token) : Result (List SourceStmt) ts.length :=
  match ts with
  | [] => .error .outOfTokens
  | t :: r =>
    if t.kind == .rightBrace then .ok ⟨[], r, Nat.lt_succ_self _⟩
    else if t.kind == .kwLet then do
      let ⟨s, r₁, h₁⟩ ← declaration r
      let ⟨ss, r₂, h₂⟩ ← blockRest r₁
      return ⟨s :: ss, r₂, by simp only [List.length_cons]; omega⟩
    else do
      let ⟨s, r₁, h₁⟩ ← statement (t :: r)
      let ⟨ss, r₂, h₂⟩ ← blockRest r₁
      return ⟨s :: ss, r₂, by omega⟩
termination_by 3 * ts.length + 1
decreasing_by all_goals simp only [List.length_cons] at *; omega

/-- Reads a block with its braces. -/
def block (ts : List Token) : Result (List SourceStmt) ts.length := do
  let ⟨_, r₁, h₁⟩ ← expect .leftBrace .blockOpen ts
  let ⟨ss, r₂, h₂⟩ ← blockRest r₁
  return ⟨ss, r₂, by omega⟩
termination_by 3 * ts.length + 2

end

/-- Reads one or more parameters with commas between them. -/
def parameters (ts : List Token) : Result (List Param) ts.length := do
  let ⟨name, r₁, h₁⟩ ← expect .identifier .paramName ts
  let ⟨_, r₂, h₂⟩ ← expect .colon .paramColon r₁
  let ⟨type, r₃, h₃⟩ ← typeName r₂
  let ⟨comma, r₄, h₄⟩ ← accept .comma r₃
  if comma then
    let ⟨ps, r₅, h₅⟩ ← parameters r₄
    return ⟨⟨name.lexeme, type⟩ :: ps, r₅, by omega⟩
  else return ⟨[⟨name.lexeme, type⟩], r₄, by omega⟩
termination_by ts.length

/-- Reads parameters up to a closing parenthesis, of which there may be none. -/
def parameterList (ts : List Token) : Result (List Param) (ts.length + 1) := do
  if ← nextIs .rightParen ts then return ⟨[], ts, Nat.lt_succ_self _⟩
  else
    let ⟨ps, r, h⟩ ← parameters ts
    return ⟨ps, r, by omega⟩

def function (ts : List Token) : Result (Function Unit) ts.length := do
  let ⟨_, r₁, h₁⟩ ← expect .kwFn .fn ts
  let ⟨name, r₂, h₂⟩ ← expect .identifier .functionName r₁
  let ⟨_, r₃, h₃⟩ ← expect .leftParen .paramsOpen r₂
  let ⟨params, r₄, h₄⟩ ← parameterList r₃
  let ⟨_, r₅, h₅⟩ ← expect .rightParen .paramsClose r₄
  let ⟨type?, r₆, h₆⟩ ← writtenType r₅
  let ⟨body, r₇, h₇⟩ ← block r₆
  return ⟨⟨name.lexeme, params, type?, body⟩, r₇, by omega⟩

/-- Reads functions up to the end token. -/
def functions (ts : List Token) : Except ParseError (List (Function Unit)) :=
  match ts with
  | [] => .error .outOfTokens
  | t :: r =>
    if t.kind == .eof then .ok []
    else do
      let ⟨f, r', _h⟩ ← function (t :: r)
      let fs ← functions r'
      return f :: fs
termination_by ts.length
decreasing_by assumption

end Parse

def parse (ts : List Token) : Except ParseError (Program Unit) := do
  return ⟨← Parse.functions ts⟩

end Workbench.Program
