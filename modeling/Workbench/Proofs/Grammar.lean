import Workbench.Proofs.Rules

/-!
# The grammar as rules

Each function that reads a part of a program is an equation between rules. The equations are all that the theory of
reading uses of the functions.
-/

namespace Workbench.Program.Parse

open Token (Kind)

variable {α β : Type} {n m : Nat}

/-- What was read and what is left. -/
def outcome (x : Result α n) : Except ParseError (α × List Token) := x.map fun p => (p.value, p.rest)

section Outcome

variable {ts : List Token} {k : Kind}

theorem rule_apply {n : List Token → Nat} (f : ∀ ts, Result α (n ts)) (ts : List Token) : rule f ts = outcome (f ts) :=
  rfl

variable {yes no : Rule β} {x : Result α n} {r : Rule α}

theorem outcome_bind {f : Parsed α n → Result β m} {k : α → Rule β} (hx : outcome x = r ts)
    (hf : ∀ p, outcome (f p) = k p.value p.rest) : outcome (x >>= f) = (r >>= k) ts := by
  rw [bind_apply, ← hx]
  cases x with
  | error e => rfl
  | ok p => exact hf p

theorem outcome_last {h : ∀ p : Parsed α n, p.rest.length < m} (hx : outcome x = r ts) :
    outcome (x >>= fun p => pure (⟨p.value, p.rest, h p⟩ : Parsed α m)) = r ts := by
  rw [← hx]
  cases x <;> rfl

theorem outcome_expect (k : Kind) (want : Expected) (ts : List Token) :
    outcome (expect k want ts) = token k want ts := by
  cases ts with
  | nil => rfl
  | cons t ts =>
    by_cases h : (t.kind == k) = true
    · rw [expect, if_pos h, token, take, branch, if_pos h]
      rfl
    · rw [expect, if_neg h, token, take, branch, if_neg h]
      rfl

theorem outcome_accept {f : Parsed Bool (ts.length + 1) → Result β m} (hyes : ∀ r h, outcome (f ⟨true, r, h⟩) = yes r)
    (hno : ∀ r h, outcome (f ⟨false, r, h⟩) = no r) :
    outcome (accept k ts >>= f) = choose (· == k) (fun _ => yes) no ts := by
  cases ts with
  | nil => rfl
  | cons t ts =>
    by_cases h : (t.kind == k) = true
    · rw [accept, if_pos h, choose, branch, if_pos h]
      exact hyes ts _
    · rw [accept, if_neg h, choose, branch, if_neg h]
      exact hno (t :: ts) _

theorem outcome_nextIs {f : Bool → Result β m} (hyes : outcome (f true) = yes ts) (hno : outcome (f false) = no ts) :
    outcome (nextIs k ts >>= f) = branch (· == k) yes no ts := by
  cases ts with
  | nil => rfl
  | cons t ts =>
    by_cases h : (t.kind == k) = true
    · rw [nextIs, h, branch, if_pos h]
      exact hyes
    · rw [nextIs, Bool.eq_false_iff.2 h, branch, if_neg h]
      exact hno

end Outcome

/-! ### Types -/

def startsType : Kind → Bool := fun k => [.kwInt, .kwStr, .kwVoid, .kwPtr, .identifier].contains k

/-- The word that a type name starts with. -/
def baseName (t : Token) : String :=
  match t.kind with
  | .kwInt => "int"
  | .kwStr => "str"
  | .kwVoid => "void"
  | .kwPtr => "ptr"
  | _ => t.lexeme

def sizedName (size : Token) : Rule String := fun ts =>
  (arraySize size).map fun n => ("int[" ++ toString n ++ "]", ts)

/-- What comes after the first word of a type name. -/
def typeRest (base : String) : Rule String :=
  if base != "int" then return base
  else choose (· == .leftBracket)
    (fun _ => do
      let size ← token .number .arraySize
      let _ ← token .rightBracket .arraySizeClose
      sizedName size)
    (return base)

theorem rule_typeName : rule typeName = (do
    let t ← take startsType (.unexpected .typeName)
    typeRest (baseName t)) := by
  funext ts
  cases ts with
  | nil => rfl
  | cons t ts =>
    rw [rule_apply, typeName]
    split
    case h_1 hbase =>
      have ht : startsType t.kind = false := by
        split at hbase <;> cases hbase
        simpa [startsType] using ⟨‹_›, ‹_›, ‹_›, ‹_›, ‹_›⟩
      rw [bind_error (take_neg ht ts)]
      rfl
    case h_2 base hbase =>
      have ht : startsType t.kind = true ∧ baseName t = base := by
        unfold baseName
        split at hbase <;> cases hbase <;> simp [startsType, *]
      rw [bind_ok (take_pos ht.1 ts), ht.2, typeRest]
      cases hint : base != "int" with
      | true => rfl
      | false =>
        refine outcome_accept (fun r h => outcome_bind (outcome_expect ..) fun p =>
          outcome_bind (outcome_expect ..) fun q => ?_) fun r h => rfl
        rw [sizedName]
        cases arraySize p.value <;> rfl

/-! ### Expressions -/

theorem rule_expression : rule expression = rule (tier tiers) := rfl

theorem rule_tier_nil : rule (tier []) = rule unary := by
  funext ts
  rw [rule_apply, tier, rule_apply]

theorem rule_tier_cons (loosest : List Kind) (tighter : List (List Kind)) : rule (tier (loosest :: tighter)) = (do
    let left ← rule (tier tighter)
    rule (tierRest loosest tighter left)) := by
  funext ts
  rw [rule_apply, tier]
  exact outcome_bind rfl fun p => outcome_last rfl

theorem rule_tierRest (loosest : List Kind) (tighter : List (List Kind)) (left : SourceExpr) :
    rule (tierRest loosest tighter left) = choose loosest.contains
      (fun t => do
        let right ← rule (tier tighter)
        rule (tierRest loosest tighter (.binary () (.ofText t.lexeme) left right)))
      (return left) := by
  funext ts
  cases ts with
  | nil => rw [rule_apply, tierRest]; rfl
  | cons t ts =>
    rw [rule_apply, tierRest]
    cases h : loosest.contains t.kind with
    | true =>
      rw [choose_pos h]
      exact outcome_bind rfl fun p => outcome_last rfl
    | false =>
      rw [choose_neg h]
      rfl

theorem rule_unary : rule unary =
    choose (· == .amp) (fun _ => return .addr () (← rule unary))
      (choose (fun k => k == .bang || k == .minus) (fun t => return .unary () (.ofText t.lexeme) (← rule unary))
        (do
          let e ← rule primary
          rule (postfixes e))) := by
  funext ts
  cases ts with
  | nil => rw [rule_apply, unary]; rfl
  | cons t ts =>
    rw [rule_apply, unary]
    cases hamp : t.kind == .amp with
    | true =>
      rw [choose_pos hamp]
      exact outcome_bind rfl fun p => rfl
    | false =>
      rw [choose_neg hamp]
      cases hop : t.kind == .bang || t.kind == .minus with
      | true =>
        rw [choose_pos hop]
        exact outcome_bind rfl fun p => rfl
      | false =>
        rw [choose_neg hop]
        exact outcome_bind rfl fun p => outcome_last rfl

/-- The kinds that go on after the expression: a name is called, everything has an index. -/
def opens (e : SourceExpr) : Kind → Bool := fun k => k == .leftBracket || (k == .leftParen && e.varName?.isSome)

theorem rule_postfixes (e : SourceExpr) : rule (postfixes e) = choose (opens e)
    (fun t =>
      if t.kind == .leftBracket then do
        let i ← rule expression
        let _ ← token .rightBracket .indexClose
        rule (postfixes (.index () e i))
      else branch (· == .rightParen)
        (do
          let _ ← token .rightParen .argsClose
          rule (postfixes (.call () (e.varName?.getD "") [])))
        (do
          let args ← rule arguments
          let _ ← token .rightParen .argsClose
          rule (postfixes (.call () (e.varName?.getD "") args))))
    (return e) := by
  funext ts
  cases ts with
  | nil => rw [rule_apply, postfixes]; rfl
  | cons t ts =>
    rw [rule_apply, postfixes.eq_def]
    dsimp only
    split
    case h_1 f hk =>
      have ht : opens (.var () f) t.kind = true := by simp [opens, hk, Expr.varName?]
      rw [choose_pos ht, if_neg (by simp [hk])]
      exact outcome_nextIs (outcome_bind (outcome_expect ..) fun p => outcome_last rfl)
        (outcome_bind rfl fun p => outcome_bind (outcome_expect ..) fun q => outcome_last rfl)
    case h_2 e _ _ hk =>
      have ht : opens e t.kind = true := by simp [opens, hk]
      rw [choose_pos ht, if_pos (by simp [hk])]
      exact outcome_bind rfl fun p => outcome_bind (outcome_expect ..) fun q => outcome_last rfl
    case h_3 e _ _ hbracket hvar =>
      have ht : opens e t.kind = false := by
        cases e with
        | var u f => simpa [opens] using ⟨hbracket, fun hparen => (hvar u f rfl hparen).elim⟩
        | _ => simpa [opens, Expr.varName?] using hbracket
      rw [choose_neg ht]
      rfl

theorem rule_arguments : rule arguments = (do
    let e ← rule expression
    choose (· == .comma) (fun _ => return e :: (← rule arguments)) (return [e])) := by
  funext ts
  rw [rule_apply, arguments]
  exact outcome_bind rfl fun p => outcome_accept (fun r h => outcome_bind rfl fun q => rfl) fun r h => rfl

/-- The kinds that an operand without an operator starts with. -/
def startsPrimary : Kind → Bool := fun k => [.kwFalse, .kwTrue, .number, .string, .identifier, .leftParen].contains k

/-- What an operand is by its first token. -/
def primaryRest (t : Token) : Rule SourceExpr :=
  match t.kind with
  | .kwFalse => return .lit () (.bool false)
  | .kwTrue => return .lit () (.bool true)
  | .number | .string => return .lit () (literalOf t)
  | .identifier => return .var () t.lexeme
  | _ => do
    let e ← rule expression
    let _ ← token .rightParen .groupClose
    return e

theorem rule_primary : rule primary = (do
    let t ← take startsPrimary .noExpression
    primaryRest t) := by
  funext ts
  cases ts with
  | nil => rw [rule_apply, primary]; rfl
  | cons t ts =>
    rw [rule_apply, primary]
    cases ht : startsPrimary t.kind with
    | true =>
      rw [bind_ok (take_pos ht ts), primaryRest]
      split
      case h_6 hk =>
        rw [hk]
        exact outcome_bind rfl fun p => outcome_bind (outcome_expect ..) fun q => rfl
      case h_7 =>
        have hnot : startsPrimary t.kind = false := by
          simpa [startsPrimary] using ⟨‹_›, ‹_›, ‹_›, ‹_›, ‹_›, ‹_›⟩
        rw [hnot] at ht
        cases ht
      all_goals
        rename_i hk
        rw [hk]
        rfl
    | false =>
      rw [bind_error (take_neg ht ts)]
      split
      case h_7 => rfl
      all_goals
        rename_i hk
        rw [hk] at ht
        cases ht

/-! ### Statements -/

theorem rule_test (want : Expected) : rule (test want) = do
    let _ ← token .leftParen want
    let e ← rule expression
    let _ ← token .rightParen .testClose
    return e := by
  funext ts
  exact outcome_bind (outcome_expect ..) fun p => outcome_bind rfl fun q =>
    outcome_bind (outcome_expect ..) fun s => rfl

theorem rule_writtenType : rule writtenType =
    choose (· == .colon) (fun _ => return some (← rule typeName)) (return none) := by
  funext ts
  exact outcome_accept (fun r h => outcome_bind rfl fun p => rfl) fun r h => rfl

theorem rule_initialValue : rule initialValue =
    choose (· == .equal) (fun _ => return some (← rule expression)) (return none) := by
  funext ts
  exact outcome_accept (fun r h => outcome_bind rfl fun p => rfl) fun r h => rfl

theorem rule_declaration : rule declaration = do
    let name ← token .identifier .variableName
    let type? ← rule writtenType
    let init? ← rule initialValue
    let _ ← token .semicolon .declEnd
    return .decl name.lexeme type? init? := by
  funext ts
  exact outcome_bind (outcome_expect ..) fun p => outcome_bind rfl fun q => outcome_bind rfl fun s =>
    outcome_bind (outcome_expect ..) fun u => rfl

theorem rule_printStatement (newline : Bool) : rule (printStatement newline) = do
    let _ ← token .leftParen (.printOpen newline)
    let e ← rule expression
    let _ ← token .rightParen (.printClose newline)
    let _ ← token .semicolon (.printEnd newline)
    return .print newline e := by
  funext ts
  exact outcome_bind (outcome_expect ..) fun p => outcome_bind rfl fun q => outcome_bind (outcome_expect ..) fun s =>
    outcome_bind (outcome_expect ..) fun u => rfl

def textOf (t : Token) : String :=
  match t.value with
  | some (.text s) => s
  | some (.number n) => toString n
  | none => ""

theorem rule_asmStatement : rule asmStatement = do
    let t ← token .string .asmText
    let _ ← token .semicolon .asmEnd
    return .asm (textOf t) := by
  funext ts
  exact outcome_bind (outcome_expect ..) fun p => outcome_bind (outcome_expect ..) fun q => rfl

theorem rule_vmAsmStatement : rule vmAsmStatement = do
    let _ ← token .leftBrace .vmAsmOpen
    let lines ← rule (instructionLines [])
    return .vmAsm ("\n".intercalate lines) := by
  funext ts
  exact outcome_bind (outcome_expect ..) fun p => outcome_bind rfl fun q => rfl

theorem rule_returnStatement : rule returnStatement = branch (· == .semicolon)
    (do
      let _ ← token .semicolon .returnEnd
      return .ret none)
    (do
      let e ← rule expression
      let _ ← token .semicolon .returnEnd
      return .ret (some e)) := by
  funext ts
  exact outcome_nextIs (outcome_bind (outcome_expect ..) fun p => rfl)
    (outcome_bind rfl fun p => outcome_bind (outcome_expect ..) fun q => rfl)

theorem rule_expressionStatement : rule expressionStatement = (do
    let e ← rule expression
    choose (· == .equal)
      (fun _ => do
        let v ← rule expression
        let _ ← token .semicolon .assignEnd
        return .assign e v)
      (do
        let _ ← token .semicolon .exprEnd
        return .expr e)) := by
  funext ts
  exact outcome_bind rfl fun p => outcome_accept
    (fun r h => outcome_bind rfl fun q => outcome_bind (outcome_expect ..) fun s => rfl)
    fun r h => outcome_bind (outcome_expect ..) fun q => rfl

/-- The words that a statement starts with, `vm_asm` apart. -/
def startsStatement : Kind → Bool := fun k =>
  [.kwPrint, .kwPrintln, .kwAsm, .kwReturn, .kwIf, .kwWhile].contains k

/-- What a statement is by its first word. -/
def statementRest (t : Token) : Rule SourceStmt :=
  match t.kind with
  | .kwPrint => rule (printStatement false)
  | .kwPrintln => rule (printStatement true)
  | .kwAsm => rule asmStatement
  | .kwReturn => rule returnStatement
  | .kwIf => do
    let c ← rule (test .ifOpen)
    let thenBody ← rule block
    choose (· == .kwElse) (fun _ => return .cond c thenBody (some (← rule block))) (return .cond c thenBody none)
  | _ => do
    let c ← rule (test .whileOpen)
    return .loop c (← rule block)

theorem rule_statement : rule statement = choose (· == .kwVmAsm) (fun _ => rule vmAsmStatement)
    (choose startsStatement statementRest (rule expressionStatement)) := by
  funext ts
  cases ts with
  | nil => rw [rule_apply, statement]; rfl
  | cons t ts =>
    rw [rule_apply, statement]
    split
    case h_1 hk | h_2 hk | h_3 hk | h_5 hk =>
      rw [choose_neg (by rw [hk]; rfl), choose_pos (by rw [hk]; rfl), statementRest, hk]
      exact outcome_last rfl
    case h_4 hk =>
      rw [choose_pos (by rw [hk]; rfl)]
      exact outcome_last rfl
    case h_6 hk =>
      rw [choose_neg (by rw [hk]; rfl), choose_pos (by rw [hk]; rfl), statementRest, hk]
      exact outcome_bind rfl fun p => outcome_bind rfl fun q =>
        outcome_accept (fun r h => outcome_bind rfl fun s => rfl) fun r h => rfl
    case h_7 hk =>
      rw [choose_neg (by rw [hk]; rfl), choose_pos (by rw [hk]; rfl), statementRest, hk]
      exact outcome_bind rfl fun p => outcome_bind rfl fun q => rfl
    case h_8 =>
      have ht : startsStatement t.kind = false := by
        simpa [startsStatement] using ⟨‹_›, ‹_›, ‹_›, ‹_›, ‹_›, ‹_›⟩
      rw [choose_neg (by simpa using ‹t.kind = .kwVmAsm → False›), choose_neg ht]
      rfl

theorem rule_blockRest : rule blockRest = choose (· == .rightBrace) (fun _ => return [])
    (choose (· == .kwLet)
      (fun _ => do
        let s ← rule declaration
        return s :: (← rule blockRest))
      (do
        let s ← rule statement
        return s :: (← rule blockRest))) := by
  funext ts
  cases ts with
  | nil => rw [rule_apply, blockRest]; rfl
  | cons t ts =>
    rw [rule_apply, blockRest]
    cases hbrace : t.kind == .rightBrace with
    | true => rw [choose_pos hbrace]; rfl
    | false =>
      rw [choose_neg hbrace]
      cases hlet : t.kind == .kwLet with
      | true =>
        rw [choose_pos hlet]
        exact outcome_bind rfl fun p => outcome_bind rfl fun q => rfl
      | false =>
        rw [choose_neg hlet]
        exact outcome_bind rfl fun p => outcome_bind rfl fun q => rfl

theorem rule_block : rule block = (do
    let _ ← token .leftBrace .blockOpen
    rule blockRest) := by
  funext ts
  rw [rule_apply, block]
  exact outcome_bind (outcome_expect ..) fun p => outcome_last rfl

/-! ### Functions -/

theorem rule_parameters : rule parameters = (do
    let name ← token .identifier .paramName
    let _ ← token .colon .paramColon
    let type ← rule typeName
    choose (· == .comma) (fun _ => return ⟨name.lexeme, type⟩ :: (← rule parameters))
      (return [⟨name.lexeme, type⟩])) := by
  funext ts
  rw [rule_apply, parameters]
  exact outcome_bind (outcome_expect ..) fun p => outcome_bind (outcome_expect ..) fun q => outcome_bind rfl fun s =>
    outcome_accept (fun r h => outcome_bind rfl fun u => rfl) fun r h => rfl

theorem rule_parameterList : rule parameterList = branch (· == .rightParen) (return []) (rule parameters) := by
  funext ts
  exact outcome_nextIs rfl (outcome_last rfl)

theorem rule_function : rule function = do
    let _ ← token .kwFn .fn
    let name ← token .identifier .functionName
    let _ ← token .leftParen .paramsOpen
    let params ← rule parameterList
    let _ ← token .rightParen .paramsClose
    let type? ← rule writtenType
    let body ← rule block
    return ⟨name.lexeme, params, type?, body⟩ := by
  funext ts
  exact outcome_bind (outcome_expect ..) fun p => outcome_bind (outcome_expect ..) fun q =>
    outcome_bind (outcome_expect ..) fun s => outcome_bind rfl fun u => outcome_bind (outcome_expect ..) fun v =>
      outcome_bind rfl fun w => outcome_bind rfl fun x => rfl

end Workbench.Program.Parse
