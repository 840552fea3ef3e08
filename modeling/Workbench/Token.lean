import Workbench.Text.Quoted

/-!
# Tokens

The tokens of the language: a kind, the source text it was read from (its lexeme), the place where
it stands and, for numbers and strings, the value it denotes.
-/

namespace Workbench

inductive Token.Kind where
  | leftParen | rightParen | leftBrace | rightBrace | leftBracket | rightBracket
  | comma | dot | minus | plus | semicolon | slash | star | colon | equal | amp
  | bang | bangEqual | equalEqual | greater | greaterEqual | less | lessEqual | andAnd | orOr
  | identifier | string | number
  | kwFn | kwLet | kwReturn | kwIf | kwElse | kwWhile | kwTrue | kwFalse
  | kwInt | kwStr | kwVoid | kwPtr | kwPrint | kwPrintln | kwAsm | kwVmAsm
  | eof
  deriving DecidableEq, Repr

namespace Token.Kind

def names : List (Kind × String) :=
  [(leftParen, "LEFT_PAREN"), (rightParen, "RIGHT_PAREN"), (leftBrace, "LEFT_BRACE"),
   (rightBrace, "RIGHT_BRACE"), (leftBracket, "LEFT_BRACKET"), (rightBracket, "RIGHT_BRACKET"),
   (comma, "COMMA"), (dot, "DOT"), (minus, "MINUS"), (plus, "PLUS"), (semicolon, "SEMICOLON"),
   (slash, "SLASH"), (star, "STAR"), (colon, "COLON"), (equal, "EQUAL"), (amp, "AMP"),
   (bang, "BANG"), (bangEqual, "BANG_EQUAL"), (equalEqual, "EQUAL_EQUAL"), (greater, "GREATER"),
   (greaterEqual, "GREATER_EQUAL"), (less, "LESS"), (lessEqual, "LESS_EQUAL"),
   (andAnd, "AND_AND"), (orOr, "OR_OR"), (identifier, "IDENTIFIER"), (string, "STRING"),
   (number, "NUMBER"), (kwFn, "FN"), (kwLet, "LET"), (kwReturn, "RETURN"), (kwIf, "IF"),
   (kwElse, "ELSE"), (kwWhile, "WHILE"), (kwTrue, "TRUE"), (kwFalse, "FALSE"), (kwInt, "INT"),
   (kwStr, "STR"), (kwVoid, "VOID"), (kwPtr, "PTR"), (kwPrint, "PRINT"),
   (kwPrintln, "PRINTLN"), (kwAsm, "ASM"), (kwVmAsm, "VM_ASM"), (eof, "EOF")]

def name (k : Kind) : String := ((names.find? fun p => p.1 == k).map (·.2)).getD ""

def ofName? (s : String) : Option Kind := (names.find? fun p => p.2 == s).map (·.1)

/-- The words of the language that are not names. -/
def keywords : List (String × Kind) :=
  [("fn", kwFn), ("let", kwLet), ("return", kwReturn), ("if", kwIf), ("else", kwElse),
   ("while", kwWhile), ("true", kwTrue), ("false", kwFalse), ("int", kwInt), ("str", kwStr),
   ("void", kwVoid), ("print", kwPrint), ("println", kwPrintln), ("ptr", kwPtr), ("asm", kwAsm),
   ("vm_asm", kwVmAsm)]

def ofWord (word : String) : Kind := (keywords.lookup word).getD identifier

end Token.Kind

/-- What a number or string token denotes. -/
inductive Token.Value where
  | number (n : Int)
  | text (s : String)
  deriving DecidableEq, Repr

/-- A token. Its column can be zero or negative: a token that spans several lines is placed by
its length before the column where it ends. -/
structure Token where
  kind : Token.Kind
  lexeme : String
  line : Nat
  col : Int
  value : Option Token.Value := none
  deriving DecidableEq, Repr

namespace Token

/-- The value of a token as its description shows it. -/
def Value.describe : Value → String
  | .number n => toString n
  | .text s => Text.quoted s

def describe (t : Token) : String :=
  let shown := match t.value with
    | some v => " " ++ v.describe
    | none => ""
  t.kind.name ++ " '" ++ t.lexeme ++ "'" ++ shown ++ " (@" ++ toString t.line ++ ":" ++
    toString t.col ++ ")"

end Token

end Workbench
