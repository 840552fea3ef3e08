import Workbench.Text.Numeral
import Workbench.Token

/-!
# Source text as tokens

The `Lexer`: source text is cut into pieces, each of which carries one token or none: blanks, comments
and characters that start no token carry none. `pieceAt` decides where the next piece ends, and `tokens`
collects the tokens with their positions.
-/

namespace Workbench.Token

/-- A place in the source, counted from 1. -/
structure Pos where
  line : Nat
  col : Nat
  deriving DecidableEq, Repr

namespace Pos

def start : Pos := ⟨1, 1⟩

def step (p : Pos) (c : Char) : Pos :=
  if c == '\n' then ⟨p.line + 1, 1⟩ else ⟨p.line, p.col + 1⟩

def after (p : Pos) (cs : List Char) : Pos := cs.foldl step p

end Pos

/-- Digits that denote no number in their base. -/
structure BadNumber where
  base : Nat
  digits : String
  deriving DecidableEq, Repr

def BadNumber.message (e : BadNumber) : String := Text.badNumeralMessage e.base e.digits

/-- A piece of source text: its first character and `extra` more. -/
structure Piece where
  extra : Nat
  found : Option (Kind × Option Value)

namespace Piece

def skip (extra : Nat) : Piece := ⟨extra, none⟩

/-- A token that denotes nothing but itself. -/
def plain (extra : Nat) (k : Kind) : Piece := ⟨extra, some (k, none)⟩

end Piece

/-- The token of a character that is one by itself, whatever follows. -/
def symbol? : Char → Option Kind
  | '(' => some .leftParen
  | ')' => some .rightParen
  | '{' => some .leftBrace
  | '}' => some .rightBrace
  | '[' => some .leftBracket
  | ']' => some .rightBracket
  | ',' => some .comma
  | '.' => some .dot
  | '-' => some .minus
  | '+' => some .plus
  | ';' => some .semicolon
  | '*' => some .star
  | ':' => some .colon
  | _ => none

/-- The token of a character that may join with an equals sign: alone, and joined. -/
def comparison? : Char → Option (Kind × Kind)
  | '!' => some (.bang, .bangEqual)
  | '=' => some (.equal, .equalEqual)
  | '<' => some (.less, .lessEqual)
  | '>' => some (.greater, .greaterEqual)
  | _ => none

/-- A digit of a hexadecimal number. -/
def isHexDigit (c : Char) : Bool :=
  Text.isDigit c || ('a' ≤ c && c ≤ 'f') || ('A' ≤ c && c ≤ 'F')

/-- A string from its opening quote on: up to the closing quote, or to the end of the text, where
it denotes the empty string. -/
def stringPiece (cs : List Char) : Piece :=
  let body := cs.takeWhile (· != '"')
  if body.length < cs.length then
    ⟨body.length + 1, some (.string, some (.text (String.ofList body)))⟩
  else ⟨body.length, some (.string, some (.text ""))⟩

/-- A hexadecimal number, where `cs` follows its mark. No digits denote zero. -/
def hexPiece (cs : List Char) : Except BadNumber Piece :=
  let digits := cs.takeWhile isHexDigit
  let value? := if digits.isEmpty then some 0 else Text.readHex? (String.ofList digits)
  match value? with
  | some n => .ok ⟨digits.length + 1, some (.number, some (.number n))⟩
  | none => .error ⟨16, String.ofList digits⟩

def decimalPiece (c : Char) (cs : List Char) : Except BadNumber Piece :=
  let digits := cs.takeWhile Text.isDigit
  match Text.readInt? (String.ofList (c :: digits)) with
  | some n => .ok ⟨digits.length, some (.number, some (.number n))⟩
  | none => .error ⟨10, String.ofList (c :: digits)⟩

/-- A number from its first digit on. -/
def numberPiece (c : Char) (cs : List Char) : Except BadNumber Piece :=
  match cs with
  | m :: ds => if c == '0' && (m == 'x' || m == 'X') then hexPiece ds else decimalPiece c cs
  | [] => decimalPiece c cs

/-- A word from its first character on. -/
def wordPiece (c : Char) (cs : List Char) : Piece :=
  let more := cs.takeWhile Text.isWordChar
  .plain more.length (Kind.ofWord (String.ofList (c :: more)))

def pieceAt (c : Char) (cs : List Char) : Except BadNumber Piece :=
  if c == ' ' || c == '\r' || c == '\t' || c == '\n' then .ok (.skip 0)
  else match symbol? c with
  | some k => .ok (.plain 0 k)
  | none => match comparison? c with
  | some (alone, joined) =>
    .ok (if cs.head? == some '=' then .plain 1 joined else .plain 0 alone)
  | none =>
    if c == '|' then .ok (if cs.head? == some '|' then .plain 1 .orOr else .skip 0)
    else if c == '&' then .ok (if cs.head? == some '&' then .plain 1 .andAnd else .plain 0 .amp)
    else if c == '/' then
      .ok (if cs.head? == some '/' then .skip (cs.takeWhile (· != '\n')).length else .plain 0 .slash)
    else if c == '"' then .ok (stringPiece cs)
    else if Text.isDigit c then numberPiece c cs
    else if Text.isLetter c || c == '_' then .ok (wordPiece c cs)
    else .ok (.skip 0)

def Piece.tokens (p : Piece) (text : List Char) (after : Pos) : List Token :=
  match p.found with
  | some (kind, value) =>
    [⟨kind, String.ofList text, after.line, (after.col : Int) - text.length, value⟩]
  | none => []

/-- The tokens of the text that stands at `pos`, with the end of the text as the last one. -/
def tokensFrom (pos : Pos) : List Char → Except BadNumber (List Token)
  | [] => .ok [⟨.eof, "", pos.line, pos.col, none⟩]
  | c :: cs => do
    let piece ← pieceAt c cs
    let text := c :: cs.take piece.extra
    let after := pos.after text
    let more ← tokensFrom after (cs.drop piece.extra)
    return piece.tokens text after ++ more
termination_by cs => cs.length
decreasing_by simp only [List.length_drop, List.length_cons]; omega

def tokens (source : String) : Except BadNumber (List Token) := tokensFrom .start source.toList

end Workbench.Token
