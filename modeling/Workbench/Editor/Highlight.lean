import Workbench.Text.Blank
import Workbench.Text.Digit

/-!
# Highlighting

The `SyntaxHighlighter`: which parts of a text are shown as comments, strings, numbers, keywords, types
and built-in names. Each kind is found on its own, from left to right, so parts of different kinds may
overlap: a `//` inside a string is a comment too. Parts are given by offsets and turned into places of a
line and a column only where they are shown.
-/

namespace Workbench.Editor

/-- What a part of a text is shown as. -/
inductive Tag where
  | keyword | type | builtin | string | number | comment | operator
  deriving DecidableEq, Repr

namespace Tag

def name : Tag → String
  | keyword => "keyword"
  | type => "type"
  | builtin => "builtin"
  | string => "string"
  | number => "number"
  | comment => "comment"
  | operator => "operator"

def all : List Tag := [keyword, type, builtin, string, number, comment, operator]

end Tag

/-- A part of a text, from the offset `start` up to but not including `stop`. -/
structure Span where
  start : Nat
  stop : Nat
  deriving DecidableEq, Repr

/-- The parts that `length?` finds at the places of `cs`, which stands at the offset `pos` behind the character
`before`, from left to right. `skip` characters belong to a part already. -/
def partsFrom (length? : Option Char → List Char → Option Nat) (pos skip : Nat) (before : Option Char) :
    List Char → List Span
  | [] => []
  | c :: cs =>
    match skip with
    | skip + 1 => partsFrom length? (pos + 1) skip (some c) cs
    | 0 => match length? before (c :: cs) with
      | some n => ⟨pos, pos + n⟩ :: partsFrom length? (pos + 1) (n - 1) (some c) cs
      | none => partsFrom length? (pos + 1) 0 (some c) cs

/-- The length of a comment: from `//` to the end of the line. -/
def commentLength? (cs : List Char) : Option Nat :=
  if ['/', '/'].isPrefixOf cs then some (cs.takeWhile (· != '\n')).length else none

/-- The length of the rest of a string after its opening quote, with the closing quote. A backslash
takes the next character with it, which is no newline. -/
def stringRest? : List Char → Option Nat
  | [] => none
  | '"' :: _ => some 1
  | '\\' :: c :: cs => if c == '\n' then none else (stringRest? cs).map (· + 2)
  | '\\' :: [] => none
  | _ :: cs => (stringRest? cs).map (· + 1)

/-- The length of a string. -/
def stringLength? : List Char → Option Nat
  | '"' :: cs => (stringRest? cs).map (· + 1)
  | _ => none

/-- The length of a word that is chosen, with as much of what follows as `more` says. A word is a longest run of word
characters. -/
def wordLength? (chosen : List Char → Bool) (more : List Char → Nat) (before : Option Char) (cs : List Char) :
    Option Nat :=
  if before.any Text.isWordChar then none
  else
    let word := cs.takeWhile Text.isWordChar
    if !word.isEmpty && chosen word then some (word.length + more (cs.drop word.length)) else none

/-- A number in decimal digits of any script, or in hexadecimal after `0x`. -/
def isNumber (word : List Char) : Bool :=
  word.all Text.isDecimal ||
    match word with
    | '0' :: 'x' :: ds => !ds.isEmpty && ds.all fun c =>
      c.isDigit || ('a' ≤ c && c ≤ 'f') || ('A' ≤ c && c ≤ 'F')
    | _ => false

/-- The length of a size in brackets at the front, if a word follows it in turn. -/
def sizeLength : List Char → Nat
  | '[' :: cs =>
    let digits := cs.takeWhile Text.isDecimal
    match cs.drop digits.length with
    | ']' :: c :: _ => if !digits.isEmpty && Text.isWordChar c then digits.length + 2 else 0
    | _ => 0
  | _ => 0

def keywordNames : List String := ["fn", "let", "if", "else", "while", "return", "true", "false"]

def typeNames : List String := ["int", "bool", "str", "ptr", "void"]

def builtinNames : List String :=
  ["print", "println", "load16", "store16", "memcpy", "memset", "array_push", "array_pop"]

def isOneOf (names : List String) (word : List Char) : Bool := names.contains (String.ofList word)

/-- The length of a part shown as a tag, at the front of a text that stands behind a character. A type is shown with
its size. -/
def lengthOf? : Tag → Option Char → List Char → Option Nat
  | .comment => fun _ => commentLength?
  | .string => fun _ => stringLength?
  | .number => wordLength? isNumber fun _ => 0
  | .keyword => wordLength? (isOneOf keywordNames) fun _ => 0
  | .type => wordLength? (isOneOf typeNames) sizeLength
  | .builtin => wordLength? (isOneOf builtinNames) fun _ => 0
  | .operator => fun _ _ => none

/-- The parts of a text that are shown as a tag. -/
def spansOf (t : Tag) (cs : List Char) : List Span := partsFrom (lengthOf? t) 0 0 none cs

/-- The parts of a text and what they are shown as, kind after kind. -/
def highlights (cs : List Char) : List (Tag × Span) :=
  [Tag.comment, .string, .number, .keyword, .type, .builtin].flatMap fun t => (spansOf t cs).map (t, ·)

end Workbench.Editor
