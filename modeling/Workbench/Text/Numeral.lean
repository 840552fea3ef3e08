import Workbench.Text.Blank
import Workbench.Text.Digit
import Workbench.Text.Quoted

/-!
# Integer numerals

How a text is read as an integer. Blanks may stand around it and one sign before it; decimal
digits of every script count, and single underscores may stand between digits. In a fixed base
nothing else is allowed. With the base left open, `0x`, `0o` and `0b` choose it (an underscore
may follow), and without one a number other than zero does not start with `0`.
-/

namespace Workbench.Text

/-- A character of a numeral in its plain form: decimal digits of any script become ASCII digits,
blanks outside ASCII become spaces, and what can stand in no numeral becomes `?`. -/
def plainNumeralChar (c : Char) : Char :=
  if c.toNat < 127 then c
  else if isBlank c then ' '
  else match decimalValue? c with
    | some d => Char.ofNat (48 + d)
    | none => '?'

/-- The blanks that may stand around a numeral, in its plain form. -/
def isNumeralBlank (c : Char) : Bool :=
  c == ' ' || (9 ≤ c.toNat && c.toNat ≤ 13)

def digitValue? (c : Char) : Option Nat :=
  if c.isDigit then some (c.toNat - 48)
  else if c.isLower then some (c.toNat - 87)
  else if c.isUpper then some (c.toNat - 55)
  else none

/-- The value of a digit that exists in the given base. -/
def digitIn? (base : Nat) (c : Char) : Option Nat :=
  (digitValue? c).filter (· < base)

/-- Reads digits and single underscores between digits, after a digit; `acc` is the value so
far. -/
def readDigitsFrom? (base acc : Nat) : List Char → Option Nat
  | [] => some acc
  | '_' :: c :: cs => (digitIn? base c).bind fun d => readDigitsFrom? base (acc * base + d) cs
  | c :: cs => (digitIn? base c).bind fun d => readDigitsFrom? base (acc * base + d) cs

/-- Reads a nonempty run of digits with single underscores between them. -/
def readDigits? (base : Nat) : List Char → Option Nat
  | [] => none
  | c :: cs => (digitIn? base c).bind fun d => readDigitsFrom? base d cs

/-- Drops one underscore, as it may stand between the mark of a base and the digits. -/
def dropUnderscore : List Char → List Char
  | '_' :: cs => cs
  | cs => cs

/-- Reads digits in the base that their mark chooses. -/
def readMarked? : List Char → Option Nat
  | '0' :: m :: cs =>
    if m == 'x' || m == 'X' then readDigits? 16 (dropUnderscore cs)
    else if m == 'o' || m == 'O' then readDigits? 8 (dropUnderscore cs)
    else if m == 'b' || m == 'B' then readDigits? 2 (dropUnderscore cs)
    else (readDigits? 10 ('0' :: m :: cs)).filter (· == 0)
  | cs => readDigits? 10 cs

def readSigned? (read : List Char → Option Nat) : List Char → Option Int
  | '-' :: cs => (read cs).map fun n => -(n : Int)
  | '+' :: cs => (read cs).map Int.ofNat
  | cs => (read cs).map Int.ofNat

/-- The numeral within `s`, in plain form and without the blanks around it. -/
def plainNumeral (s : String) : List Char :=
  trimBy isNumeralBlank (s.toList.map plainNumeralChar)

def readInt? (s : String) : Option Int :=
  readSigned? (readDigits? 10) (plainNumeral s)

/-- Reads an integer in base 16, without a mark. -/
def readHex? (s : String) : Option Int :=
  readSigned? (readDigits? 16) (plainNumeral s)

/-- Reads an integer in the base that it marks itself. -/
def readMarkedInt? (s : String) : Option Int :=
  readSigned? readMarked? (plainNumeral s)

/-- What is said of a text that is no integer in `base`: at most 200 characters of it, quoted. -/
def badNumeralMessage (base : Nat) (s : String) : String :=
  s!"invalid literal for int() with base {base}: " ++ String.ofList ((quoted s).toList.take 200)

end Workbench.Text
