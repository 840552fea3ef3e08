import Workbench.Json.Basic

/-!
# Reading JSON

A reader of JSON texts that says what is wrong with a text and where. It reads one value with blanks around
it. Names of numbers that are not finite are read too. The reader keeps the offset of the characters that
are left, so that it can say where it stopped.
-/

namespace Workbench.Json

inductive Problem where
  | noValue | noName | noColon | noComma | extraData
  | unterminated | controlCharacter | badEscape | badUnicodeEscape | byteOrderMark
  deriving DecidableEq, Repr

def Problem.text : Problem → String
  | noValue => "Expecting value"
  | noName => "Expecting property name enclosed in double quotes"
  | noColon => "Expecting ':' delimiter"
  | noComma => "Expecting ',' delimiter"
  | extraData => "Extra data"
  | unterminated => "Unterminated string starting at"
  | controlCharacter => "Invalid control character at"
  | badEscape => "Invalid \\escape"
  | badUnicodeEscape => "Invalid \\uXXXX escape"
  | byteOrderMark => "Unexpected UTF-8 BOM (decode using utf-8-sig)"

/-- Why a text is no JSON: a problem at an offset. -/
structure ReadError where
  problem : Problem
  offset : Nat
  deriving DecidableEq, Repr

/-- What is said of a text that is no JSON. -/
def ReadError.message (e : ReadError) (source : String) : String :=
  let before := source.toList.take e.offset
  let line := (before.filter (· == '\n')).length + 1
  let column := (before.reverse.takeWhile (· != '\n')).length + 1
  s!"{e.problem.text}: line {line} column {column} (char {e.offset})"

/-- Characters that are left, with the offset of the first of them. -/
structure Input where
  offset : Nat
  chars : List Char

namespace Input

def skip (i : Input) (n : Nat) : Input := ⟨i.offset + n, i.chars.drop n⟩

/-- A blank between the parts of a text. -/
def isGap (c : Char) : Bool := c == ' ' || c == '\t' || c == '\n' || c == '\r'

def skipGap (i : Input) : Input := i.skip (i.chars.takeWhile isGap).length

end Input

def hexValue? (c : Char) : Option Nat :=
  if c.isDigit then some (c.toNat - '0'.toNat)
  else if 'a' ≤ c && c ≤ 'f' then some (c.toNat - 'a'.toNat + 10)
  else if 'A' ≤ c && c ≤ 'F' then some (c.toNat - 'A'.toNat + 10)
  else none

/-- The number that four hexadecimal digits denote. -/
def hexNumber? (a b c d : Char) : Option Nat := do
  return ((← hexValue? a) * 16 + (← hexValue? b)) * 256 + (← hexValue? c) * 16 + (← hexValue? d)

/-- The character that a backslash and a letter stand for. -/
def simpleEscape? : Char → Option Char
  | '"' => some '"'
  | '\\' => some '\\'
  | '/' => some '/'
  | 'b' => some '\x08'
  | 'f' => some '\x0c'
  | 'n' => some '\n'
  | 'r' => some '\r'
  | 't' => some '\t'
  | _ => none

/-- The first unit of a pair that stands for one character. -/
def isHighUnit (n : Nat) : Bool := 0xd800 ≤ n && n ≤ 0xdbff

/-- The second unit of a pair that stands for one character. -/
def isLowUnit (n : Nat) : Bool := 0xdc00 ≤ n && n ≤ 0xdfff

/-- The character for a unit; a unit without its partner gives the replacement character. -/
def unitChar (n : Nat) : Char :=
  if isHighUnit n || isLowUnit n then '\ufffd' else Char.ofNat n

def pairChar (high low : Nat) : Char := Char.ofNat ((high - 0xd800) * 0x400 + (low - 0xdc00) + 0x10000)

/-- The character that the digits after `\\u` stand for, and the number of characters taken: four digits, or
two times four digits with `\\u` between them. Some character has to follow. The `u` stands at `offset`. -/
def unicodeEscape (offset : Nat) (cs : List Char) : Except ReadError (Char × Nat) :=
  match cs with
  | a :: b :: c :: d :: e :: rest => match hexNumber? a b c d with
    | none => .error ⟨.badUnicodeEscape, offset⟩
    | some n =>
      if isHighUnit n && e == '\\' then match rest with
        | 'u' :: a' :: b' :: c' :: d' :: _ :: _ => match hexNumber? a' b' c' d' with
          | none => .error ⟨.badUnicodeEscape, offset + 6⟩
          | some m => .ok (if isLowUnit m then (pairChar n m, 10) else (unitChar n, 4))
        | _ => .ok (unitChar n, 4)
      else .ok (unitChar n, 4)
  | _ => .error ⟨.badUnicodeEscape, offset⟩

/-- Reads the rest of a string whose opening quote stands at the offset `start`; `acc` (last character
first) was read already. -/
def readString (start : Nat) (acc : List Char) (offset : Nat) :
    List Char → Except ReadError (String × Input)
  | [] => .error ⟨.unterminated, start⟩
  | '"' :: rest => .ok (String.ofList acc.reverse, ⟨offset + 1, rest⟩)
  | ['\\'] => .error ⟨.unterminated, start⟩
  | '\\' :: 'u' :: rest => match unicodeEscape (offset + 1) rest with
    | .error e => .error e
    | .ok (c, n) => readString start (c :: acc) (offset + 2 + n) (rest.drop n)
  | '\\' :: c :: rest => match simpleEscape? c with
    | some x => readString start (x :: acc) (offset + 2) rest
    | none => .error ⟨.badEscape, offset⟩
  | c :: rest =>
    if c.toNat ≤ 0x1f then .error ⟨.controlCharacter, offset⟩
    else readString start (c :: acc) (offset + 1) rest
termination_by cs => cs.length
decreasing_by all_goals simp only [List.length_cons, List.length_drop]; omega

def digitsValue (ds : List Char) : Nat := ds.foldl (fun n c => 10 * n + (c.toNat - '0'.toNat)) 0

/-- The digits of the whole part of a number: a zero alone, or digits that start with none. -/
def wholeDigits : List Char → List Char
  | '0' :: _ => ['0']
  | cs => cs.takeWhile Char.isDigit

def fractionDigits : List Char → List Char
  | '.' :: cs => cs.takeWhile Char.isDigit
  | _ => []

/-- An exponent, and the number of characters that it takes. -/
def exponent : List Char → Option (Int × Nat)
  | e :: cs =>
    if e == 'e' || e == 'E' then
      let (sign, taken, ds) := match cs with
        | '+' :: r => ((1 : Int), 2, r.takeWhile Char.isDigit)
        | '-' :: r => ((-1 : Int), 2, r.takeWhile Char.isDigit)
        | r => ((1 : Int), 1, r.takeWhile Char.isDigit)
      if ds.isEmpty then none else some (sign * digitsValue ds, taken + ds.length)
    else none
  | [] => none

def readNumber (i : Input) : Except ReadError (Json × Input) :=
  let (sign, body) : Int × Input := match i.chars with
    | '-' :: _ => (-1, i.skip 1)
    | _ => (1, i)
  let whole := wholeDigits body.chars
  if whole.isEmpty then .error ⟨.noValue, i.offset⟩
  else
    let i1 := body.skip whole.length
    let fraction := fractionDigits i1.chars
    let i2 := if fraction.isEmpty then i1 else i1.skip (fraction.length + 1)
    match exponent i2.chars with
    | some (e, taken) =>
      .ok (.decimal (.scaled (sign * digitsValue (whole ++ fraction)) (e - fraction.length)), i2.skip taken)
    | none =>
      if fraction.isEmpty then .ok (.int (sign * digitsValue whole), i2)
      else .ok (.decimal ⟨sign * digitsValue (whole ++ fraction), fraction.length⟩, i2)

def wordValues : List (String × Json) :=
  [("null", .null), ("true", .bool true), ("false", .bool false), ("NaN", .special "NaN"),
   ("Infinity", .special "Infinity"), ("-Infinity", .special "-Infinity")]

def readWord? (i : Input) : Option (Json × Input) :=
  (wordValues.find? fun (w, _) => w.toList.isPrefixOf i.chars).map fun (w, v) => (v, i.skip w.length)

mutual

/-- Reads a value, at which the input starts; `fuel` bounds the number of calls. -/
def readValue : (fuel : Nat) → Input → Except ReadError (Json × Input)
  | 0, i => .error ⟨.noValue, i.offset⟩
  | fuel + 1, i => match i.chars with
    | '"' :: rest => do
      let (s, j) ← readString i.offset [] (i.offset + 1) rest
      return (.text s, j)
    | '[' :: _ =>
      let j := (i.skip 1).skipGap
      match j.chars with
      | ']' :: _ => .ok (.list [], j.skip 1)
      | _ => readItems fuel [] j
    | '{' :: _ =>
      let j := (i.skip 1).skipGap
      match j.chars with
      | '}' :: _ => .ok (.object [], j.skip 1)
      | _ => readFields fuel [] j
    | _ => match readWord? i with
      | some r => .ok r
      | none => readNumber i

/-- Reads the items of a list from the next one on; `acc` (last one first) was read already. -/
def readItems : (fuel : Nat) → List Json → Input → Except ReadError (Json × Input)
  | 0, _, i => .error ⟨.noValue, i.offset⟩
  | fuel + 1, acc, i => do
    let (v, j) ← readValue fuel i
    let j := j.skipGap
    match j.chars with
    | ']' :: _ => return (.list (v :: acc).reverse, j.skip 1)
    | ',' :: _ => readItems fuel (v :: acc) (j.skip 1).skipGap
    | _ => .error ⟨.noComma, j.offset⟩

/-- Reads the fields of an object from the next one on; `acc` was read already. -/
def readFields : (fuel : Nat) → List (String × Json) → Input → Except ReadError (Json × Input)
  | 0, _, i => .error ⟨.noValue, i.offset⟩
  | fuel + 1, acc, i => match i.chars with
    | '"' :: rest => do
      let (name, j) ← readString i.offset [] (i.offset + 1) rest
      let j := j.skipGap
      match j.chars with
      | ':' :: _ =>
        let (v, k) ← readValue fuel (j.skip 1).skipGap
        let k := k.skipGap
        let acc := setField name v acc
        match k.chars with
        | '}' :: _ => return (.object acc, k.skip 1)
        | ',' :: _ => readFields fuel acc (k.skip 1).skipGap
        | _ => .error ⟨.noComma, k.offset⟩
      | _ => .error ⟨.noColon, j.offset⟩
    | _ => .error ⟨.noName, i.offset⟩

end

/-- Reads a text that is one value. Every call of the reader takes a character or follows one that does, so
twice the length of the text is fuel enough. -/
def read (source : String) : Except ReadError Json :=
  let cs := source.toList
  if cs.head? = some '\ufeff' then .error ⟨.byteOrderMark, 0⟩
  else do
    let (v, i) ← readValue (2 * cs.length + 2) (Input.mk 0 cs).skipGap
    let i := i.skipGap
    if i.chars.isEmpty then return v else .error ⟨.extraData, i.offset⟩

end Workbench.Json
