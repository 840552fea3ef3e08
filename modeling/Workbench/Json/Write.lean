import Workbench.Json.Basic

/-!
# Writing JSON

A value on one line, in ASCII: a blank follows each comma and colon, and characters outside ASCII are
written as escapes of their UTF-16 units.
-/

namespace Workbench.Json

def fourHex (n : Nat) : List Char :=
  let hex := Nat.toDigits 16 n
  List.replicate (4 - hex.length) '0' ++ hex

def escapedUnit (n : Nat) : List Char := '\\' :: 'u' :: fourHex n

/-- A character as it is written inside of quotes. -/
def escapedChar (c : Char) : List Char :=
  match c with
  | '"' => ['\\', '"']
  | '\\' => ['\\', '\\']
  | '\n' => ['\\', 'n']
  | '\r' => ['\\', 'r']
  | '\t' => ['\\', 't']
  | '\x08' => ['\\', 'b']
  | '\x0c' => ['\\', 'f']
  | _ =>
    let n := c.toNat
    if 0x20 ≤ n && n < 0x80 then [c]
    else if n < 0x10000 then escapedUnit n
    else
      let m := n - 0x10000
      escapedUnit (0xd800 + m / 0x400) ++ escapedUnit (0xdc00 + m % 0x400)

def quoted (s : String) : String :=
  "\"" ++ String.ofList (s.toList.flatMap escapedChar) ++ "\""

mutual

def write : Json → String
  | null => "null"
  | bool b => if b then "true" else "false"
  | int n => toString n
  | decimal d => d.text
  | special name => name
  | text s => quoted s
  | list xs => "[" ++ ", ".intercalate (writeItems xs) ++ "]"
  | object fs => "\x7b" ++ ", ".intercalate (writeFields fs) ++ "\x7d"

def writeItems : List Json → List String
  | [] => []
  | x :: xs => x.write :: writeItems xs

def writeFields : List (String × Json) → List String
  | [] => []
  | (name, v) :: rest => (quoted name ++ ": " ++ v.write) :: writeFields rest

end

end Workbench.Json
