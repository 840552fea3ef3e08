/-!
# Lines

A text is cut into lines at every line boundary: the newline, the carriage return, both together,
and the other separators that end a line. The boundaries are not part of the lines, and a
boundary at the end of the text opens no further line.
-/

namespace Workbench.Text

def endsLine (c : Char) : Bool :=
  let n := c.toNat
  (10 ≤ n && n ≤ 13) || (28 ≤ n && n ≤ 30) || n == 0x85 || n == 0x2028 || n == 0x2029

/-- The lines of `cs`, where `line` (last character first) has been read already. -/
def linesFrom (line : List Char) : List Char → List (List Char)
  | [] => if line.isEmpty then [] else [line.reverse]
  | '\r' :: '\n' :: cs => line.reverse :: linesFrom [] cs
  | c :: cs => if endsLine c then line.reverse :: linesFrom [] cs else linesFrom (c :: line) cs

def lines (s : String) : List String := (linesFrom [] s.toList).map String.ofList

/-- Every line end of a text file, `\r\n` or `\r`, becomes a newline. -/
def plainNewlines : List Char → List Char
  | [] => []
  | '\r' :: '\n' :: cs => '\n' :: plainNewlines cs
  | '\r' :: cs => '\n' :: plainNewlines cs
  | c :: cs => c :: plainNewlines cs

end Workbench.Text
