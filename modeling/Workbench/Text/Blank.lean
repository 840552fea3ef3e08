/-!
# Blanks and words

Blank characters, the text without the blanks around it, and its words. The pieces are lists of
characters so that each operation is one recursion.
-/

namespace Workbench.Text

/-- A blank: the ASCII blanks and separators, and the space separators of every script. -/
def isBlank (c : Char) : Bool :=
  let n := c.toNat
  (9 ≤ n && n ≤ 13) || (28 ≤ n && n ≤ 32) || n == 0x85 || n == 0xa0 || n == 0x1680 ||
    (0x2000 ≤ n && n ≤ 0x200a) || n == 0x2028 || n == 0x2029 || n == 0x202f || n == 0x205f ||
    n == 0x3000

def trimEndBy (p : Char → Bool) (cs : List Char) : List Char :=
  (cs.reverse.dropWhile p).reverse

/-- `cs` without the characters in `p` at either end. -/
def trimBy (p : Char → Bool) (cs : List Char) : List Char :=
  trimEndBy p (cs.dropWhile p)

def trim (s : String) : String := String.ofList (trimBy isBlank s.toList)

def trimEndNewlines (s : String) : String := String.ofList (trimEndBy (· == '\n') s.toList)

/-- The words of `cs`, where `word` (last character first) has been read already. -/
def wordsFrom (word : List Char) : List Char → List (List Char)
  | [] => if word.isEmpty then [] else [word.reverse]
  | c :: cs =>
    if isBlank c then
      if word.isEmpty then wordsFrom [] cs else word.reverse :: wordsFrom [] cs
    else wordsFrom (c :: word) cs

/-- The words of a text: its longest pieces without a blank. -/
def words (s : String) : List String := (wordsFrom [] s.toList).map String.ofList

/-- Splits at every occurrence of the character `sep`; `piece` (last character first) has been
read already. -/
def splitFrom (sep : Char) (piece : List Char) : List Char → List (List Char)
  | [] => [piece.reverse]
  | c :: cs =>
    if c == sep then piece.reverse :: splitFrom sep [] cs else splitFrom sep (c :: piece) cs

/-- The pieces between the occurrences of `sep`: one more than there are occurrences. -/
def splitAt (sep : Char) (s : String) : List String :=
  (splitFrom sep [] s.toList).map String.ofList

end Workbench.Text
