/-!
# Places in a text

A place is a line, counted from 1, and a column, counted from 0. Offsets count characters from the
start of the text. A place is written as its two numbers with a dot between them.
-/

namespace Workbench.Editor

structure Place where
  line : Nat
  col : Nat
  deriving DecidableEq, Repr

namespace Place

def first : Place := ⟨1, 0⟩

def text (p : Place) : String := s!"{p.line}.{p.col}"

/-- The place after the characters `cs`, when `p` is the place before them. -/
def after (p : Place) : List Char → Place
  | [] => p
  | c :: cs => if c == '\n' then after ⟨p.line + 1, 0⟩ cs else after ⟨p.line, p.col + 1⟩ cs

def ofOffset (text : List Char) (offset : Nat) : Place := first.after (text.take offset)

end Place

/-- The offset at which a line starts, `n` lines below the first one, if there are that many. -/
def lineStart? : (n : Nat) → List Char → Option Nat
  | 0, _ => some 0
  | _ + 1, [] => none
  | n + 1, c :: cs => (lineStart? (if c == '\n' then n else n + 1) cs).map (· + 1)

def lineFrom (cs : List Char) : List Char := cs.takeWhile (· != '\n')

/-- What can be asked for in a text: a place, the end of a line, the cursor, the first or the last
character in sight, or the end. -/
inductive Index where
  | place (p : Place)
  | lineEnd (line : Nat)
  | cursor
  | top
  | bottom
  | finish
  deriving DecidableEq, Repr

namespace Index

/-- Reads how an index is written; what is neither a place nor one of the words is the end. -/
def ofText (s : String) : Index :=
  if s == "end" || s == "end-1c" then finish
  else if s == "insert" then cursor
  else if s == "@0,0" then top
  else if s.startsWith "@" then bottom
  else match s.splitOn "." with
    | [l, c] => match l.toNat?, c.toNat? with
      | some l, some c => place ⟨l, c⟩
      | some l, none => if c == "end" then lineEnd l else finish
      | none, _ => finish
    | _ => finish

/-- The offset of a column of a line, or of the end of the text if there is no such line. -/
def columnOffset (text : List Char) (line : Nat) (col : List Char → Nat) : Nat :=
  match lineStart? (line - 1) text with
  | none => text.length
  | some n => n + col (lineFrom (text.drop n))

def offset (text : List Char) (at_ : Nat) : Index → Nat
  | place p => columnOffset text p.line fun l => min p.col l.length
  | lineEnd n => columnOffset text n List.length
  | cursor => at_
  | top => 0
  | bottom => text.length
  | finish => text.length

end Index

end Workbench.Editor
