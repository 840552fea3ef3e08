import Workbench.Editor.Highlight
import Workbench.Editor.TextArea
import Workbench.Theme

/-!
# Painting a text

`highlight_all` and `highlight_line`: painting takes the tags off a part of a text and puts on those of
its highlights. The whole text is painted with a newline after it; a line is painted on its own.
-/

namespace Workbench.Editor

/-- The colour in which a tag is shown. -/
def Tag.color : Tag → Color
  | .keyword => .syntaxKeyword
  | .type => .syntaxType
  | .builtin => .syntaxBuiltin
  | .string => .syntaxString
  | .number => .syntaxNumber
  | .comment => .syntaxComment
  | .operator => .textPrimary

/-- A tag on the text between two places. -/
structure Tagged where
  tag : Tag
  start : Place
  stop : Place
  deriving DecidableEq, Repr

/-- The part of a text that is painted: all of it, or a line. -/
inductive Part where
  | whole
  | line (n : Nat)
  deriving DecidableEq, Repr

namespace Part

def start : Part → Place
  | whole => .first
  | line n => ⟨n, 0⟩

def stop : Part → Index
  | whole => .finish
  | line n => .lineEnd n

end Part

/-- What painting does: it raises some tags above the others, takes all tags off a part, and puts tags on. -/
structure Painting where
  raised : List Tag := [.comment, .string]
  part : Part
  tagged : List Tagged
  deriving DecidableEq, Repr

namespace Painting

def cleared (_ : Painting) : List Tag := Tag.all

/-- The index from which they are taken off, as it is written. -/
def clearedFrom (p : Painting) : String := p.part.start.text

/-- The index up to which they are taken off, as it is written. -/
def clearedTo (p : Painting) : String :=
  match p.part with
  | .whole => "end"
  | .line n => s!"{n}.end"

/-- The number of times that a tag is raised, taken off or put on. -/
def size (p : Painting) : Nat := p.raised.length + p.cleared.length + p.tagged.length

def whole (text : List Char) : Painting :=
  let cs := text ++ ['\n']
  { part := .whole
    tagged := (highlights cs).map fun (t, s) => ⟨t, .ofOffset cs s.start, .ofOffset cs s.stop⟩ }

/-- The text of a line, counted from 1; empty if there is no such line. -/
def lineOf (text : List Char) (n : Nat) : List Char :=
  match lineStart? (n - 1) text with
  | none => []
  | some k => lineFrom (text.drop k)

def line (text : List Char) (n : Nat) : Painting :=
  { part := .line n
    tagged := (highlights (lineOf text n)).map fun (t, s) => ⟨t, ⟨n, s.start⟩, ⟨n, s.stop⟩⟩ }

end Painting

end Workbench.Editor
