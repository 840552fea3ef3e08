import Workbench.Editor.Place
import Workbench.Text.Blank

/-!
# Text areas

A text with a cursor. Text that is put in before or at the cursor moves it along, and text that is
taken out around the cursor leaves it where the text was. An area also remembers the pieces that were
put in since text was last taken out, each with the name of its look.
-/

namespace Workbench.Editor

/-- A piece of text with the name of its look, if it has one. -/
structure Piece where
  text : String
  look : Option String := none
  deriving DecidableEq, Repr

structure TextArea where
  text : List Char := []
  cursor : Nat := 0
  /-- The pieces put in, the last one first. -/
  recent : List Piece := []
  deriving DecidableEq, Repr

namespace TextArea

/-- The pieces put in since text was last taken out, in order. -/
def pieces (a : TextArea) : List Piece := a.recent.reverse

def contents (a : TextArea) : String := String.ofList a.text

def cursorPlace (a : TextArea) : Place := .ofOffset a.text a.cursor

def offset (a : TextArea) (i : Index) : Nat := i.offset a.text a.cursor

/-- Puts text in at an offset. -/
def insertAt (a : TextArea) (at_ : Nat) (s : String) (look : Option String) : TextArea :=
  { text := a.text.take at_ ++ s.toList ++ a.text.drop at_
    cursor := if at_ ≤ a.cursor then a.cursor + s.length else a.cursor
    recent := ⟨s, look⟩ :: a.recent }

def append (a : TextArea) (s : String) (look : Option String) : TextArea :=
  a.insertAt a.text.length s look

def cleared (_ : TextArea) : TextArea := {}

/-- Puts another text in the place of the whole text; the cursor is at its end. -/
def replaced (a : TextArea) (s : String) : TextArea := a.cleared.insertAt 0 s none

def moveTo (a : TextArea) (i : Index) : TextArea := { a with cursor := a.offset i }

def code (a : TextArea) : String := Text.trimEndNewlines a.contents

def lineCount (a : TextArea) : Nat := (Place.ofOffset a.text a.text.length).line

end TextArea

end Workbench.Editor
