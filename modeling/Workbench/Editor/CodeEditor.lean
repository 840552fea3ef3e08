import Workbench.Editor.TextArea

/-!
# The code editor

A text area with the numbers of its lines beside it. The numbers are drawn again when the text is
replaced and when something happens in the area, not when text is put in.
-/

namespace Workbench.Editor

def linesInSight : Nat := 20

def lineHeight : Nat := 10

def lineNumbers (a : TextArea) : List (Nat × String) :=
  (List.range (min a.lineCount linesInSight)).map fun k => (lineHeight * (k + 1), toString (k + 1))

/-- A code editor: its text, and the line numbers as they were drawn last. -/
structure CodeEditor where
  area : TextArea := {}
  drawn : List (Nat × String) := lineNumbers {}

namespace CodeEditor

def redraw (e : CodeEditor) : CodeEditor := { e with drawn := lineNumbers e.area }

/-- The text without the newlines at its end. -/
def code (e : CodeEditor) : String := e.area.code

def setCode (e : CodeEditor) (s : String) : CodeEditor :=
  { e with area := e.area.replaced s }.redraw

def clear (e : CodeEditor) : CodeEditor := { e with area := e.area.cleared }.redraw

def moveTo (e : CodeEditor) (i : Index) : CodeEditor := { e with area := e.area.moveTo i }

def insert (e : CodeEditor) (s : String) : CodeEditor :=
  { e with area := e.area.insertAt e.area.cursor s none }

def cursorPlace (e : CodeEditor) : Place := e.area.cursorPlace

end CodeEditor

/-- The events after which the line numbers are drawn again. -/
def redrawEvents : List String := ["<KeyRelease>", "<MouseWheel>", "<Configure>"]

end Workbench.Editor
