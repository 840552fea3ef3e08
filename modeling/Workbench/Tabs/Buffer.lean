import Workbench.Editor.Place
import Workbench.Files.Path

/-!
# Buffers

An `EditorBuffer` is a text that is being edited, with the file that it belongs to, if it has one. While
a buffer is shown its text lives in the editor, and the buffer's own copy lags behind.
-/

namespace Workbench.Tabs

structure Buffer where
  id : Nat
  path : Option Files.Path := none
  content : String := ""
  modified : Bool := false
  cursor : Editor.Place := .first
  deriving DecidableEq, Repr

namespace Buffer

def displayName (b : Buffer) : String :=
  match b.path with
  | some p => p.name
  | none => "Untitled"

def modifiedMark (b : Buffer) : String := if b.modified then " *" else ""

/-- The title of a buffer: its name, with a mark if it has unsaved changes. -/
def title (b : Buffer) : String := b.displayName ++ b.modifiedMark

end Buffer

def findBuffer? (bs : List Buffer) (id : Nat) : Option Buffer := bs.find? (·.id == id)

def replaceBuffer (b : Buffer) (bs : List Buffer) : List Buffer :=
  bs.map fun x => if x.id == b.id then b else x

end Workbench.Tabs
