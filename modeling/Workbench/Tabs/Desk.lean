import Workbench.Editor.CodeEditor
import Workbench.Files.Disk
import Workbench.Tabs.Bar
import Workbench.User

/-!
# Working on several buffers

The `TabManager`. A desk has several buffers of which one is shown in the editor, and a tab for each.
Before a buffer with unsaved changes is closed or replaced, the user is asked whether to save it. Every
operation that can be cancelled says whether it was carried out.
-/

namespace Workbench.Tabs

open Files (Path Disk FileError)

/-- The news that a buffer was shown, replaced or saved: the buffer, and the one that is active then. -/
structure Change where
  buffer : Buffer
  active : Option Buffer
  deriving DecidableEq, Repr

/-- A desk. Buffers are numbered in the order in which they are made. -/
structure Desk where
  buffers : List Buffer := []
  active : Option Nat := none
  bar : Bar := {}
  editor : Editor.CodeEditor := {}
  made : Nat := 0
  user : User := {}
  disk : Disk := {}
  /-- The news so far, the last one first. -/
  changes : List Change := []

namespace Desk

def buffer? (d : Desk) (id : Nat) : Option Buffer := findBuffer? d.buffers id

def activeBuffer? (d : Desk) : Option Buffer := d.active.bind d.buffer?

def setBuffer (d : Desk) (b : Buffer) : Desk := { d with buffers := replaceBuffer b d.buffers }

def tell (d : Desk) (b : Buffer) : Desk :=
  { d with changes := ⟨b, d.activeBuffer?⟩ :: d.changes }

def retitle (d : Desk) (b : Buffer) : Desk := { d with bar := d.bar.update b }

def load (d : Desk) (b : Buffer) : Desk :=
  { d with editor := (d.editor.setCode b.content).moveTo (.place b.cursor) }

/-- Takes the text in the editor into the buffer that is shown, and the place of the cursor. -/
def capture (d : Desk) : Desk :=
  match d.activeBuffer? with
  | some b => d.setBuffer { b with content := d.editor.code, cursor := d.editor.cursorPlace }
  | none => d

/-- Shows a buffer, if there is one with the given number. -/
def select (d : Desk) (id : Nat) : Desk :=
  if (d.buffer? id).isNone then d
  else
    let d := { d.capture with active := some id }
    match d.buffer? id with
    | none => d
    | some b =>
      let d := d.load b
      { d with bar := d.bar.setActive id }.tell b

/-- Makes a buffer and shows it. -/
def newBuffer (d : Desk) (content : String) (path : Option Path) : Desk :=
  let b : Buffer := { id := d.made, content := content, path := path }
  let d := { d with buffers := d.buffers ++ [b], bar := d.bar.add b, made := d.made + 1 }
  d.select b.id

/-- The window that asks where to save a buffer. -/
def saveDialog : Dialog := .savePath "Save QuinLang File" ".ql"

/-- Writes a buffer to the file at `path`, which becomes its file. The text of the buffer that is shown is
taken from the editor. -/
def saveTo (d : Desk) (b : Buffer) (path : Path) : Bool × Desk :=
  let b := { b with
    path := some path
    content := if d.active = some b.id then d.editor.code else b.content }
  match d.disk.write path b.content with
  | .error e =>
    let user := d.user.see (.error "Error" ("Could not save file:\n" ++ e.message))
    (false, { d.setBuffer b with user := user, disk := e.left d.disk })
  | .ok disk =>
    let b := { b with modified := false }
    let d := { d.setBuffer b with disk := disk }
    (true, (d.retitle b).tell b)

def saveAsked (d : Desk) (b : Buffer) : Bool × Desk :=
  let (path, user) := d.user.choosePath saveDialog
  let d := { d with user := user }
  if path.isEmpty then (false, d) else d.saveTo b (.ofText path)

/-- Writes a buffer to its file, and asks for one if it has none. -/
def saveBuffer (d : Desk) (b : Buffer) : Bool × Desk :=
  match b.path with
  | some p => d.saveTo b p
  | none => d.saveAsked b

def save (d : Desk) : Bool × Desk :=
  match d.activeBuffer? with
  | some b => d.saveBuffer b
  | none => (false, d)

/-- Saves the buffer that is shown to a file that the user is asked for. -/
def saveAs (d : Desk) : Bool × Desk :=
  match d.activeBuffer? with
  | some b => d.saveAsked b
  | none => (false, d)

/-- Asks what to do about a buffer with unsaved changes, and saves it if that is the answer; says whether
to go on. -/
def settle (d : Desk) (b : Buffer) (question : String) : Bool × Desk :=
  let (answer, user) := d.user.answer (.yesNoCancel "Unsaved Changes" question)
  let d := { d with user := user }
  match answer with
  | none => (false, d)
  | some true => d.saveBuffer b
  | some false => (true, d)

def closeQuestion (b : Buffer) : String := s!"Save changes to '{b.displayName}'?"

/-- Takes a buffer away. If it was shown, the first buffer left is shown, or a new one if none is left. -/
def discard (d : Desk) (id : Nat) : Desk :=
  let d := { d with buffers := d.buffers.filter (·.id != id), bar := d.bar.remove id }
  if d.active = some id then
    let d := { d with active := none }
    match d.buffers with
    | b :: _ => d.select b.id
    | [] => d.newBuffer "" none
  else d

def close (d : Desk) (id : Nat) : Bool × Desk :=
  match d.buffer? id with
  | none => (false, d)
  | some b =>
    let (goOn, d) := if b.modified then d.settle b (closeQuestion b) else (true, d)
    if goOn then (true, d.discard id) else (false, d)

def closeCurrent (d : Desk) : Bool × Desk :=
  match d.active with
  | some id => d.close id
  | none => (false, d)

/-- The question before a file takes the place of a buffer. -/
def replaceQuestion (b : Buffer) (path : Path) : String :=
  s!"Save changes to '{b.displayName}' before opening '{path.name}'?"

/-- Puts a file in the place of the buffer with the given number. -/
def replaceWith (d : Desk) (id : Nat) (path : Path) : Bool × Desk :=
  match d.disk.read path with
  | .error e =>
    (false, { d with user := d.user.see (.error "Error" ("Could not open file:\n" ++ e.message)) })
  | .ok text =>
    let b : Buffer := { id := id, path := some path, content := text }
    (true, (((d.setBuffer b).load b).retitle b).tell b)

/-- Opens a file in the buffer that is shown; makes one first if there is none. -/
def openFile (d : Desk) (path : Path) : Bool × Desk :=
  let d := if d.active.isNone then d.newBuffer "" none else d
  match d.activeBuffer? with
  | none => (false, d)
  | some b =>
    let (goOn, d) := if b.modified then d.settle b (replaceQuestion b path) else (true, d)
    if goOn then d.replaceWith b.id path else (false, d)

/-- Notes that the buffer that is shown has unsaved changes. -/
def markModified (d : Desk) : Desk :=
  match d.activeBuffer? with
  | some b =>
    let b := { b with modified := true }
    (d.setBuffer b).retitle b
  | none => d

/-- Asks about every buffer with unsaved changes among those with the given numbers. -/
def settleAll (d : Desk) : List Nat → Bool × Desk
  | [] => (true, d)
  | id :: ids => match d.buffer? id with
    | none => settleAll d ids
    | some b =>
      if b.modified then
        let (goOn, d) := d.settle b (closeQuestion b)
        if goOn then settleAll d ids else (false, d)
      else settleAll d ids

/-- Asks about every buffer with unsaved changes. -/
def checkAllSaved (d : Desk) : Bool × Desk :=
  let d := match d.activeBuffer? with
    | some b => d.setBuffer { b with content := d.editor.code }
    | none => d
  d.settleAll (d.buffers.map (·.id))

def type (d : Desk) (text : String) (place : Editor.Index) : Desk :=
  { d with editor := ((d.editor.setCode text).moveTo place).redraw }

def code (d : Desk) : String := d.editor.code

end Desk

end Workbench.Tabs
