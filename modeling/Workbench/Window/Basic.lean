import Workbench.Finder.Dialog
import Workbench.Runner
import Workbench.Tabs.Desk
import Workbench.Terminal.Process
import Workbench.Update.Install
import Workbench.Update.Release

/-!
# The window

The `QuinLangIDE`: the window holds the desk, the terminal, the pane for the output of programs, and the
line that says what goes on. Work that takes long is a job that waits to be done in the background; what
a job wants shown is a task that waits until no job is left.
-/

namespace Workbench

open Files (Path)

namespace Window

/-- Work in the background. -/
inductive Job where
  | program
  | command (text : String)
  | lookForRelease
  | download (release : Update.Release)

/-- What is shown once the jobs are done. -/
inductive Task where
  | output (text : String)
  | ended (result : Runner.Result)
  | terminal (piece : Editor.Piece)
  | offer (release : Update.Release)
  | install (path : String)
  | downloadFailed
  | ready

end Window

/-- The window. A button that was never switched on or off has no state. -/
structure Window where
  desk : Tabs.Desk
  terminal : Terminal
  cwd : Path
  runner : Runner := {}
  output : Editor.TextArea := {}
  runButton : Option Bool := none
  stopButton : Option Bool := some false
  title : String := "QuinLang IDE"
  status : String := "Ready"
  isOpen : Bool := true
  outside : Update.Outside := {}
  /-- The updater's calls to the world outside. -/
  calls : List Update.Call := []
  jobs : List Window.Job := []
  tasks : List Window.Task := []

namespace Window

def name : String := "QuinLang IDE"

/-- The title while a buffer is shown, or none. -/
def titleFor : Option Tabs.Buffer → String
  | some b => s!"{b.title} - {name}"
  | none => name

/-- Takes the news of a buffer. -/
def hear (w : Window) (c : Tabs.Change) : Window :=
  { w with
    title := titleFor c.active
    status := match c.buffer.path with
      | some p => s!"Opened: {p.text}"
      | none => "Ready" }

def withDesk (w : Window) (d : Tabs.Desk) : Window :=
  d.changes.reverse.foldl hear { w with desk := { d with changes := [] } }

def retitled (w : Window) : Window := { w with title := titleFor w.desk.activeBuffer? }

/-- The window with a terminal in which something was done. Commands that it hands out become jobs. -/
def withTerminal (w : Window) (t : Terminal) : Window :=
  { w with
    terminal := { t with handedOut := [], moves := [] }
    cwd := t.moves.headD w.cwd
    jobs := w.jobs ++ t.handedOut.reverse.map .command }

def print (w : Window) (text : String) (look : Option String) : Window :=
  { w with output := w.output.append text look }

def tell (w : Window) (d : Dialog) : Window :=
  { w with desk := { w.desk with user := w.desk.user.see d } }

def ask (w : Window) (title message : String) : Bool × Window :=
  let (answer, user) := w.desk.user.answer (.yesNo title message)
  (answer.getD false, { w with desk := { w.desk with user := user } })

def defaultCode : String :=
  "fn main(): int \x7b\n    println(42);\n    return 0;\n\x7d\n"

/-- A new window. It looks for a newer release in the background. -/
def start (disk : Files.Disk) (outside : Update.Outside) (user : User) : Window :=
  let w : Window :=
    { desk := { disk := disk, user := user }
      terminal := Terminal.start disk disk.cwd
      cwd := disk.cwd
      outside := outside
      jobs := [.lookForRelease] }
  w.withDesk (w.desk.newBuffer defaultCode none)

end Window

end Workbench
