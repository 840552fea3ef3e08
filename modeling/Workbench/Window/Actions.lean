import Workbench.Window.Basic

/-!
# What the user can do in the window

The actions behind the menu, the buttons and the keys.
-/

namespace Workbench

namespace Window

inductive Action where
  | newTab | openFile | find | save | saveAs | closeTab | exit | run | stop | clearOutput
  deriving DecidableEq, Repr

def menu : List (String × Action) :=
  [("New Tab", .newTab), ("Open...", .openFile), ("Find File...", .find), ("Save", .save),
   ("Save As...", .saveAs), ("Close Tab", .closeTab), ("Exit", .exit), ("Run", .run), ("Stop", .stop)]

def buttons : List (String × Action) :=
  [("▶ Run", .run), ("■ Stop", .stop), ("Find File", .find), ("Clear Output", .clearOutput)]

def keys : List (String × Action) :=
  [("<Control-n>", .newTab), ("<Control-o>", .openFile), ("<Control-s>", .save),
   ("<Control-S>", .saveAs), ("<Control-w>", .closeTab), ("<Control-Shift-F>", .find),
   ("<Control-Shift-f>", .find), ("<F5>", .run), ("<Shift-F5>", .stop)]

def buttonState (w : Window) : Action → Option Bool
  | .run => w.runButton
  | .stop => w.stopButton
  | _ => none

def newTab (w : Window) : Window := (w.withDesk (w.desk.newBuffer "" none)).retitled

def openFile (w : Window) : Window :=
  let (path, user) := w.desk.user.choosePath (.openPath "Open QuinLang File" w.cwd.text)
  let d := { w.desk with user := user }
  if path.isEmpty then { w with desk := d }
  else (w.withDesk (d.openFile (.ofText path)).2).retitled

/-- The window after a save, of which `saved` says whether it was carried out. -/
def afterSave (w : Window) (saved : Bool × Tabs.Desk) : Window :=
  let w := w.withDesk saved.2
  if saved.1 then
    let w := w.retitled
    match w.desk.activeBuffer?.bind (·.path) with
    | some p => { w with status := s!"Saved: {p.text}" }
    | none => w
  else w

def closeTab (w : Window) : Window := (w.withDesk w.desk.closeCurrent.2).retitled

/-- Closes the window, unless the user cancels it to keep unsaved changes. -/
def exit (w : Window) : Window :=
  let (goOn, d) := w.desk.checkAllSaved
  let w := w.withDesk d
  if goOn then { w with isOpen := false } else w

def clearOutput (w : Window) : Window := { w with output := w.output.cleared }

/-- Runs the program in the editor in the background, unless one runs already. -/
def run (w : Window) : Window :=
  if w.runner.isRunning then w
  else
    { w.clearOutput.print "Running...\n" (some "info") with
      status := "Running..."
      runButton := some false
      stopButton := some true
      runner := (w.runner.start w.desk.code).2
      jobs := w.jobs ++ [.program] }

def noteStop (w : Window) : Window := w.print "\n[Stopping...]\n" (some "warning")

def stop (w : Window) : Window :=
  if w.runner.isRunning then { w with runner := w.runner.stop }.noteStop else w

def finder (w : Window) : Except Finder.OpenError Finder.Dialog := Finder.openDialog w.desk.disk w.cwd

/-- Opens the file chosen in the finder. -/
def chooseFile (w : Window) (path : Files.Path) : Window :=
  { (w.withDesk (w.desk.openFile path).2).retitled with status := s!"Opened: {path.text}" }

def act (w : Window) : Action → Except Finder.OpenError Window
  | .newTab => .ok w.newTab
  | .openFile => .ok w.openFile
  | .find => do
    let _ ← w.finder
    return w
  | .save => .ok (w.afterSave w.desk.save)
  | .saveAs => .ok (w.afterSave w.desk.saveAs)
  | .closeTab => .ok w.closeTab
  | .exit => .ok w.exit
  | .run => .ok w.run
  | .stop => .ok w.stop
  | .clearOutput => .ok w.clearOutput

def choose (w : Window) (entries : List (String × Action)) (entry : String) :
    Except Finder.OpenError Window :=
  match entries.lookup entry with
  | some a => w.act a
  | none => .ok w

/-- Clicks a button, if there is one with this name that is not switched off. -/
def click (w : Window) (button : String) : Except Finder.OpenError Window :=
  match buttons.lookup button with
  | some a => if w.buttonState a = some false then .ok w else w.act a
  | none => .ok w

/-- Opens the finder, searches for a text and chooses the first file found. -/
def find (w : Window) (text : String) : Except Finder.OpenError (Finder.Dialog × Window) := do
  let d ← w.finder
  let d ← (d.search w.desk.disk text).mapError .fuzzy
  let d := d.enter
  return (d, d.chosen.foldl chooseFile w)

/-- Notes that the text in the editor was changed. -/
def modified (w : Window) : Window := { w with desk := w.desk.markModified }.retitled

/-- Clicks the tab at a place in the bar, or the mark on it that closes it. -/
def clickTab (w : Window) (place : Nat) (closing : Bool) : Option Bool × Window :=
  match w.desk.bar.tabs[place]? with
  | none => (none, w)
  | some t =>
    if closing then
      let (closed, d) := w.desk.close t.id
      (some closed, w.withDesk d)
    else (none, w.withDesk (w.desk.select t.id))

end Window

end Workbench
