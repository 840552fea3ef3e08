import Workbench.Editor.TextArea
import Workbench.Files.Disk
import Workbench.Text.Case

/-!
# The terminal

The `CommandLine`: a pane with an entry line for commands and an area for their output. It keeps the
directory in which commands run and the commands entered so far. Changing the directory and clearing the
output are done at once; any other command is handed out to be run in the background.
-/

namespace Workbench

open Files (Path Disk)

structure Terminal where
  cwd : Path
  prompt : String
  history : List String := []
  /-- Which command of the history is shown; past the end if none is. -/
  recalled : Nat := 0
  output : Editor.TextArea := {}
  entry : Editor.TextArea := {}
  /-- The directories changed to, the last one first. -/
  moves : List Path := []
  /-- The commands handed out, the last one first. -/
  handedOut : List String := []

/-- The home directory is asked for and there is none. -/
inductive HomeError where
  | unknown
  deriving DecidableEq, Repr

def HomeError.message : HomeError → String
  | unknown => "Could not determine home directory."

def homeOf (disk : Disk) : Except HomeError Path :=
  match disk.home with
  | some h => .ok h
  | none => .error .unknown

namespace Terminal

/-- The number of characters that a prompt shows of a directory. -/
def promptWidth : Nat := 40

/-- How a prompt shows a directory: from the home directory on if it lies there, and cut at the front if
it is too long. -/
def promptFor (home : Option Path) (cwd : Path) : String :=
  let shown := match home.bind cwd.relativeTo? with
    | some p => "~/" ++ p.text
    | none => cwd.text
  let shown := if promptWidth < shown.length then
      "..." ++ String.ofList (shown.toList.drop (shown.length - (promptWidth - 3)))
    else shown
  shown ++ " $"

def append (t : Terminal) (text : String) (look : Option String) : Terminal :=
  { t with output := t.output.append text look }

def setEntry (t : Terminal) (text : String) : Terminal := { t with entry := t.entry.replaced text }

/-- A terminal in which nothing was done yet. -/
def start (disk : Disk) (cwd : Path) : Terminal :=
  let t : Terminal := { cwd := cwd, prompt := promptFor disk.home cwd }
  t.append "Terminal ready. Click here and type commands.\n" (some "info")

/-- Changes the directory, if there is such a directory. -/
def moveTo (disk : Disk) (t : Terminal) (dir : Path) : Terminal :=
  if disk.isDir dir then
    { t with cwd := dir, prompt := promptFor disk.home dir, moves := dir :: t.moves }
  else t

/-- The directory that the argument of a change of directory denotes. After a tilde, the character after it
is passed over and the rest is seen from the home directory. -/
def target (disk : Disk) (t : Terminal) (arg : String) : Except HomeError Path :=
  if arg.startsWith "~" then do
    return (← homeOf disk).join (.ofText (String.ofList (arg.toList.drop 2)))
  else .ok (t.cwd.join (.ofText arg))

/-- Changes to a directory and says how that went. -/
def visit (disk : Disk) (t : Terminal) (dir : Path) : Terminal :=
  if dir.text.contains '\x00' then t.append "Error: embedded null byte\n" (some "error")
  else
    let dir := disk.locate dir
    if disk.isDir dir then (t.moveTo disk dir).append s!"Changed to: {dir.text}\n" (some "info")
    else t.append s!"Not a directory: {dir.text}\n" (some "error")

/-- Changes the directory as a command asks for; to the home directory if it names none. -/
def changeDir (disk : Disk) (t : Terminal) : Option String → Except HomeError Terminal
  | none => do return t.visit disk (← homeOf disk)
  | some "-" => .ok (t.append "cd -: not implemented\n" (some "info"))
  | some arg => do return t.visit disk (← t.target disk arg)

/-- Carries out a command or hands it out. -/
def execute (disk : Disk) (t : Terminal) (command : String) : Except HomeError Terminal :=
  match Text.words command with
  | [] => .ok t
  | word :: args =>
    let name := Text.lower word
    if name == "cd" then t.changeDir disk args.head?
    else if name == "clear" || name == "cls" then .ok { t with output := t.output.cleared }
    else .ok { t with handedOut := command :: t.handedOut }

/-- Notes a command in the history, unless it is the one before it. -/
def remember (t : Terminal) (command : String) : Terminal :=
  let history := if t.history.getLast? = some command then t.history else t.history ++ [command]
  { t with history := history, recalled := history.length }

def entered (t : Terminal) : String := Text.trim t.entry.contents

def enter (disk : Disk) (t : Terminal) : Except HomeError Terminal :=
  let command := t.entered
  if command.isEmpty then .ok t
  else
    let t := (t.remember command).setEntry ""
    let t := t.append (t.prompt ++ " ") (some "prompt")
    (t.append (command ++ "\n") (some "command")).execute disk command

/-- Shows the command before in the history. -/
def recallOlder (t : Terminal) : Terminal :=
  match t.recalled with
  | 0 => t
  | k + 1 => match t.history[k]? with
    | some command => { t.setEntry command with recalled := k }
    | none => t

/-- Shows the command after in the history; after the last one, an empty line. -/
def recallNewer (t : Terminal) : Terminal :=
  match t.history[t.recalled + 1]? with
  | some command => { t.setEntry command with recalled := t.recalled + 1 }
  | none => if t.recalled + 1 = t.history.length then
      { t.setEntry "" with recalled := t.history.length }
    else t

def dismiss (t : Terminal) : Terminal := { t.setEntry "" with recalled := t.history.length }

inductive Key where
  | enter | up | down | escape
  deriving DecidableEq, Repr

def press (disk : Disk) (t : Terminal) : Key → Except HomeError Terminal
  | .enter => t.enter disk
  | .up => .ok t.recallOlder
  | .down => .ok t.recallNewer
  | .escape => .ok t.dismiss

end Terminal

end Workbench
