import Workbench.Terminal.Basic

/-!
# Commands in the background

How commands behave that the terminal hands out, and what is seen of them. The lines that a command
prints come into the output later, one after the other; the note that it was stopped comes at once.
-/

namespace Workbench.Terminal

open Editor (Piece)

/-- How a command behaves: the lines that it prints, its exit code, and the line before which it is asked
to stop. A stubborn command cannot be stopped. -/
structure Behaviour where
  lines : List String := []
  code : Int := 0
  stopAt : Option Nat := none
  stubborn : Bool := false
  deriving DecidableEq, Repr

namespace Behaviour

/-- Whether the command is stopped before it ends by itself. -/
def isStopped (b : Behaviour) : Bool :=
  !b.stubborn && match b.stopAt with
    | some k => k < b.lines.length
    | none => false

def stoppedCode : Int := -15

def exitCode (b : Behaviour) : Int := if b.isStopped then stoppedCode else b.code

/-- What comes into the output: the lines, and the exit code if it is not zero. -/
def pieces (b : Behaviour) : List Piece :=
  b.lines.map (⟨·, none⟩) ++
    if b.exitCode = 0 then [] else [⟨s!"[Exit code: {b.exitCode}]\n", some "error"⟩]

end Behaviour

/-- The commands there are, by how they are written. -/
abbrev Commands := List (String × Behaviour)

/-- Runs a command; gives the terminal and what comes into its output later. -/
def runCommand (commands : Commands) (t : Terminal) (command : String) : Terminal × List Piece :=
  match commands.lookup command with
  | none => (t, [⟨"Error: cannot run\n", some "error"⟩])
  | some b =>
    (if b.isStopped then t.append "\n[Process terminated]\n" (some "error") else t, b.pieces)

def receive (t : Terminal) (pieces : List Piece) : Terminal :=
  pieces.foldl (fun t p => t.append p.text p.look) t

/-- A command that was started, with the directory in which it runs. -/
structure Started where
  command : String
  directory : Files.Path
  deriving DecidableEq, Repr

/-- Runs the commands one after the other; their output follows when all have ended. -/
def runAll (commands : Commands) (t : Terminal) : List String → Terminal × List Piece
  | [] => (t, [])
  | c :: cs =>
    let (t, pieces) := t.runCommand commands c
    let (t, more) := runAll commands t cs
    (t, pieces ++ more)

/-- Runs all commands that were handed out; gives the terminal and the commands started. -/
def settle (commands : Commands) (t : Terminal) : Terminal × List Started :=
  let waiting := t.handedOut.reverse
  let (t, pieces) := { t with handedOut := [] }.runAll commands waiting
  (t.receive pieces, waiting.map (⟨·, t.cwd⟩))

end Workbench.Terminal
