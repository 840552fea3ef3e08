import Workbench.Json.Read
import Workbench.Text.Blank
import Workbench.Text.Lines

/-!
# Other programs

A measurement calls other programs. What each of them prints and how it ends is known beforehand.
-/

namespace Workbench.Measure

/-- How another program behaves: what it prints, and its exit code; or why it cannot be run. -/
structure Child where
  out : String := ""
  err : String := ""
  code : Int := 0
  trouble : Option String := none

/-- A call of another program: its name, its arguments, the seconds it is given, the directory in which it
runs, and the seed for its hashes. -/
structure Call where
  program : String
  args : List String := []
  seconds : Option Nat := none
  directory : Option String := none
  seed : Option String := none
  deriving DecidableEq, Repr

def repository : String := "/repo"

/-- What was learned from a program that prints one line of JSON, and what is printed as an error. -/
structure Answer where
  value : Json := .null
  err : String := ""

/-- What is printed of a program, named `label`, that failed. -/
def failedLine (label kind message : String) : String := s!"[{label} runner: {kind}: {message}]\n"

/-- Takes the last line that a program printed. -/
def Child.answer (label : String) (c : Child) : Answer :=
  match c.trouble with
  | some message => { err := failedLine label "RuntimeError" message }
  | none => match (Text.lines (Text.trim c.out)).getLast? with
    | none => { err := c.err }
    | some line => match Json.read line with
      | .ok v => { value := v, err := c.err }
      | .error e => { err := c.err ++ failedLine label "JSONDecodeError" (e.message line) }

end Workbench.Measure
