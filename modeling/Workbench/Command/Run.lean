import Workbench.Command.Arguments
import Workbench.Compile
import Workbench.Files.Disk
import Workbench.Machine.Run

/-!
# The commands

Two commands take a source file: one writes its assembly listing to a file, the other one runs it. Both
say what is wrong with a program that cannot be read or checked. Any other failure ends the command
without a word of its own.
-/

namespace Workbench.Command

open Files (Path Disk FileError)

inductive Tool where
  | assemble
  | run
  deriving DecidableEq, Repr

def Tool.flags : Tool → Flags
  | assemble => [("-h", .help), ("--help", .help), ("-o", .out), ("--out", .out)]
  | run => [("-h", .help), ("--help", .help)]

/-- The file that a listing is written to if no other one is asked for. -/
def defaultOut : String := "build/out.asm"

/-- A failure that ends a command. -/
inductive Failure where
  | file (e : FileError)
  | source (e : SourceError)
  | bytecode (e : Bytecode.EmitError)
  | assembly (e : Assembly.EmitError)
  | machine (e : Machine.Ending)

def Failure.message : Failure → String
  | file e => e.message
  | source (.number e) => e.message
  | source (.parse e) => e.message
  | source (.typing e) => e.message
  | bytecode e => e.message
  | assembly e => e.message
  | machine (.fault f) => f.message
  | machine (.exit n) => s!"exit {n}"
  | machine .stopped => Machine.stoppedMessage
  | machine .stepLimit => "too many steps"

/-- What a command leaves: its exit code, the texts that it printed, the failure that ended it, whether
that was a write that broke off, and the disk. -/
structure Report where
  exit : Nat := 0
  out : String := ""
  err : String := ""
  failure : Option Failure := none
  torn : Bool := false
  disk : Disk

/-- What a command comes to. -/
inductive Outcome where
  | badArguments
  | help
  | report (r : Report)

/-- A command that a failure ended. -/
def failed (disk : Disk) (f : Failure) : Report := { exit := 1, failure := some f, disk := disk }

/-- What is said of a source file that gives no checked program, if anything is. -/
def complaint? (source : Path) : SourceError → Option String
  | .number _ => none
  | .parse e => e.token?.map fun t =>
    s!"Syntax error at {source.text}:{t.line}:{t.col}: {e.message}\n"
  | .typing e => some s!"Semantic error in {source.text}: {e.message}\n"

/-- A command whose source file gives no checked program. -/
def rejected (disk : Disk) (source : Path) (e : SourceError) : Report :=
  match complaint? source e with
  | some text => { exit := 1, err := text, disk := disk }
  | none => failed disk (.source e)

def writeListing (disk : Disk) (source out : Path) (text : String) : Report :=
  match listingOf text with
  | .error (.source e) => rejected disk source e
  | .error (.emit e) => failed disk (.assembly e)
  | .ok listing =>
    let ready := disk.makeDirs out.parent
    match ready.write out listing.render with
    | .error (.unopened e) => failed ready (.file e)
    | .error (.torn left) => { exit := 1, torn := true, disk := left }
    | .ok disk' => { out := s!"Wrote {out.text}\n", disk := disk' }

/-- The number of steps that a program run by a command is given. -/
def commandBudget : Nat := Nat.pow 2 62

def runProgram (disk : Disk) (source : Path) (text : String) : Report :=
  match imageOf text with
  | .error (.source e) => rejected disk source e
  | .error (.emit e) => failed disk (.bytecode e)
  | .ok image =>
    let f := image.run commandBudget {}
    let r : Report := { out := String.join f.run.out, disk := disk }
    match f.ending with
    | .exit _ => r
    | e => { r with exit := 1, failure := some (.machine e) }

def Tool.carryOut (tool : Tool) (disk : Disk) (args : List String) : Outcome :=
  match request? tool.flags args with
  | none => .badArguments
  | some .help => .help
  | some (.compile source out) =>
    let path := Path.ofText source
    match disk.read path with
    | .error e => .report (failed disk (.file e))
    | .ok text => match tool with
      | .assemble => .report (writeListing disk path (.ofText (out.getD defaultOut)) text)
      | .run => .report (runProgram disk path text)

end Workbench.Command
