import Workbench.Command.Run

/-!
# The command line

The first argument names the command; the others are its own. The source file is read from the real disk, the
command is carried out on a disk that holds this file alone, and what it changed there is written back.
-/

namespace Workbench.Command

/-- How the commands are called. -/
def usage : String := "usage: workbench asm SOURCE [-o OUT]\n       workbench run SOURCE\n"

def Tool.ofName? : String → Option Tool
  | "asm" => some .assemble
  | "run" => some .run
  | _ => none

/-- A disk with the source file that the arguments name, if there is one. -/
def Tool.loadDisk (tool : Tool) (args : List String) : IO Files.Disk := do
  let cwd := Files.Path.ofText (← IO.currentDir).toString
  let disk := ({ cwd := cwd } : Files.Disk).makeDirs cwd
  match request? tool.flags args with
  | some (.compile source _) =>
    try
      let text ← IO.FS.readFile source
      return disk.addFile (.ofText source) text
    catch _ => return disk
  | _ => return disk

/-- Prints what a command left and writes its files. -/
def Report.deliver (r : Report) (before : Files.Disk) : IO UInt32 := do
  for (path, text) in r.disk.changesSince before do
    IO.FS.createDirAll (Files.Path.ofText path).parent.text
    IO.FS.writeFile path text
  IO.print r.out
  IO.eprint r.err
  if let some f := r.failure then IO.eprintln f.message
  return UInt32.ofNat r.exit

def Tool.main (tool : Tool) (args : List String) : IO UInt32 := do
  let disk ← tool.loadDisk args
  match tool.carryOut disk args with
  | .badArguments =>
    IO.eprint usage
    return 2
  | .help =>
    IO.print usage
    return 0
  | .report r => r.deliver disk

end Workbench.Command

def main : List String → IO UInt32
  | name :: args => match Workbench.Command.Tool.ofName? name with
    | some tool => tool.main args
    | none => do
      IO.eprint Workbench.Command.usage
      return 2
  | [] => do
    IO.eprint Workbench.Command.usage
    return 2
