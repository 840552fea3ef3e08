import Workbench.Files.Disk
import Workbench.Text.Quoted

/-!
# Building the executable

The executable is built by a tool that is installed first if it is missing. What is left of an earlier build
is taken away before.
-/

namespace Workbench.Package

open Files (Path Disk)

/-- How the world behaves: whether the tool is there, whether it can be installed, and the exit code of the
build. -/
structure Setting where
  hasTool : Bool := true
  installFails : Bool := false
  buildCode : Int := 0
  isWindows : Bool := false

/-- What is done outside of the program. -/
inductive Call where
  | install
  | remove (dir : String)
  | build
  deriving DecidableEq, Repr

/-- The words of the command that carries out a call; those of a removal are what is removed. -/
def Call.words : Call → List String
  | install => ["python", "-m", "pip", "install", "pyinstaller"]
  | remove dir => [dir]
  | build => ["python", "-m", "PyInstaller", "quinlang_ide.spec", "--clean"]

/-- How it came out. -/
inductive Ending where
  | built
  | failed
  /-- The tool could not be installed. -/
  | noTool
  deriving DecidableEq, Repr

/-- What is said when the tool could not be installed. -/
def noToolMessage : String :=
  let words := Call.install.words.map Text.quoted
  "Command '[" ++ ", ".intercalate words ++ "]' returned non-zero exit status 1."

/-- What was printed and done. -/
structure Report where
  out : String
  calls : List Call
  ending : Ending

/-- The directories that a build leaves behind. -/
def leftovers (disk : Disk) : List String :=
  ["dist", "build"].filter fun d => (disk.find? (.ofText d)).isSome

def executablePath (s : Setting) : String := "dist/QuinLangIDE" ++ if s.isWindows then ".exe" else ""

/-- Builds with the tool; `out` was printed and `calls` were made before. -/
def build (s : Setting) (disk : Disk) (out : String) (calls : List Call) : Report :=
  let old := leftovers disk
  let out := out ++ String.join (old.map fun d => s!"Cleaning {d}/...\n") ++ "Building executable...\n"
  let calls := calls ++ old.map .remove ++ [.build]
  if s.buildCode = 0 then
    { out := out ++ "\n✓ Build successful!\n  Executable: " ++ executablePath s ++ "\n"
      calls := calls
      ending := .built }
  else { out := out ++ "\n✗ Build failed!\n", calls := calls, ending := .failed }

def make (s : Setting) (disk : Disk) : Report :=
  if s.hasTool then build s disk "" []
  else
    let out := "PyInstaller not found. Installing...\n"
    if s.installFails then { out := out, calls := [.install], ending := .noTool }
    else build s disk out [.install]

end Workbench.Package
