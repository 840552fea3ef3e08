import Workbench.Files.Path
import Workbench.Update.Outside

/-!
# Installing a release

`apply_update`: a downloaded release takes the place of the executable that is running. On Windows the
running executable cannot be replaced, so a script does that after the program has ended; elsewhere the
program replaces it and starts again.
-/

namespace Workbench.Update

/-- The executable that is running, if the program runs as one executable. -/
def executable? (o : Outside) : Option Files.Path :=
  if o.isBundled then some (.ofText "/opt/ide") else none

/-- Makes the calls one after the other until one fails; says whether none did. -/
def attempt (o : Outside) : List Call → Bool × List Call
  | [] => (true, [])
  | c :: cs =>
    if o.refuses c then (false, [c])
    else
      let (ok, made) := attempt o cs
      (ok, c :: made)

def replaceScript (source target : String) : String :=
  "@echo off\ntimeout /t 2 /nobreak >nul\nmove /y \"" ++ source ++ "\" \"" ++ target ++
    "\"\nstart \"\" \"" ++ target ++ "\"\ndel \"%~f0\"\n"

def scriptPath : String := "/tmp/script.bat"

def installCalls (o : Outside) (source target : String) : List Call :=
  if o.isWindows then
    [.makeScript "w" ".bat" false, .script (replaceScript source target),
     .spawn ["cmd", "/c", scriptPath]]
  else
    [.chmod source 493, .move source target, .restart target (target :: o.args)]

/-- Installs the release at a path; says whether that went well, and gives the calls made. -/
def install (o : Outside) (path : Files.Path) : Bool × List Call :=
  match executable? o with
  | none => (false, [])
  | some exe => attempt o (installCalls o path.text exe.text)

end Workbench.Update
