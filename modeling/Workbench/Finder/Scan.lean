import Workbench.Files.Disk
import Workbench.Text.Case

/-!
# Scanning a directory

`scan_files`: the files below a directory whose names have one of the known endings. Directories that
are hidden or hold what tools have made are passed over, and so are directories that may not be listed.
Each directory stops taking entries in once its own list has reached the limit; what a directory below
it has found comes in as a whole.
-/

namespace Workbench.Finder

open Files (Path Entry Disk FileError)

def shownEndings : List String := [".ql", ".py", ".txt", ".md", ".json", ".yaml", ".yml", ".toml"]

/-- The directories that are passed over. -/
def passedDirs : List String :=
  ["__pycache__", ".git", ".svn", ".hg", "node_modules", "venv", ".venv", "env", ".env", "dist",
   "build", ".idea", ".vscode"]

/-- The number of files at which a directory stops taking entries in. -/
def fileLimit : Nat := 1000

def isPassed (name : String) : Bool := passedDirs.contains name || name.startsWith "."

def isShown (name : String) : Bool := shownEndings.contains (Text.lower (Path.endingOf name))

mutual

/-- The files below the entry of the directory at `above`; `open_` says which directories may be
listed. -/
def scanEntry (open_ : Path → Bool) (above : Path) : Entry → List Path
  | .file name _ => if isShown name then [above.child name] else []
  | .dir name es =>
    if isPassed name then []
    else if open_ (above.child name) then scanEntries open_ (above.child name) [] es
    else []

/-- The files below the entries of the directory at `above`, after those that were found already. -/
def scanEntries (open_ : Path → Bool) (above : Path) (found : List Path) : List Entry → List Path
  | [] => found
  | e :: es =>
    if fileLimit ≤ found.length then found
    else scanEntries open_ above (found ++ scanEntry open_ above e) es

end

/-- The files below a directory. A directory that may not be listed holds none. -/
def scan (d : Disk) (root : Path) : Except FileError (List Path) :=
  match d.list root with
  | .ok es => .ok (scanEntries (fun p => !d.denies p) root [] es)
  | .error (.denied _) => .ok []
  | .error e => .error e

end Workbench.Finder
