import Workbench.Files.Entry
import Workbench.Files.Path
import Workbench.Text.Lines
import Workbench.Text.Quoted

/-!
# The disk

A directory tree with the place from which relative paths are seen, the home directory, and the paths
to which access is denied. Reading gives every line end as a newline; writing keeps the text as it is.
A file is emptied when it is opened to be written, so a write that breaks off, as on a full disk, leaves
the first part of the text in it and nothing of what was there before.
-/

namespace Workbench.Files

/-- Why a file cannot be used; the path is given as it was asked for. -/
inductive FileError where
  | missing (path : Path)
  | isDirectory (path : Path)
  | denied (path : Path)
  deriving DecidableEq, Repr

def FileError.message : FileError → String
  | missing p => "[Errno 2] No such file or directory: " ++ Text.quoted p.text
  | isDirectory p => "[Errno 21] Is a directory: " ++ Text.quoted p.text
  | denied p => "[Errno 13] Permission denied: " ++ Text.quoted p.text

structure Disk where
  entries : List Entry := []
  denied : List Path := []
  home : Option Path := none
  cwd : Path := ⟨.slash, []⟩
  /-- The files where a write breaks off, and after how many characters. -/
  short : List (Path × Nat) := []

/-- Why a text is not in a file: the file was not opened, or the write broke off and left a disk. -/
inductive WriteError where
  | unopened (e : FileError)
  | torn (left : Disk)

namespace WriteError

def message : WriteError → String
  | unopened e => e.message
  | torn _ => "[Errno 28] No space left on device"

/-- The disk that a failed write to the disk `before` leaves. -/
def left (before : Disk) : WriteError → Disk
  | unopened _ => before
  | torn left => left

end WriteError

namespace Disk

def locate (d : Disk) (p : Path) : Path := (d.cwd.join p).resolved

def find? (d : Disk) (p : Path) : Option Node :=
  let q := d.locate p
  if q.root = .slash then Node.find? d.entries q.parts else none

def denies (d : Disk) (p : Path) : Bool := d.denied.contains (d.locate p)

def isDir (d : Disk) (p : Path) : Bool :=
  match d.find? p with
  | some (.dir _) => true
  | _ => false

/-- The text of a file, with every line end as a newline. -/
def read (d : Disk) (p : Path) : Except FileError String :=
  match d.find? p with
  | some (.dir _) => .error (.isDirectory p)
  | none => .error (.missing p)
  | some (.file text) =>
    if d.denies p then .error (.denied p)
    else .ok (String.ofList (Text.plainNewlines text.toList))

/-- Makes a directory and all directories above it. -/
def makeDirs (d : Disk) (p : Path) : Disk :=
  { d with entries := withDirs (d.locate p).parts d.entries }

/-- Puts a file in, together with the directories above it. -/
def addFile (d : Disk) (p : Path) (text : String) : Disk :=
  { d with entries := withFile text (d.locate p).parts d.entries }

def write (d : Disk) (p : Path) (text : String) : Except WriteError Disk :=
  let q := d.locate p
  if d.isDir p then .error (.unopened (.isDirectory p))
  else if !d.isDir q.parent then .error (.unopened (.missing p))
  else if d.denies p then .error (.unopened (.denied p))
  else match d.short.lookup q with
    | some n => .error (.torn (d.addFile p (String.ofList (text.toList.take n))))
    | none => .ok (d.addFile p text)

def list (d : Disk) (p : Path) : Except FileError (List Entry) :=
  if d.denies p then .error (.denied p)
  else match d.find? p with
    | some (.dir es) => .ok es
    | _ => .error (.missing p)

/-- All files with their paths, in the order of the paths as they are written. -/
def files (d : Disk) : List (String × String) :=
  ((filesOf [] d.entries).map fun (parts, text) => ((Path.mk .slash parts).text, text)).mergeSort
    fun a b => !(b.1 < a.1)

/-- The files that are not on the disk `before` with the same text. -/
def changesSince (d before : Disk) : List (String × String) :=
  d.files.filter fun f => !(before.files.contains f)

end Disk

end Workbench.Files
