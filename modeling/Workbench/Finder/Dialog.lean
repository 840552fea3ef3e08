import Workbench.Editor.Painting
import Workbench.Finder.Fuzzy
import Workbench.Finder.Scan
import Workbench.Text.Blank

/-!
# The finder

The `FinderDialog`, a window in which a file is searched by its name. It shows the files that match the
search text, best match first, and the start of the selected one. With no search text it shows all files
by name. The list on the screen is cut off, so the selected file need not be on it.
-/

namespace Workbench.Finder

open Files (Path Disk FileError)

/-- A file that matches, and how well. -/
structure Match where
  path : Path
  points : Nat
  deriving DecidableEq, Repr

def listLimit : Nat := 100

def previewLines : Nat := 200

structure Dialog where
  root : Path
  files : List Path
  query : String := ""
  filtered : List Match := []
  /-- The number of the selected file; from the end of the list if it is negative. -/
  selected : Int := 0
  /-- The list on the screen, and the line marked in it. -/
  listed : List String := []
  marked : Option Nat := none
  /-- The start of the selected file, and the number of tags put on it last. -/
  preview : String := ""
  tagged : Nat := 0
  status : String := "Scanning..."
  isOpen : Bool := true
  chosen : List Path := []

/-- The files by name, without regard to case. -/
def byName (files : List Path) : List Match :=
  (files.mergeSort fun p q => !(Text.lower q.name < Text.lower p.name)).map (⟨·, 0⟩)

/-- The files that match a query, in the order in which they were found. -/
def matching (query : String) : List Path → Except FuzzyError (List Match)
  | [] => .ok []
  | p :: ps => do
    let s ← fuzzyMatch query p.name
    let rest ← matching query ps
    return if s.found then ⟨p, s.points⟩ :: rest else rest

/-- The files shown for a search text, which is taken without the blanks around it. -/
def filterFiles (search : String) (files : List Path) : Except FuzzyError (List Match) :=
  let query := Text.trim search
  if query.isEmpty then .ok (byName files)
  else do
    let found ← matching query files
    return found.mergeSort fun a b => b.points ≤ a.points

/-- How a file is listed: by its path from the directory that was searched. -/
def listedAs (root p : Path) : String := ((p.relativeTo? root).getD p).text

def startOf (text : String) : String :=
  String.intercalate "\n" ((Text.splitAt '\n' text).take previewLines)

namespace Dialog

def selectedFile? (d : Dialog) : Option Path :=
  let n : Int := d.filtered.length
  if d.selected < -n then none
  else
    let k := if d.selected < 0 then n + d.selected else d.selected
    d.filtered[k.toNat]?.map (·.path)

/-- Shows the start of the selected file, with tags if it is a program. -/
def showSelected (disk : Disk) (d : Dialog) : Dialog :=
  match d.selectedFile? with
  | none => { d with preview := "", tagged := 0 }
  | some p => match disk.read p with
    | .error e => { d with preview := "Error reading file:\n" ++ e.message, tagged := 0 }
    | .ok text =>
      let shown := startOf text
      let tags := if Text.lower p.ending == ".ql" then
          (Editor.Painting.whole shown.toList).tagged.length
        else 0
      { d with preview := shown, tagged := tags }

/-- The mark on a line of the list, if the list has that line. -/
def markOn (d : Dialog) (k : Int) : Option Nat :=
  if 0 ≤ k && k < d.listed.length then some k.toNat else none

/-- Shows the files that match the search text and selects the first one. If there is none, the
selection and the preview stay as they are. -/
def refilter (disk : Disk) (d : Dialog) : Except FuzzyError Dialog := do
  let filtered ← filterFiles d.query d.files
  let d := { d with
    filtered := filtered
    listed := (filtered.take listLimit).map fun m => listedAs d.root m.path
    marked := none }
  return if filtered.isEmpty then d else showSelected disk { d with selected := 0, marked := some 0 }

def search (disk : Disk) (d : Dialog) (text : String) : Except FuzzyError Dialog :=
  refilter disk { d with query := text, tagged := 0 }

/-- Selects a file and marks it in the list. -/
def select (disk : Disk) (d : Dialog) (k : Int) : Dialog :=
  showSelected disk { d with selected := k, marked := d.markOn k }

def up (disk : Disk) (d : Dialog) : Dialog :=
  if 0 < d.selected then d.select disk (d.selected - 1) else { d with tagged := 0 }

def down (disk : Disk) (d : Dialog) : Dialog :=
  if d.selected < d.filtered.length - 1 then d.select disk (d.selected + 1) else { d with tagged := 0 }

/-- Marks a line of the list, or none, and selects the file on it. -/
def click (disk : Disk) (d : Dialog) (k : Option Int) : Dialog :=
  match k.bind d.markOn with
  | some n => d.select disk n
  | none => { d with marked := none, tagged := 0 }

/-- Selects a file without a mark in the list. -/
def look (disk : Disk) (d : Dialog) (k : Int) : Dialog :=
  showSelected disk { d with selected := k }

def close (d : Dialog) : Dialog := { d with isOpen := false, tagged := 0 }

/-- Chooses the selected file and closes the window, if there is such a file. -/
def enter (d : Dialog) : Dialog :=
  match d.selectedFile? with
  | some p => { d.close with chosen := d.chosen ++ [p] }
  | none => { d with tagged := 0 }

/-- The keys that the window listens to. -/
inductive Key where
  | up | down | enter | escape
  deriving DecidableEq, Repr

def press (disk : Disk) (d : Dialog) : Key → Dialog
  | .up => d.up disk
  | .down => d.down disk
  | .enter => d.enter
  | .escape => d.close

end Dialog

/-- Why the finder does not open. -/
inductive OpenError where
  | file (e : FileError)
  | fuzzy (e : FuzzyError)

def openDialog (disk : Disk) (root : Path) : Except OpenError Dialog := do
  let files ← (scan disk root).mapError .file
  let d ← (Dialog.refilter disk { root := root, files := files }).mapError .fuzzy
  return { d with status := s!"{files.length} files indexed from {root.text}" }

end Workbench.Finder
