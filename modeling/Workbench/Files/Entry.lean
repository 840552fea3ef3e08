/-!
# Directory trees

What a directory holds: files with their texts, and further directories. The entries of a directory
are kept in the order of their names.
-/

namespace Workbench.Files

inductive Entry where
  | file (name : String) (text : String)
  | dir (name : String) (entries : List Entry)

namespace Entry

def name : Entry → String
  | file n _ => n
  | dir n _ => n

def isDir : Entry → Bool
  | file .. => false
  | dir .. => true

/-- Puts an entry in, in the place of one of the same name. -/
def put (e : Entry) : List Entry → List Entry
  | [] => [e]
  | x :: xs =>
    if e.name < x.name then e :: x :: xs
    else if e.name = x.name then e :: xs
    else x :: put e xs

/-- What the directory `name` among the entries holds; nothing if there is none. -/
def within (name : String) (es : List Entry) : List Entry :=
  match es.find? (·.name == name) with
  | some (dir _ inner) => inner
  | _ => []

end Entry

inductive Node where
  | file (text : String)
  | dir (entries : List Entry)

/-- What is found along the parts of a path. -/
def Node.find? (es : List Entry) : List String → Option Node
  | [] => some (.dir es)
  | p :: ps => match es.find? (·.name == p) with
    | some (.dir _ inner) => find? inner ps
    | some (.file _ text) => if ps.isEmpty then some (.file text) else none
    | none => none

/-- The entries with all directories along the parts of a path. -/
def withDirs : List String → List Entry → List Entry
  | [], es => es
  | p :: ps, es => Entry.put (.dir p (withDirs ps (Entry.within p es))) es

/-- The entries with a file at the parts of a path. -/
def withFile (text : String) : List String → List Entry → List Entry
  | [], es => es
  | [name], es => Entry.put (.file name text) es
  | p :: ps, es => Entry.put (.dir p (withFile text ps (Entry.within p es))) es

mutual

/-- The files of an entry, as the parts of their paths with their texts; `above` (last one first) are
the parts of the path of its directory. -/
def Entry.files (above : List String) : Entry → List (List String × String)
  | .file n text => [((n :: above).reverse, text)]
  | .dir n es => filesOf (n :: above) es

def filesOf (above : List String) : List Entry → List (List String × String)
  | [] => []
  | e :: es => e.files above ++ filesOf above es

end

end Workbench.Files
