import Workbench.Text.Blank

/-!
# Paths

A path is the names of its parts, after a root if it is absolute. Empty parts and parts that are a
single dot are not kept; parts that are two dots are, until the path is resolved. A path that starts
with exactly two slashes has a root of its own.
-/

namespace Workbench.Files

/-- Where a path starts. -/
inductive Root where
  | here | slash | doubleSlash
  deriving DecidableEq, Repr

def Root.text : Root → String
  | here => ""
  | slash => "/"
  | doubleSlash => "//"

/-- The root that a written path starts with. -/
def Root.ofChars : List Char → Root
  | '/' :: '/' :: '/' :: _ => slash
  | '/' :: '/' :: _ => doubleSlash
  | '/' :: _ => slash
  | _ => here

structure Path where
  root : Root
  parts : List String
  deriving DecidableEq, Repr

namespace Path

def ofText (s : String) : Path :=
  { root := .ofChars s.toList
    parts := (Text.splitAt '/' s).filter fun p => p != "" && p != "." }

/-- How a path is written; a path without parts that is not absolute is a dot. -/
def text (p : Path) : String :=
  if p.root = .here && p.parts.isEmpty then "." else p.root.text ++ String.intercalate "/" p.parts

def name (p : Path) : String := p.parts.getLast?.getD ""

/-- The ending of a name from its last dot on, unless the dot is its first or its last character. -/
def endingOf (name : String) : String :=
  let tail := name.toList.reverse.takeWhile (· != '.')
  let before := name.length - tail.length
  if tail.isEmpty || before ≤ 1 then "" else String.ofList ('.' :: tail.reverse)

def ending (p : Path) : String := endingOf p.name

def parent (p : Path) : Path := { p with parts := p.parts.dropLast }

def join (p q : Path) : Path :=
  if q.root = .here then { p with parts := p.parts ++ q.parts } else q

def child (p : Path) (name : String) : Path := { p with parts := p.parts ++ [name] }

def relativeTo? (p base : Path) : Option Path :=
  if p.root = base.root && base.parts.isPrefixOf p.parts then
    some ⟨.here, p.parts.drop base.parts.length⟩
  else none

/-- Parts without any that are two dots: each takes the part before it away. `kept` (last one first)
stands before them. -/
def resolveFrom (kept : List String) : List String → List String
  | [] => kept.reverse
  | p :: ps => if p == ".." then resolveFrom kept.tail ps else resolveFrom (p :: kept) ps

/-- The path without parts that are two dots. -/
def resolved (p : Path) : Path := { p with parts := resolveFrom [] p.parts }

end Path

end Workbench.Files
