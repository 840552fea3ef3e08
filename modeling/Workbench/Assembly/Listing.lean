import Workbench.Assembly.Line

/-!
# Listings

The `Emitter`: a listing has a text section and a data section. Fresh labels are numbered through the
whole listing, whatever their base; a text that is used twice as a string is stored once.
-/

namespace Workbench.Assembly

/-- The labels handed out and the strings stored so far. -/
structure Pool where
  labels : Nat := 0
  strings : List String := []
  deriving DecidableEq, Repr

namespace Pool

def fresh (base : String) (p : Pool) : String × Pool :=
  (base ++ toString (p.labels + 1), { p with labels := p.labels + 1 })

def stringLabel (k : Nat) : String := "STR_" ++ toString k

/-- The label of a string, which is stored if it is new. -/
def intern (s : String) (p : Pool) : String × Pool :=
  match p.strings.findIdx? (· == s) with
  | some k => (stringLabel k, p)
  | none => (stringLabel p.strings.length, { p with strings := p.strings ++ [s] })

/-- The text of a stored string: a dollar sign ends it, so one inside is doubled. -/
def escape (s : String) : String :=
  String.ofList (s.toList.flatMap fun c => if c == '$' then ['$', '$'] else [c])

def dataLines (p : Pool) : List String :=
  p.strings.zipIdx.map fun (s, k) => stringLabel k ++ " db '" ++ escape s ++ "','$'"

end Pool

/-- A listing: its text section, and the pool that it draws on. -/
structure Listing where
  text : List Line := []
  pool : Pool := {}

/-- The lines before the text section. -/
def heading : List String :=
  ["; generated by QuinLang compiler", "org 0x100", "%include 'runtime/runtime.inc'"]

namespace Listing

def emit (l : Listing) (line : Line) : Listing := { l with text := l.text ++ [line] }

def render (l : Listing) : String :=
  "\n".intercalate (heading ++ ["section .text"] ++ l.text.map Line.text ++ ["section .data"] ++
    l.pool.dataLines)

end Listing

end Workbench.Assembly
