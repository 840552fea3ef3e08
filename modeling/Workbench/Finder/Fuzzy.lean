import Workbench.Text.Case
import Workbench.Text.Occurs

/-!
# Fuzzy matching

`fuzzy_match`: how well a query matches a text, without regard to case. A text that contains the query
scores highest, above all if it starts with it. Otherwise the characters of the query have to occur in
the text one after the other; each occurrence scores, more so in a row and at the start of a word.

Word starts are looked up in the text as it was given. Its lower-case form can be longer, and a match
that lies beyond its end has no character before it to look at.
-/

namespace Workbench.Finder

/-- Whether a query matches, and how well. -/
structure Score where
  found : Bool
  points : Nat
  deriving DecidableEq, Repr

/-- A match lies beyond the end of the text as it was given. -/
inductive FuzzyError where
  | beyondText
  deriving DecidableEq, Repr

def FuzzyError.message : FuzzyError → String
  | beyondText => "string index out of range"

/-- A character after which a word starts. -/
def separatesWords (c : Char) : Bool := ['.', '_', '-', '/', ' '].contains c

def wordStartPoints (text : List Char) (i : Nat) : Except FuzzyError Nat :=
  match i with
  | 0 => .ok 20
  | k + 1 => match text[k]? with
    | some c => .ok (if separatesWords c then 20 else 0)
    | none => .error .beyondText

/-- How far the characters of the query were found. `adjacent` says that the character before the next
one was matched; the start of the text counts as matched. -/
structure Sweep where
  query : List Char
  points : Nat
  bonus : Nat
  adjacent : Bool

def Sweep.look (text : List Char) (p : Sweep) (i : Nat) (c : Char) :
    Except FuzzyError Sweep :=
  match p.query with
  | q :: rest =>
    if c == q then do
      let bonus := if p.adjacent then p.bonus + 10 else 0
      let start ← wordStartPoints text i
      return { query := rest, points := p.points + (10 + bonus) + start, bonus := bonus, adjacent := true }
    else .ok { p with adjacent := false }
  | [] => .ok { p with adjacent := false }

def Sweep.lookAll (text : List Char) (p : Sweep) (i : Nat) :
    List Char → Except FuzzyError Sweep
  | [] => .ok p
  | c :: cs => do lookAll text (← p.look text i c) (i + 1) cs

/-- The score of the characters of the query one after the other. -/
def scatteredScore (query text lowered : List Char) : Except FuzzyError Score := do
  let p ← Sweep.lookAll text ⟨query, 0, 0, true⟩ 0 lowered
  return if p.query.isEmpty then ⟨true, p.points⟩ else ⟨false, 0⟩

def fuzzyMatch (query text : String) : Except FuzzyError Score :=
  if query.isEmpty then .ok ⟨true, 0⟩
  else
    let q := Text.lowerChars query.toList
    let t := Text.lowerChars text.toList
    if Text.occursIn q t then
      .ok ⟨true, (if q.isPrefixOf t then 1000 else 500) + q.length⟩
    else scatteredScore q text.toList t

end Workbench.Finder
