import Workbench.Json.Write
import Workbench.Measure.Coverage

/-!
# Whether benchmarks check themselves

A benchmark is good if what it returns comes from the code that is measured: the same on every run, another
for other parameters, and not a parameter itself. No benchmark is good while the code has been edited.
-/

namespace Workbench.Measure

open Text (leftIn)

def gitCall : Call :=
  { program := "git"
    args := ["-C", repository, "status", "--porcelain", "--", ".", ":!microbench.py", ":!_pti_*",
      ":!.pti_*", ":!.coverage"]
    seconds := some 30 }

def checkCall : Call :=
  { program := "_pti_semcheck.py", seconds := some 300, directory := some repository, seed := some "0" }

def editedFiles (git : Child) : List String :=
  if git.trouble.isSome then []
  else ((Text.lines git.out).filter fun l => !(Text.trim l).isEmpty).map fun l =>
    String.ofList (l.toList.drop 3)

def editedLines (files : List String) : List String :=
  if files.isEmpty then []
  else
    ["", s!"** repo modified ({files.length} file(s)) — revert these; only microbench.py is yours to edit:"] ++
      files.map ("   " ++ ·)

/-- What is found of a benchmark. -/
inductive Verdict where
  | ok | unparametrised | error | returnsNone | unstable | returnsInput | lowTime | tooFast
  | invariant | edited
  deriving DecidableEq, Repr

namespace Verdict

def name : Verdict → String
  | ok => "ok"
  | unparametrised => "ok-unparam"
  | error => "error"
  | returnsNone => "returns-none"
  | unstable => "unstable"
  | returnsInput => "returns-input"
  | lowTime => "low-repo-time"
  | tooFast => "too-fast"
  | invariant => "param-invariant"
  | edited => "repo-modified"

def isGood : Verdict → Bool
  | ok | unparametrised => true
  | _ => false

end Verdict

def numbersIn (j : Json) (name : String) : List Decimal :=
  (j.get name).fields.filterMap fun f => f.2.number?

def least? : List Decimal → Option Decimal
  | [] => none
  | d :: ds => some (ds.foldl (fun m x => if x.lt m then x else m) d)

/-- The number in the middle; between two, the one halfway. -/
def median? (ds : List Decimal) : Option Decimal :=
  let sorted := ds.mergeSort Decimal.le
  let k := sorted.length / 2
  if sorted.length % 2 = 1 then sorted[k]?
  else do
    let a ← sorted[k - 1]?
    let b ← sorted[k]?
    let sum := a.add b
    return ⟨sum.digits * 5, sum.places + 1⟩

structure Observed where
  returned : String
  prints : List String
  parameters : List String
  byParameter : List String
  fractions : List Decimal
  times : List Decimal

namespace Observed

def ofJson (j : Json) : Observed :=
  { returned := (j.get "ret_type").text?.getD "?"
    prints := (j.get "fp_stable").items.map Json.write
    parameters := (j.get "param_fps").items.map Json.write
    byParameter := (j.get "fp_by_param").fields.map fun f => f.2.write
    fractions := numbersIn j "repo_frac"
    times := numbersIn j "repo_tt_ms" }

def allSame : List String → Bool
  | [] => false
  | s :: rest => rest.all (· == s)

/-- Whether there is a number and it is less than a bound. -/
def isUnder (d : Option Decimal) (bound : Decimal) : Bool := (d.map (·.lt bound)).getD false

def verdict (o : Observed) (edited : Bool) : Verdict :=
  if edited then .edited
  else if o.returned = "?" || o.returned.startsWith "<" then .error
  else if o.returned = "NoneType" then .returnsNone
  else if !allSame o.prints then .unstable
  else if o.prints.any (o.parameters.contains ·) then .returnsInput
  else if isUnder (least? o.fractions) ⟨5, 1⟩ then .lowTime
  else if isUnder (median? o.times) (.ofInt 1) then .tooFast
  else if o.byParameter.length < 2 then .unparametrised
  else if allSame o.byParameter then .invariant
  else .ok

def line (o : Observed) (name : String) (v : Verdict) : String :=
  let fraction := ((least? o.fractions).getD (.ofInt 0)).times 100
  let time := (median? o.times).getD (.ofInt 0)
  (if v.isGood then "    " else "  * ") ++ leftIn 32 name ++ " " ++ leftIn 16 v.name ++
    " (" ++ o.returned ++ ", repo " ++ fraction.fixed 0 ++ "%) " ++ time.fixed 1 ++ "ms"

end Observed

/-- The benchmarks with what was seen of them and the verdicts. -/
abbrev SelfCheck := List (String × Observed × Verdict)

namespace SelfCheck

def ofAnswer (j : Json) (edited : Bool) : SelfCheck :=
  (j.get "semcheck").fields.filterMap fun (name, v) => match v with
    | .object fields =>
      let o := Observed.ofJson (.object fields)
      some (name, o, o.verdict edited)
    | _ => none

def bad (c : SelfCheck) : Nat := (c.filter fun b => !b.2.2.isGood).length

/-- What the verdicts ask for. -/
def hints : List String :=
  ["  returns-none: run() has no return — collect and return the call results",
   "  unstable: seed RNG in setup; avoid time/uuid/id in the return",
   "  returns-input: return repo output, not the parameter value",
   "  low-repo-time: <50% of run() time is in repo code — move glue to setup",
   "  param-invariant: return something derived from run()'s work, not setup",
   "  repo-modified: revert edits to repo files (git checkout -- <path>)"]

/-- The lines on the benchmarks, those that are not good first. -/
def lines (c : SelfCheck) : List String :=
  if c.isEmpty then []
  else
    let shown := c.filter (fun b => !b.2.2.isGood) ++ c.filter (fun b => b.2.2.isGood)
    ["", "self-check (* = fix needed):"] ++ hints ++ shown.map fun (name, o, v) => o.line name v

def note (c : SelfCheck) : String :=
  if c.isEmpty then "" else s!", {c.bad}/{c.length} not self-checking"

end SelfCheck

end Workbench.Measure
