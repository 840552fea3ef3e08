import Workbench.Measure.Coverage

/-!
# Where the time of a benchmark goes

The part of the time of each benchmark that is spent in the code that is measured, in percent. A negative
number stands for a benchmark that failed.
-/

namespace Workbench.Measure

open Text (leftIn rightIn)

def timeCall : Call :=
  { program := "_pti_repotime.py", seconds := some 120, directory := some repository }

/-- What was measured: the percentages, and where else the time goes. -/
structure RepoTime where
  percents : List (String × Decimal) := []
  hot : Json := .null

namespace RepoTime

def ofAnswer (j : Json) : RepoTime :=
  { percents := (j.get "repo_time_pct").fields.map fun (name, v) => (name, v.number?.getD (.ofInt 0))
    hot := j.get "hot_ext" }

def isFailed (d : Decimal) : Bool := d.digits < 0

/-- A benchmark that spends too little time in the code that is measured. -/
def isBelow (d : Decimal) : Bool := !isFailed d && d.lt (.ofInt 45)

/-- The percentages of the benchmarks that did not fail. -/
def valid (t : RepoTime) : List Decimal := (t.percents.map (·.2)).filter (!isFailed ·)

/-- The number of benchmarks that spend too little time. -/
def below (t : RepoTime) : Nat := (t.percents.filter (isBelow ·.2)).length

/-- The number of benchmarks that spend too little time, if any was measured. -/
def below? (t : RepoTime) : Option Nat := if t.valid.isEmpty then none else some t.below

/-- Where else the time of a benchmark goes. -/
def hotText (t : RepoTime) (name : String) : String :=
  match (t.hot.get name).items with
  | [] => ""
  | spots =>
    let texts := spots.map fun s =>
      (s.item 1).text?.getD "" ++ " " ++ (((s.item 0).number?.getD (.ofInt 0)).fixed 0) ++ "%"
    " (hot: " ++ " ".intercalate texts ++ ")"

def line (t : RepoTime) (name : String) (d : Decimal) : String :=
  let shown := if isFailed d then .ofInt 0 else d
  (if isBelow d then "  * " else "    ") ++ leftIn 32 name ++ " " ++ rightIn 5 (shown.fixed 1) ++ "%" ++
    if isFailed d then "  <error>" else if isBelow d then t.hotText name else ""

/-- The lines on the time, the least part first. -/
def lines (t : RepoTime) : List String :=
  if t.percents.isEmpty then []
  else
    ["", "repo_time (target 50%; * = below 45%):"] ++
      (t.percents.mergeSort fun a b => a.2.le b.2).map fun (name, d) => t.line name d

def note (t : RepoTime) : String :=
  if t.percents.isEmpty then "" else s!", {t.below}/{t.valid.length} below repo_time 45%"

end RepoTime

end Workbench.Measure
