import Workbench.Files.Path
import Workbench.Json.Basic
import Workbench.Measure.Child
import Workbench.Text.Column

/-!
# The coverage table

Which part of each file was run. The files that were run least come first; of files that were run to the same
part, those with more lines left.
-/

namespace Workbench.Measure

open Text (leftIn rightIn)

def leftOut : List String :=
  ["*/microbench.py", "*/_pti_*.py", "*/setup.py", "*/conftest.py", "*/test_*.py", "*/*_test.py",
   "*/tests/*", "*/test/*", "*/__tests__/*", "*/__fixtures__/*", "*/_version.py"]

def coveragePath : String := repository ++ "/_pti_coverage.json"

/-- The call that measures the coverage; `patterns` is the list of files left out, as it is passed. -/
def coverageCall (patterns : String) : Call :=
  { program := "_pti_cov_runner.py"
    args := [repository, "microbench", coveragePath, patterns]
    directory := some repository }

def intIn (j : Json) (name : String) : Int := (j.get name).int?.getD 0

def numberIn (j : Json) (name : String) : Decimal := (j.get name).number?.getD (.ofInt 0)

/-- The name of a file as seen from the directory that is measured. -/
def nameInRepository (path : String) : String :=
  let parts := ((Files.Path.ofText repository).join (.ofText path)).resolved.parts
  "/".intercalate <| match parts with
    | ["repo"] => ["."]
    | "repo" :: rest => rest
    | _ => ".." :: parts

structure Row where
  name : String
  statements : Int
  missed : Int
  percent : Decimal
  missing : List Json

def Row.of (path : String) (file : Json) : Row :=
  let summary := file.get "summary"
  { name := nameInRepository path
    statements := intIn summary "num_statements"
    missed := intIn summary "missing_lines"
    percent := numberIn summary "percent_covered"
    missing := (file.get "missing_lines").items }

def Row.before (a b : Row) : Bool :=
  a.percent.lt b.percent || (a.percent.same b.percent && b.missed ≤ a.missed)

def namedLines : Nat := 12

def Row.missingText (r : Row) : String :=
  ",".intercalate ((r.missing.take namedLines).map fun j => ((j.int?).map toString).getD "") ++
    if namedLines < r.missing.length then "…" else ""

/-- The columns up to the percentage. -/
def columns (width : Nat) (name : String) (statements missed : Int) (percent : Decimal) : String :=
  leftIn width name ++ "  " ++ rightIn 5 (toString statements) ++ "  " ++ rightIn 4 (toString missed) ++
    "  " ++ rightIn 4 (percent.fixed 0) ++ "%"

def coverageTable (coverage : Json) : List String :=
  let rows := ((coverage.get "files").fields.map fun f => Row.of f.1 f.2).mergeSort Row.before
  let width := rows.foldl (fun w r => max w r.name.length) 4
  let rule := String.ofList (List.replicate (width + 42) '-')
  let totals := coverage.get "totals"
  let statements := intIn totals "num_statements"
  [leftIn width "Name" ++ "  Stmts  Miss  Cover  Missing", rule] ++
    rows.map (fun r => columns width r.name r.statements r.missed r.percent ++ "  " ++ r.missingText) ++
    [rule, columns width "TOTAL" statements (statements - intIn totals "covered_lines")
      (numberIn totals "percent_covered")]

/-- The benchmarks that failed, with what is said of them. -/
def benchErrors (coverage : Json) : List (String × Json) :=
  ((coverage.get "meta").get "_pti_bench_errors").fields

def namedErrors : Nat := 8

/-- The lines on benchmarks that failed. -/
def errorLines (errors : List (String × Json)) : List String :=
  if errors.isEmpty then []
  else
    ["", s!"{errors.length} bench error(s):"] ++
      (errors.take namedErrors).map fun (name, e) => s!"  {name}: " ++ e.text?.getD ""

end Workbench.Measure
