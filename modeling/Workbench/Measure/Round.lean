import Workbench.Measure.RepoTime
import Workbench.Measure.SelfCheck
import Workbench.Text.Digit

/-!
# A round of measurements

A round measures the benchmarks, prints a report and adds a record to those of the rounds before. It says to
stop when no benchmark is left that spends too little time in the code that is measured, or when three
rounds brought no improvement.
-/

namespace Workbench.Measure

/-- What a round is given: the files there are, how the other programs behave, and the time. -/
structure Setting where
  coverage : Option String := none
  benchmarks : Option String := none
  records : Option String := none
  coverageRun : Child := {}
  timeRun : Option Child := none
  checkRun : Option Child := none
  git : Child := {}
  started : Decimal := .ofInt 10
  ended : Decimal := ⟨125, 1⟩
  now : Decimal := .ofInt 2000
  isReadOnly : Bool := false

/-- Why a round broke off. -/
inductive RoundError where
  /-- A program could not be run. -/
  | notRun (message : String)
  /-- The coverage is no JSON text. -/
  | notJson (message : String)
  | notObject
  deriving DecidableEq, Repr

def RoundError.message : RoundError → String
  | notRun m | notJson m => m
  | notObject => ""

structure Report where
  exit : Int := 0
  out : String := ""
  err : String := ""
  calls : List Call := []
  added : List String := []
  failure : Option RoundError := none

def textOf (lines : List String) : String := String.join (lines.map (· ++ "\n"))

def lineStarts (cs : List Char) : List (List Char) := cs :: followers cs
where
  /-- What follows each newline. -/
  followers : List Char → List (List Char)
    | [] => []
    | c :: rest => if c == '\n' then rest :: followers rest else followers rest

def definesBenchmark (cs : List Char) : Bool :=
  match cs with
  | 'd' :: 'e' :: 'f' :: c :: rest =>
    if !Text.isBlank c then false
    else
      let rest := rest.dropWhile Text.isBlank
      let lead := "bench_".toList
      let name := (rest.drop lead.length).takeWhile Text.isWordChar
      lead.isPrefixOf rest && !name.isEmpty &&
        ((rest.drop (lead.length + name.length)).dropWhile Text.isBlank).head? == some '('
  | _ => false

/-- The number of benchmarks that are defined. -/
def benchmarkCount (source : String) : Nat :=
  ((lineStarts source.toList).filter definesBenchmark).length

/-- The records of the rounds before, as they are written. -/
def recordLines (records : Option String) : List String :=
  (Text.lines (records.getD "")).filter fun l => !(Text.trim l).isEmpty

/-- The records of the rounds before; none if one cannot be read. -/
def readRecords (lines : List String) : Option (List Json) :=
  lines.mapM fun l => match Json.read l with
    | .ok (.object fields) => some (.object fields)
    | _ => none

/-- The number of rounds in which there has to be an improvement. -/
def patience : Nat := 3

/-- The number of benchmarks that spend too little time, round by round. -/
def history (records : List Json) : List Int :=
  records.filterMap fun r => match r.get "n_below_repo_time" with
    | .int n => some n
    | _ => none

def minimum : List Int → Int
  | [] => 0
  | n :: ns => ns.foldl min n

/-- Why to stop after rounds that ended with these numbers of benchmarks that spend too little time. -/
def stopReason (counts : List Int) : Option String :=
  match counts.getLast? with
  | none => none
  | some 0 => some "0 below"
  | some _ =>
    let earlier := counts.take (counts.length - patience)
    let recent := counts.drop (counts.length - patience)
    if !earlier.isEmpty && minimum earlier ≤ minimum recent then
      some s!"no improvement in {patience} rounds; best {minimum counts} below"
    else none

def stopLines (records : List Json) (below : Option Nat) : List String :=
  match below with
  | none => []
  | some n => match stopReason (history records ++ [(n : Int)]) with
    | some reason =>
      ["", s!">>> STOP: repo_time converged ({reason}). Finalize microbench.py now. <<<"]
    | none => []

def sinceLast (now : Decimal) (records : List Json) : Decimal :=
  match (records.getLast?.map (·.get "ts")).bind Json.number? with
  | some t => (now.sub t).roundTo 1
  | none => .ofInt 0

structure Measured where
  round : Nat
  coverage : Json
  benchmarks : Nat
  seconds : Decimal
  time : RepoTime
  check : SelfCheck

namespace Measured

/-- The part that was run, in percent. -/
def percent (m : Measured) : Decimal := numberIn (m.coverage.get "totals") "percent_covered"

def total (m : Measured) (name : String) : Json :=
  match (m.coverage.get "totals").get name with
  | .null => .int 0
  | j => j

def summary (m : Measured) : String :=
  s!"[round {m.round}: {m.benchmarks} benches, " ++ m.percent.fixed 1 ++ "% covered" ++ m.time.note ++
    m.check.note ++ ", measured in " ++ m.seconds.fixed 1 ++ "s]"

def record (m : Measured) (now : Decimal) (records : List Json) : Json :=
  .object
    [("round", .int m.round), ("ts", .decimal now),
     ("wall_since_prev_s", .decimal (sinceLast now records)), ("coverage_pct", .decimal m.percent),
     ("covered_lines", m.total "covered_lines"), ("num_statements", m.total "num_statements"),
     ("n_bench_fns", .int m.benchmarks), ("n_bench_errors", .int (benchErrors m.coverage).length),
     ("cov_measure_s", .decimal (m.seconds.roundTo 3)),
     ("repo_time_pct", .object (m.time.percents.map fun (name, d) => (name, .decimal d))),
     ("n_below_repo_time", match m.time.below? with
       | some n => .int n
       | none => .null),
     ("semcheck", .object (m.check.map fun (name, _, v) => (name, .text v.name))),
     ("n_not_self_checking", .int m.check.bad)]

end Measured

/-- The report on a round whose coverage could be read. -/
def report (s : Setting) (coverage : Json) : Report :=
  let time := s.timeRun.map (Child.answer "repo_time")
  let edited := if s.checkRun.isSome then editedFiles s.git else []
  let check := s.checkRun.map (Child.answer "semcheck")
  let lines := recordLines s.records
  let m : Measured :=
    { round := lines.length + 1
      coverage := coverage
      benchmarks := benchmarkCount (s.benchmarks.getD "")
      seconds := s.ended.sub s.started
      time := RepoTime.ofAnswer ((time.map (·.value)).getD .null)
      check := SelfCheck.ofAnswer ((check.map (·.value)).getD .null) !edited.isEmpty }
  let records := readRecords lines
  { out := textOf (coverageTable coverage ++ errorLines (benchErrors coverage) ++ m.time.lines ++
      editedLines edited ++ m.check.lines ++ ["", m.summary] ++
      (records.map (stopLines · m.time.below?)).getD [])
    err := (time.map (·.err)).getD "" ++ (check.map (·.err)).getD ""
    calls := (if time.isSome then [timeCall] else []) ++
      (if check.isSome then [gitCall, checkCall] else [])
    added := if s.isReadOnly then []
      else (records.map fun rs => (m.record s.now rs).write ++ "\n").toList }

/-- A round. Nothing is reported unless the coverage could be measured. -/
def round (s : Setting) : Report :=
  let call := coverageCall (Json.list (leftOut.map .text)).write
  match s.coverageRun.trouble with
  | some message => { calls := [call], failure := some (.notRun message) }
  | none =>
    let base : Report := { err := s.coverageRun.err, calls := [call] }
    let code := s.coverageRun.code
    match s.coverage with
    | some text =>
      if code = 0 then match Json.read text with
        | .error e => { base with failure := some (.notJson (e.message text)) }
        | .ok (.object fields) =>
          let r := report s (.object fields)
          { r with err := base.err ++ r.err, calls := base.calls ++ r.calls }
        | .ok _ => { base with failure := some .notObject }
      else failed base code
    | none => failed base code
where
  /-- The report when the coverage could not be measured. -/
  failed (base : Report) (code : Int) : Report :=
    { base with
      exit := if code = 0 then 1 else code
      out := textOf [s!"coverage measurement failed (exit {code})", s.coverageRun.out] }

end Workbench.Measure
