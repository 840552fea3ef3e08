import Workbench.Compile
import Workbench.Machine.Run

/-!
# Running programs in the background

The `Runner`, with `run`, `stop` and the body of its workers, `_run_impl`. Each source text that a runner takes on goes
to a worker of its own. The worker compiles the text, makes a machine and starts it; when the run has come out it sets
the phase of the runner, reports the result and puts the machine away. Each of these is a step of its own, and so is
every instruction. Between any two steps the runner can be asked to run another text, which it refuses while it is
running, or to stop; a call is one act.

The runner has one place for a machine (`_vm`), which a worker fills when it has made its machine and empties at its
end. A request to stop goes to the machine in that place; if there is none, it is not kept. As soon as a worker has set
the phase, another text can be taken on, and the first worker may then empty the place that the second one has filled.

The body of a worker does not return if its text has a block of machine instructions that is not closed, since the
parser does not, and a program may run for ever. A `budget` of steps is set by those who cannot wait that long.
-/

namespace Workbench

namespace Runner

/-- What a runner is doing, or how its last run ended. -/
inductive Phase where
  | idle | running | finished | failed | stopped
  deriving DecidableEq, Repr

def Phase.name : Phase → String
  | idle => "IDLE"
  | running => "RUNNING"
  | finished => "FINISHED"
  | failed => "ERROR"
  | stopped => "STOPPED"

/-- How a run came out. -/
inductive Result where
  | finished (exit : Int)
  | failed (message : String)
  | stopped
  deriving DecidableEq, Repr

namespace Result

/-- The phase of a runner after a run that came out in this way. -/
def phase : Result → Phase
  | finished _ => .finished
  | failed _ => .failed
  | stopped => .stopped

/-- The result of a source text that cannot be compiled. -/
def ofCompileError : CompileError Bytecode.EmitError → Result
  | .source (.number e) => .failed ("Runtime error: " ++ e.message)
  | .source (.parse e) => match e.token? with
    | some t => .failed s!"Syntax error at line {t.line}, col {t.col}: {e.message}"
    | none => .failed ("Runtime error: " ++ e.message)
  | .source (.typing e) => .failed ("Semantic error: " ++ e.message)
  | .emit e => .failed ("Runtime error: " ++ e.message)

/-- The result of a machine that was started after it had been put away. -/
def lost : Result := .failed "Runtime error: 'NoneType' object has no attribute 'run_main'"

/-- The result of a run of the machine; `limit` is the budget, if that was used up. -/
def ofEnding (limit : Nat) : Machine.Ending → Result
  | .exit n => .finished n
  | .fault f => .failed ("Runtime error: " ++ f.message)
  | .stopped => .stopped
  | .stepLimit => .failed s!"Runtime error: {limit} steps"

end Result

/-- A text that the parser does not come to the end of. -/
def isUnclosed : CompileError Bytecode.EmitError → Bool
  | .source (.parse (.unexpected .vmAsmClose _)) => true
  | _ => false

/-- What is heard of a run. -/
inductive Event where
  | output (text : String)
  | done (result : Result)
  deriving DecidableEq, Repr

/-- How far a worker has come with its text. -/
inductive Stage where
  | waiting (source : String)
  /-- It has made a machine, which may have been asked to stop. -/
  | made (image : Machine.Image) (asked : Bool)
  | executing (image : Machine.Image) (run : Machine.Run)
  /-- The run has come out. -/
  | ended (result : Result)
  /-- The phase of the runner is set. -/
  | settled (result : Result)
  | reported (result : Result)
  /-- The machine is put away. -/
  | gone (result : Result)

def printedSince (r r' : Machine.Run) : List Event :=
  if r.printed.length < r'.printed.length then (r'.printed.head?.map Event.output).toList else []

namespace Stage

def isGone : Stage → Bool
  | gone _ => true
  | _ => false

/-- The stage with its machine asked to stop, if it has one. -/
def asked? : Stage → Option Stage
  | made img _ => some (made img true)
  | executing img run => some (executing img { run with stopping := true })
  | _ => none

/-- The next step of a worker, if it takes one: the stage then, and what is heard. `held` says whether there is a
machine in its place. -/
def next (w : Machine.Watch) (budget : Option Nat) (held : Bool) : Stage → Option (Stage × List Event)
  | waiting source => match imageOf source with
    | .ok img => some (made img false, [])
    | .error e => if isUnclosed e then none else some (ended (.ofCompileError e), [])
  | made img asked =>
    if held then match img.main? with
      | some f => some (executing img { state := .start f, stopping := asked }, [])
      | none => some (ended (.ofEnding 0 (.fault .noMain)), [])
    else some (ended .lost, [])
  | executing img run => match run.tick img w (budget.getD (run.steps + 1)) with
    | .ended f => some (ended (.ofEnding (budget.getD 0) f.ending), [])
    | .going run' => some (executing img run', printedSince run run')
  | ended result => some (settled result, [])
  | settled result => some (reported result, [.done result])
  | reported result => some (gone result, [])
  | gone _ => none

end Stage

end Runner

/-- A runner: what it is doing, its workers in the order in which their texts were taken on, and the one whose machine
is in its place. -/
structure Runner where
  phase : Runner.Phase := .idle
  workers : List Runner.Stage := []
  held : Option Nat := none

namespace Runner

def isRunning (r : Runner) : Bool := r.phase == .running

/-- Takes a source text on, unless another run has not come out; says whether it was taken on. -/
def start (r : Runner) (source : String) : Bool × Runner :=
  if r.isRunning then (false, r)
  else (true, { r with phase := .running, workers := r.workers ++ [.waiting source] })

def stop (r : Runner) : Runner :=
  match r.held with
  | some i => match r.workers[i]?.bind Stage.asked? with
    | some s => if r.isRunning then { r with workers := r.workers.set i s } else r
    | none => r
  | none => r

/-- The runner after its `i`-th worker has come to a stage. -/
def moved (r : Runner) (i : Nat) (s : Stage) : Runner where
  phase := match s with
    | .settled result => result.phase
    | _ => r.phase
  workers := r.workers.set i s
  held := match s with
    | .made .. => some i
    | .gone _ => none
    | _ => r.held

/-- The `i`-th worker takes its next step. -/
def advance (w : Machine.Watch) (budget : Option Nat) (r : Runner) (i : Nat) : Runner × List Event :=
  match r.workers[i]?.bind (Stage.next w budget r.held.isSome) with
  | some (s, events) => (r.moved i s, events)
  | none => (r, [])

/-- The workers take steps, the first of them first, until all are gone; `fuel` bounds the number of steps. The events
come last one first. -/
def finishFrom (w : Machine.Watch) (limit : Nat) :
    (fuel : Nat) → Runner → List Event → Runner × List Event
  | 0, r, events => (r, events)
  | fuel + 1, r, events =>
    match r.workers.findIdx? (!·.isGone) with
    | none => (r, events)
    | some i =>
      let (r', more) := r.advance w (some limit) i
      finishFrom w limit fuel r' (more.reverse ++ events)

/-- Does the work of a worker. Besides the steps of the machine, of which `limit` are taken, it takes six. -/
def finish (w : Machine.Watch) (limit : Nat) (r : Runner) : Runner × List Event :=
  let (r', events) := finishFrom w limit (limit + 6) r []
  (r', events.reverse)

end Runner

/-- The number of steps that a program is given. -/
def stepBudget : Nat := 20000

end Workbench
