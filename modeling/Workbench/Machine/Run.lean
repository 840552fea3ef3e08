import Workbench.Machine.Step

/-!
# Runs of the machine

`run_main`, `_run` and `request_stop`: a run starts in `main` and takes steps until it ends: with a
value, with a fault, because it was asked to stop, or because it used up its budget of steps. A request
to stop takes effect before the next fetch, so the instruction during which it comes is still carried
out.
-/

namespace Workbench.Machine

/-- What a run looked like when an instruction was fetched. -/
structure Snapshot where
  pc : Int
  op : Op
  stack : List Int
  locals : Array Int
  depth : Nat

/-- A run so far: the state, the number of instructions fetched, and what was printed, the last text
first. -/
structure Run where
  state : State
  steps : Nat := 0
  printed : List String := []
  stopping : Bool := false
  trace : List Snapshot := []

/-- When a request to stop comes, and whether to keep a trace. -/
structure Watch where
  /-- During the fetch of this step, counted from 1. -/
  stopAtStep : Option Nat := none
  /-- While this text is printed, counted from 1. -/
  stopAfterOutputs : Option Nat := none
  trace : Bool := false

inductive Ending where
  | exit (value : Int)
  | fault (f : Fault)
  | stopped
  | stepLimit
  deriving DecidableEq, Repr

/-- What is said of a run that was asked to stop. -/
def stoppedMessage : String := "Execution stopped by user"

/-- A run that has ended. -/
structure Finished where
  run : Run
  ending : Ending

/-- What one step of a run comes to. -/
inductive Progress where
  | going (r : Run)
  | ended (f : Finished)

namespace Run

def out (r : Run) : List String := r.printed.reverse

def fetched (w : Watch) (r : Run) (i : Instr) : Run :=
  { r with
    steps := r.steps + 1
    trace := if w.trace then
        ⟨r.state.pc, i.op, r.state.stack, r.state.locals, r.state.calls.length⟩ :: r.trace
      else r.trace }

/-- The run after an instruction that left the state `s` and printed `out`. -/
def continued (w : Watch) (r : Run) (s : State) (out : Option String) : Run :=
  let printed := out.toList ++ r.printed
  { r with
    state := s
    printed := printed
    stopping := r.stopping || w.stopAtStep == some r.steps ||
      (out.isSome && w.stopAfterOutputs == some printed.length) }

/-- Takes one step, unless the run has ended or has taken `limit` steps already. -/
def tick (img : Image) (w : Watch) (limit : Nat) (r : Run) : Progress :=
  if img.code.size ≤ r.state.pc then .ended ⟨r, .exit 0⟩
  else if r.stopping then .ended ⟨r, .stopped⟩
  else match img.fetch r.state.pc with
    | .error e => .ended ⟨r, .fault (.ofRead e)⟩
    | .ok i =>
      if limit ≤ r.steps then .ended ⟨r, .stepLimit⟩
      else
        let r' := r.fetched w i
        match execute img i { r.state with pc := r.state.pc + 1 } with
        | .exit v s => .ended ⟨{ r' with state := s }, .exit v⟩
        | .fault f s => .ended ⟨{ r' with state := s }, .fault f⟩
        | .next s out => .going (r'.continued w s out)

/-- Takes steps until the run ends; `fuel` bounds their number. -/
def proceed (img : Image) (w : Watch) (limit : Nat) : (fuel : Nat) → Run → Finished
  | 0, r => ⟨r, .stepLimit⟩
  | fuel + 1, r =>
    match r.tick img w limit with
    | .ended f => f
    | .going r' => proceed img w limit fuel r'

end Run

def Image.run (img : Image) (limit : Nat) (w : Watch) : Finished :=
  match img.main? with
  | none => ⟨{ state := .idle }, .fault .noMain⟩
  | some f => Run.proceed img w limit (limit + 1) { state := .start f }

end Workbench.Machine
