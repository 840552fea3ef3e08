import Workbench.Proofs.MachineRun
import Workbench.Proofs.Shape

/-!
# Running shapes

`Shape.exec` runs a shape on the operand stack and the cells of one call. It has no addresses: a test chooses
between two shapes, a loop repeats, and a call runs the shape of another function. What it takes from
the machine is the effect of single instructions. Its first argument bounds how deep loops and calls
may be nested in time; a run that needs more is cut short.

Beside what is printed, the log of a run says where the operand stack and the source part: where an
expression that is a statement leaves its value, and where a function that ends without a value of its own
takes an operand of its callers for it.
-/

namespace Workbench.Bytecode

open Machine (Instr Op Fault Image ofBool)

/-- What the code of a function works on. -/
@[ext] structure Act where
  stack : List Int
  locals : Array Int

/-- What is logged of a run. -/
inductive Event where
  | text (s : String)
  /-- An expression that is a statement leaves its value on the stack. -/
  | left
  /-- A function ends without a value of its own and takes an operand that was there before. -/
  | taken
  deriving DecidableEq

def texts (log : List Event) : List String := log.filterMap fun
  | .text s => some s
  | _ => none

@[simp] theorem texts_nil : texts [] = [] := rfl
@[simp] theorem texts_append (a b : List Event) : texts (a ++ b) = texts a ++ texts b := List.filterMap_append
@[simp] theorem texts_text (s : String) : texts [.text s] = [s] := rfl
@[simp] theorem texts_left : texts [.left] = [] := rfl
@[simp] theorem texts_taken : texts [.taken] = [] := rfl
@[simp] theorem texts_map_text (out : List String) : texts (out.map .text) = out := by
  simp [texts]

/-- How a run comes to its end. -/
inductive Flow (α : Type) where
  | done (a : α)
  /-- A return with a value and the stack below it. -/
  | ret (value : Int) (rest : List Int)
  | fault (f : Fault)
  /-- The bound on the run is reached. -/
  | cut

/-- A run: its log and its end. -/
structure Result (α : Type) where
  log : List Event
  flow : Flow α

namespace Result

variable {α β γ : Type}

/-- A run that does nothing. -/
def pure (a : α) : Result α := ⟨[], .done a⟩

/-- A run that logs one event. -/
def event (e : Event) (a : α) : Result α := ⟨[e], .done a⟩

/-- A run that stops at once. -/
def fault (f : Fault) : Result α := ⟨[], .fault f⟩

/-- A run that is cut short at once. -/
def cut : Result α := ⟨[], .cut⟩

/-- A run after another one. -/
def bind (r : Result α) (f : α → Result β) : Result β :=
  match r.flow with
  | .done a => ⟨r.log ++ (f a).log, (f a).flow⟩
  | .ret v rest => ⟨r.log, .ret v rest⟩
  | .fault e => ⟨r.log, .fault e⟩
  | .cut => ⟨r.log, .cut⟩

@[simp] theorem pure_bind (a : α) (f : α → Result β) : (pure a).bind f = f a := rfl

@[simp] theorem bind_pure (r : Result α) : r.bind pure = r := by
  obtain ⟨log, flow⟩ := r
  cases flow <;> simp [bind, pure]

end Result

/-- A function as shapes call it: its body, whether its code ends without pushing a value, the number of its
first string, and its cells and parameters. -/
structure Routine where
  body : Shape
  bare : Bool
  string : Nat
  size : Nat
  arity : Nat

/-- The cells of a new call. -/
def Routine.frame (r : Routine) (args : List Int) : Array Int :=
  Machine.callCells { name := "", entry := 0, numLocals := r.size, numParams := r.arity } args

/-- What a call of the routine comes to when its body has run: a value and the stack below it. -/
def Routine.close (r : Routine) (body : Result Act) : Result (Int × List Int) :=
  match body.flow with
  | .done a => match r.bare, a.stack with
    | true, v :: rest => ⟨body.log ++ [.taken], .done (v, rest)⟩
    | _, rest => ⟨body.log, .done (0, rest)⟩
  | .ret v rest => ⟨body.log, .done (v, rest)⟩
  | .fault f => ⟨body.log, .fault f⟩
  | .cut => ⟨body.log, .cut⟩

theorem Routine.close_ne_ret (r : Routine) (res : Result Act) (v : Int) (rest : List Int) :
    (r.close res).flow ≠ .ret v rest := by
  unfold close
  split
  · split <;> simp
  · simp
  · simp
  · simp

/-- The functions that shapes call by name, and the texts of the strings by number. -/
structure Library where
  routine : String → Routine
  strings : List (Int × String)

/-- A machine image with the strings of the library and nothing else. -/
def Library.image (lib : Library) : Image := { code := #[], functions := #[], strings := lib.strings }

namespace Act

/-- Takes one operand. -/
def pop {α : Type} (a : Act) (f : Int → Act → Result α) : Result α :=
  match a.stack with
  | v :: r => f v { a with stack := r }
  | [] => .fault .emptyStack

def push (a : Act) (v : Int) : Act := { a with stack := v :: a.stack }

/-- The effect of a plain instruction. -/
def perform (lib : Library) (i : Instr) (a : Act) : Result Act :=
  match Machine.execute lib.image i ⟨0, a.stack, a.locals, []⟩ with
  | .next t out => ⟨out.toList.map .text, .done ⟨t.stack, t.locals⟩⟩
  | .exit v t => ⟨[], .ret v t.stack⟩
  | .fault f _ => ⟨[], .fault f⟩

/-- The call of a routine whose body is run by `go`. -/
def enter (r : Routine) (go : Act → Result Act) (a : Act) : Result Act :=
  if a.stack.length < r.arity then .fault .argUnderflow
  else (r.close (go ⟨a.stack.drop r.arity, r.frame (a.stack.take r.arity).reverse⟩)).bind fun (v, rest) =>
    .pure ⟨v :: rest, a.locals⟩

@[simp] theorem pop_push {α : Type} (a : Act) (v : Int) (f : Int → Act → Result α) : (a.push v).pop f = f v a := rfl

variable {lib : Library} {k : Nat} {a : Act}

theorem perform_loadLocal {v : Int} (h : a.locals[k]? = some v) :
    a.perform lib ⟨.loadLocal, some (k : Int)⟩ = .pure (a.push v) := by
  have hk : k < a.locals.size := (Array.getElem?_eq_some_iff.1 h).1
  simp [perform, Machine.execute, Machine.withArg, Machine.State.load, Machine.cellAt_ofNat hk, Machine.State.push, h,
    Result.pure, push]

theorem perform_storeLocal (v : Int) (h : k < a.locals.size) : (a.push v).perform lib ⟨.storeLocal, some (k : Int)⟩ =
      .pure { a with locals := a.locals.setIfInBounds k v } := by
  simp [perform, Machine.execute, Machine.State.pop₁, Machine.withArg, Machine.State.store, Machine.cellAt_ofNat h,
    Result.pure, push]

end Act

namespace Shape

/-- Runs a shape whose first string has the number `k`. Loops go round and calls are made through `deeper`. -/
def run (lib : Library) (deeper : Nat → Shape → Act → Result Act) : (k : Nat) → Shape → Act → Result Act
  | _, .skip, a => .pure a
  | _, .instr i, a => a.perform lib i
  | k, .text _, a => .pure (a.push k)
  | _, .say newline s, a => .event (.text (if newline then s ++ "\n" else s)) a
  | k, .seq s t, a => (s.run lib deeper k a).bind (t.run lib deeper (k + s.strings.length))
  | k, .circuit decided s, a => a.pop fun v a =>
    if decide (v ≠ 0) = decided then .pure (a.push (ofBool decided))
    else (s.run lib deeper k a).bind fun a => a.pop fun w a => .pure (a.push (ofBool (w ≠ 0)))
  | k, .branch s t, a => a.pop fun v a =>
    if v ≠ 0 then s.run lib deeper k a else t.run lib deeper (k + s.strings.length) a
  | k, .loop s t, a => (s.run lib deeper k a).bind fun a => a.pop fun v a =>
    if v ≠ 0 then (t.run lib deeper (k + s.strings.length) a).bind (deeper k (.loop s t)) else .pure a
  | _, .call f, a => a.enter (lib.routine f) (deeper (lib.routine f).string (lib.routine f).body)
  | _, .ret, a => ⟨[], .ret (a.stack.headD 0) a.stack.tail⟩
  | k, .drop s, a => (s.run lib deeper k a).bind (.event .left)

/-- Runs a shape within a bound. -/
def exec (lib : Library) : (n k : Nat) → Shape → Act → Result Act
  | 0 => fun _ _ _ => .cut
  | n + 1 => run lib (exec lib n)

end Shape

/-- Runs a routine that nobody calls, with zeros for its arguments. -/
def Routine.start (lib : Library) (n : Nat) (r : Routine) : Result (Int × List Int) :=
  r.close (r.body.exec lib n r.string ⟨[], Array.replicate r.size 0⟩)

end Workbench.Bytecode
