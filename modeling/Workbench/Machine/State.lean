import Workbench.Machine.Cell
import Workbench.Machine.Instr

/-!
# The state of the machine

The machine, `QuinVM`, runs the code of an image over an operand stack and a stack of calls. Each call
has its own cells (locals); the cells of the callers wait, untouched, on the call stack.
-/

namespace Workbench.Machine

/-- A function of an image: where its code starts, how many cells it has, and how many of them
take arguments. -/
structure FunctionInfo where
  name : String
  entry : Int
  numLocals : Int
  numParams : Int
  deriving DecidableEq, Repr

/-- What the machine runs: code, functions, and the texts of the strings by number. -/
structure Image where
  code : Array Instr
  functions : Array FunctionInfo
  strings : List (Int × String)

namespace Image

/-- The instruction at an address, which may count from the end of the code. -/
def fetch (img : Image) (pc : Int) : Except BadIndex Instr := do
  let k ← cellAt img.code.size pc
  match img.code[k]? with
  | some i => .ok i
  | none => .error .outOfRange

/-- The function with the given number, which may count from the last one. -/
def function (img : Image) (n : Int) : Except BadIndex FunctionInfo := do
  let k ← cellAt img.functions.size n
  match img.functions[k]? with
  | some f => .ok f
  | none => .error .outOfRange

/-- The text of a string; the empty text if there is none. Of two entries for one number the later
one counts. -/
def text (img : Image) (n : Int) : String := (img.strings.reverse.lookup n).getD ""

/-- The function that a run starts with: the last one named `main`. -/
def main? (img : Image) : Option FunctionInfo :=
  img.functions.toList.reverse.find? fun f => f.name == "main"

end Image

/-- A caller that waits: where it goes on, and its cells. -/
structure Frame where
  pc : Int
  locals : Array Int
  deriving DecidableEq, Repr

/-- The state of the machine. Both stacks have their top first. -/
structure State where
  pc : Int
  stack : List Int
  locals : Array Int
  calls : List Frame
  deriving DecidableEq, Repr

def State.start (f : FunctionInfo) : State :=
  { pc := f.entry, stack := [], locals := Array.replicate f.numLocals.toNat 0, calls := [] }

def State.idle : State := { pc := 0, stack := [], locals := #[], calls := [] }

/-- Why the machine cannot go on. -/
inductive Fault where
  | noMain
  | emptyStack
  | noOperand
  | readOutOfRange
  | writeOutOfRange
  | indexTooLarge
  | divisionByZero
  | argUnderflow
  | storeElement (base index : Int) (size : Nat)
  | loadIndirect (cell : Int) (size : Nat)
  | storeIndirect (cell : Int) (size : Nat)
  | copyNegative
  | copyRange (src dst count : Int) (size : Nat)
  | fillNegative
  | fillRange (dst count : Int) (size : Nat)
  | unknownOp (name : String)
  deriving DecidableEq, Repr

namespace Fault

/-- What is said of a fault; nothing for a missing operand. -/
def message : Fault → String
  | noMain => "No 'main' function defined"
  | emptyStack => "pop from empty list"
  | noOperand => ""
  | readOutOfRange => "list index out of range"
  | writeOutOfRange => "list assignment index out of range"
  | indexTooLarge => "cannot fit 'int' into an index-sized integer"
  | divisionByZero => "Division by zero"
  | argUnderflow => "Stack underflow when popping call arguments"
  | storeElement b i n => s!"STORE_LOCAL_IDX out of range: base={b}, idx={i}, num_locals={n}"
  | loadIndirect p n => s!"LOAD_INDIRECT out of range: p={p}, num_locals={n}"
  | storeIndirect p n => s!"STORE_INDIRECT out of range: p={p}, num_locals={n}"
  | copyNegative => "MEMCPY_LOCALS negative count"
  | copyRange s d c n =>
    s!"MEMCPY_LOCALS out of range: src={s}, dst={d}, count={c}, num_locals={n}"
  | fillNegative => "MEMSET_LOCALS negative count"
  | fillRange d c n => s!"MEMSET_LOCALS out of range: dst={d}, count={c}, num_locals={n}"
  | unknownOp name => "Unknown opcode " ++ name

def ofRead : BadIndex → Fault
  | .outOfRange => readOutOfRange
  | .tooLarge => indexTooLarge

def ofWrite : BadIndex → Fault
  | .outOfRange => writeOutOfRange
  | .tooLarge => indexTooLarge

end Fault

end Workbench.Machine
