import Workbench.Machine.State

/-!
# One step of the machine

The body of the loop in `_run`: `execute` carries out an instruction whose address the program counter
has passed already, and `step` fetches and executes one. A fault leaves what the instruction did before
it: operands that were taken from the stack are gone, and cells that were written stay written.
-/

namespace Workbench.Machine

/-- What one step comes to. -/
inductive Outcome where
  /-- The run goes on, after printing a text or none. -/
  | next (s : State) (out : Option String)
  /-- The run ends with a value. -/
  | exit (value : Int) (s : State)
  /-- The run cannot go on. -/
  | fault (f : Fault) (s : State)

/-- Arithmetic is modulo 2^16. -/
def wrap (n : Int) : Int := n % 65536

def ofBool (b : Bool) : Int := if b then 1 else 0

namespace State

def push (s : State) (v : Int) : Outcome := .next { s with stack := v :: s.stack } none

/-- The fault of taking operands that are not there: those that are there are taken. -/
def underflow (s : State) : Outcome := .fault .emptyStack { s with stack := [] }

def pop₁ (s : State) (f : State → Int → Outcome) : Outcome :=
  match s.stack with
  | a :: r => f { s with stack := r } a
  | _ => s.underflow

/-- Takes two operands, given in the order in which they were pushed. -/
def pop₂ (s : State) (f : State → Int → Int → Outcome) : Outcome :=
  match s.stack with
  | b :: a :: r => f { s with stack := r } a b
  | _ => s.underflow

/-- Takes three operands, given in the order in which they were pushed. -/
def pop₃ (s : State) (f : State → Int → Int → Int → Outcome) : Outcome :=
  match s.stack with
  | c :: b :: a :: r => f { s with stack := r } a b c
  | _ => s.underflow

def load (s : State) (i : Int) : Outcome :=
  match cellAt s.locals.size i with
  | .error e => .fault (.ofRead e) s
  | .ok k => s.push (s.locals.getD k 0)

def store (s : State) (i v : Int) : Outcome :=
  match cellAt s.locals.size i with
  | .error e => .fault (.ofWrite e) s
  | .ok k => .next { s with locals := s.locals.setIfInBounds k v } none

/-- A cell number that counts from the front and is in range. -/
def hasCell (s : State) (i : Int) : Bool := 0 ≤ i && i < s.locals.size

def jump (s : State) (target : Int) : Outcome := .next { s with pc := target } none

def print (s : State) (text : String) : Outcome := .next s (some text)

end State

/-- Copies `count` cells one by one from `src` to `dst`, upwards. It stops at the first cell that
does not exist, with the cells before it copied. -/
def copyCells (dst src : Int) : Nat → Array Int → Except (Array Int) (Array Int)
  | 0, cells => .ok cells
  | n + 1, cells =>
    if 0 ≤ src && src < cells.size && 0 ≤ dst && dst < cells.size then
      copyCells (dst + 1) (src + 1) n (cells.setIfInBounds dst.toNat (cells.getD src.toNat 0))
    else .error cells

/-- Fills `count` cells from `dst` upwards. It stops at the first cell that does not exist, with
the cells before it filled. -/
def fillCells (dst value : Int) : Nat → Array Int → Except (Array Int) (Array Int)
  | 0, cells => .ok cells
  | n + 1, cells =>
    if 0 ≤ dst && dst < cells.size then
      fillCells (dst + 1) value n (cells.setIfInBounds dst.toNat value)
    else .error cells

def copyLocals (s : State) (dst src count : Int) : Outcome :=
  if count < 0 then .fault .copyNegative s
  else match copyCells dst src count.toNat s.locals with
    | .ok cells => .next { s with locals := cells } none
    | .error cells => .fault (.copyRange src dst count s.locals.size) { s with locals := cells }

def fillLocals (s : State) (dst value count : Int) : Outcome :=
  if count < 0 then .fault .fillNegative s
  else match fillCells dst value count.toNat s.locals with
    | .ok cells => .next { s with locals := cells } none
    | .error cells => .fault (.fillRange dst count s.locals.size) { s with locals := cells }

/-- The cells of a new call: the arguments, and zeros after them. Arguments without a cell are
dropped. -/
def callCells (f : FunctionInfo) (args : List Int) : Array Int :=
  let size := f.numLocals.toNat
  let given := (args.take size).map wrap
  (given ++ List.replicate (size - given.length) 0).toArray

/-- Calls a function with the operands on top of the stack. -/
def enter (s : State) (f : FunctionInfo) : Outcome :=
  let n := f.numParams.toNat
  if s.stack.length < n then .fault .argUnderflow { s with stack := [] }
  else .next
    { pc := f.entry
      stack := s.stack.drop n
      locals := callCells f (s.stack.take n).reverse
      calls := ⟨s.pc, s.locals⟩ :: s.calls } none

/-- Returns with the top of the stack, or with zero if the stack is empty. -/
def leave (s : State) : Outcome :=
  let value := s.stack.headD 0
  let rest := s.stack.tail
  match s.calls with
  | [] => .exit value { s with stack := rest }
  | fr :: frs => .next { pc := fr.pc, stack := value :: rest, locals := fr.locals, calls := frs } none

/-- Gives the operand of an instruction to `f`. -/
def withArg (i : Instr) (s : State) (f : Int → Outcome) : Outcome :=
  match i.arg with
  | some n => f n
  | none => .fault .noOperand s

/-- Carries out an instruction; the program counter is past it. -/
def execute (img : Image) (i : Instr) (s : State) : Outcome :=
  match i.op with
  | .pushInt => withArg i s s.push
  | .loadLocal => withArg i s s.load
  | .storeLocal => s.pop₁ fun s v => withArg i s fun n => s.store n v
  | .add => s.pop₂ fun s a b => s.push (wrap (a + b))
  | .sub => s.pop₂ fun s a b => s.push (wrap (a - b))
  | .mul => s.pop₂ fun s a b => s.push (wrap (a * b))
  | .div => s.pop₂ fun s a b => if b = 0 then .fault .divisionByZero s else s.push (a.fdiv b)
  | .neg => s.pop₁ fun s a => s.push (wrap (-a))
  | .cmpEq => s.pop₂ fun s a b => s.push (ofBool (a = b))
  | .cmpNe => s.pop₂ fun s a b => s.push (ofBool (a ≠ b))
  | .cmpLt => s.pop₂ fun s a b => s.push (ofBool (a < b))
  | .cmpLe => s.pop₂ fun s a b => s.push (ofBool (a ≤ b))
  | .cmpGt => s.pop₂ fun s a b => s.push (ofBool (a > b))
  | .cmpGe => s.pop₂ fun s a b => s.push (ofBool (a ≥ b))
  | .not => s.pop₁ fun s a => s.push (ofBool (a = 0))
  | .jmp => withArg i s s.jump
  | .jz => s.pop₁ fun s a => if a = 0 then withArg i s s.jump else .next s none
  | .jnz => s.pop₁ fun s a => if a ≠ 0 then withArg i s s.jump else .next s none
  | .call => withArg i s fun n =>
    match img.function n with
    | .error e => .fault (.ofRead e) s
    | .ok f => enter s f
  | .ret => leave s
  | .loadLocalIdx => s.pop₁ fun s a => withArg i s fun base => s.load (base + a)
  | .storeLocalIdx => s.pop₂ fun s v a => withArg i s fun base =>
    if s.hasCell (base + a) then
      .next { s with locals := s.locals.setIfInBounds (base + a).toNat v } none
    else .fault (.storeElement base a s.locals.size) s
  | .loadIndirect => s.pop₁ fun s p =>
    if s.hasCell p then s.push (s.locals.getD p.toNat 0)
    else .fault (.loadIndirect p s.locals.size) s
  | .storeIndirect => s.pop₂ fun s p v =>
    if s.hasCell p then .next { s with locals := s.locals.setIfInBounds p.toNat v } none
    else .fault (.storeIndirect p s.locals.size) s
  | .memcpyLocals => s.pop₃ copyLocals
  | .memsetLocals => s.pop₃ fillLocals
  | .printInt => s.pop₁ fun s v => s.print (toString v)
  | .printStr => s.pop₁ fun s v => s.print (img.text v)
  | .printlnInt => s.pop₁ fun s v => s.print (toString v ++ "\n")
  | .printlnStr => s.pop₁ fun s v => s.print (img.text v ++ "\n")
  | .other name => .fault (.unknownOp name) s

/-- Fetches and executes one instruction. Past the end of the code the run ends with zero. -/
def step (img : Image) (s : State) : Outcome :=
  if img.code.size ≤ s.pc then .exit 0 s
  else match img.fetch s.pc with
    | .error e => .fault (.ofRead e) s
    | .ok i => execute img i { s with pc := s.pc + 1 }

end Workbench.Machine
