import Mathlib.Logic.Function.Basic
import Mathlib.Logic.Relation
import Workbench.Assembly.Line

/-!
# The processor

What lines of assembly do on a 16-bit processor. Memory is one segment of bytes, in which every register
points. A flag that an instruction leaves undefined has no value, and a jump that asks for it has no meaning:
code that is shown to run does not rely on it. Calls and lines that were written in the program itself have no
meaning here.

Results are kept apart from the exact ones: the carry says that the result of an operation is not the exact one
on natural numbers, the overflow that it is not the exact one on integers.
-/

namespace Workbench.Assembly

/-! ### Flags -/

/-- The flags that the generated code depends on; `none` is an undefined flag. -/
structure Flags where
  zero : Option Bool := none
  sign : Option Bool := none
  carry : Option Bool := none
  overflow : Option Bool := none

namespace Flags

variable {w : Nat}

def ofResult (r : BitVec w) (carry overflow : Option Bool) : Flags := ⟨some (r = 0), some r.msb, carry, overflow⟩

/-- Flags after arithmetic that gives `r` for the exact results `n` without and `m` with a sign. -/
def arithmetic (r : BitVec w) (n m : Int) : Flags := .ofResult r (some (r.toNat ≠ n)) (some (r.toInt ≠ m))

def compare (a b : BitVec w) : Flags := arithmetic (a - b) (a.toNat - b.toNat) (a.toInt - b.toInt)

/-- Flags after an operation on single bits. -/
def logic (r : BitVec w) : Flags := .ofResult r (some false) (some false)

def taken? (f : Flags) : Jump → Option Bool
  | .always => some true
  | .e => f.zero
  | .ne => f.zero.map (!·)
  | .l => return (← f.sign) != (← f.overflow)
  | .ge => return (← f.sign) == (← f.overflow)
  | .le => return (← f.zero) || (← f.sign) != (← f.overflow)
  | .g => return !(← f.zero) && (← f.sign) == (← f.overflow)

end Flags

/-- The relation of two words, as integers, that a jump after their comparison asks for. -/
def Jump.holds (a b : BitVec 16) : Jump → Bool
  | .always => true
  | .e => a = b
  | .ne => a ≠ b
  | .l => a.toInt < b.toInt
  | .le => a.toInt ≤ b.toInt
  | .g => a.toInt > b.toInt
  | .ge => a.toInt ≥ b.toInt

/-! ### States -/

/-- The sizes of operands. -/
inductive Width where
  | byte | word

abbrev Width.bits : Width → Nat
  | byte => 8
  | word => 16

/-- Registers that hold a byte. -/
def Reg.isByte : Reg → Bool
  | al | ah | cl | dl => true
  | _ => false

/-- A byte register decides the width of an instruction. -/
def Operand.width : Operand → Width
  | .reg r => if r.isByte then .byte else .word
  | _ => .word

/-- The width of an instruction with two operands. -/
def Width.max : Width → Width → Width
  | .word, .word => .word
  | _, _ => .byte

/-- Registers, flags and memory, and the number of the line that comes next. -/
structure Processor where
  ax : BitVec 16 := 0
  bx : BitVec 16 := 0
  cx : BitVec 16 := 0
  dx : BitVec 16 := 0
  si : BitVec 16 := 0
  di : BitVec 16 := 0
  bp : BitVec 16
  sp : BitVec 16
  flags : Flags := {}
  memory : BitVec 16 → BitVec 8
  pc : Nat := 0

namespace Processor

/-- The word at an address: its low byte stands first. -/
def wordAt (s : Processor) (a : BitVec 16) : BitVec 16 := s.memory (a + 1) ++ s.memory a

/-- Changes the byte at an address. -/
def setByteAt (s : Processor) (a : BitVec 16) (v : BitVec 8) : Processor :=
  { s with memory := Function.update s.memory a v }

/-- Changes the word at an address. -/
def setWordAt (s : Processor) (a v : BitVec 16) : Processor :=
  (s.setByteAt a (v.extractLsb' 0 8)).setByteAt (a + 1) (v.extractLsb' 8 8)

def wordReg? (s : Processor) : Reg → Option (BitVec 16)
  | .ax => some s.ax
  | .bx => some s.bx
  | .cx => some s.cx
  | .dx => some s.dx
  | .si => some s.si
  | .di => some s.di
  | .bp => some s.bp
  | .sp => some s.sp
  | _ => none

def byteReg? (s : Processor) : Reg → Option (BitVec 8)
  | .al => some (s.ax.extractLsb' 0 8)
  | .ah => some (s.ax.extractLsb' 8 8)
  | .cl => some (s.cx.extractLsb' 0 8)
  | .dl => some (s.dx.extractLsb' 0 8)
  | _ => none

/-- Changes a register of 16 bits. -/
def setWordReg? (s : Processor) (r : Reg) (v : BitVec 16) : Option Processor :=
  match r with
  | .ax => some { s with ax := v }
  | .bx => some { s with bx := v }
  | .cx => some { s with cx := v }
  | .dx => some { s with dx := v }
  | .si => some { s with si := v }
  | .di => some { s with di := v }
  | .bp => some { s with bp := v }
  | .sp => some { s with sp := v }
  | _ => none

/-- Changes a register of 8 bits and leaves the other half as it is. -/
def setByteReg? (s : Processor) (r : Reg) (v : BitVec 8) : Option Processor :=
  match r with
  | .al => some { s with ax := s.ax.extractLsb' 8 8 ++ v }
  | .ah => some { s with ax := v ++ s.ax.extractLsb' 0 8 }
  | .cl => some { s with cx := s.cx.extractLsb' 8 8 ++ v }
  | .dl => some { s with dx := s.dx.extractLsb' 8 8 ++ v }
  | _ => none

def address? (s : Processor) : Operand → Option (BitVec 16)
  | .local k => some (s.bp - .ofNat 16 k)
  | .element k => some (s.bp + s.si - .ofNat 16 k)
  | .at r => s.wordReg? r
  | _ => none

def get? (s : Processor) : (w : Width) → Operand → Option (BitVec w.bits)
  | .word, .reg r => s.wordReg? r
  | .byte, .reg r => s.byteReg? r
  | w, .imm n => some (.ofInt w.bits n)
  | .word, x => (s.address? x).map s.wordAt
  | .byte, x => (s.address? x).map s.memory

def set? (s : Processor) : (w : Width) → Operand → BitVec w.bits → Option Processor
  | .word, .reg r, v => s.setWordReg? r v
  | .byte, .reg r, v => s.setByteReg? r v
  | .word, x, v => (s.address? x).map (s.setWordAt · v)
  | .byte, x, v => (s.address? x).map (s.setByteAt · v)

theorem memory_setByteAt (s : Processor) (a : BitVec 16) (v : BitVec 8) :
    (s.setByteAt a v).memory = Function.update s.memory a v := rfl

theorem wordAt_setWordAt (s : Processor) (a v : BitVec 16) : (s.setWordAt a v).wordAt a = v := by
  have hne : a ≠ a + 1 := by bv_omega
  rw [wordAt, setWordAt, memory_setByteAt, memory_setByteAt, Function.update_self, Function.update_of_ne hne,
    Function.update_self]
  exact BitVec.extractLsb'_append_extractLsb'

theorem memory_setWordAt (s : Processor) {a b : BitVec 16} (v : BitVec 16) (h : b ≠ a) (h' : b ≠ a + 1) :
    (s.setWordAt a v).memory b = s.memory b := by
  rw [setWordAt, memory_setByteAt, memory_setByteAt, Function.update_of_ne h', Function.update_of_ne h]

end Processor

/-! ### Bytes of words -/

/-- The lower byte of a word. -/
def low (a : BitVec 16) : BitVec 8 := a.extractLsb' 0 8

/-- The upper byte of a word. -/
def high (a : BitVec 16) : BitVec 8 := a.extractLsb' 8 8

theorem low_append (x y : BitVec 8) : low (x ++ y) = y := BitVec.extractLsb'_append_eq_right

theorem high_append_low (a : BitVec 16) : high a ++ low a = a := BitVec.extractLsb'_append_extractLsb'

theorem low_shift (a : BitVec 16) : low (a >>> 8) = high a := by
  apply BitVec.eq_of_getLsbD_eq
  intro i hi
  simp [low, high]

/-! ### Instructions -/

/-- What a line does. -/
inductive Outcome where
  | next (s : Processor)
  /-- The divisor is zero or the quotient has no room. -/
  | divideError
  /-- The line has no meaning here. -/
  | undefined

/-- The outcome of a line that has a meaning or none. -/
def Outcome.ofOption : Option Processor → Outcome
  | some s => .next s
  | none => .undefined

/-- The value that an instruction gives its first operand, and the flags. -/
def Op₂.compute {w : Nat} (f : Flags) (a b : BitVec w) : Op₂ → Option (BitVec w × Flags)
  | .mov => some (b, f)
  | .add => some (a + b, .arithmetic (a + b) (a.toNat + b.toNat) (a.toInt + b.toInt))
  | .sub => some (a - b, .compare a b)
  | .sbb => f.carry.map fun c =>
    let r := a - b - .ofNat w c.toNat
    (r, .arithmetic r (a.toNat - b.toNat - c.toNat) (a.toInt - b.toInt - c.toNat))
  | .and => some (a &&& b, .logic (a &&& b))
  | .or => some (a ||| b, .logic (a ||| b))
  | .xor => some (a ^^^ b, .logic (a ^^^ b))
  | .cmp => some (a, .compare a b)
  | .lea | .shl | .shr => none

namespace Processor

/-- How far a value is shifted; counts from 32 on mean different things to different processors. -/
def count? (s : Processor) : Operand → Option Nat
  | .imm n => if 0 ≤ n ∧ n < 32 then some n.toNat else none
  | .reg .cl => if (s.cx.extractLsb' 0 8).toNat < 32 then some (s.cx.extractLsb' 0 8).toNat else none
  | _ => none

def shift? (s : Processor) (dst src : Operand) (f : (w : Nat) → BitVec w → Nat → BitVec w) : Option Processor := do
  let a ← s.get? dst.width dst
  let n ← s.count? src
  let r := f _ a n
  set? { s with flags := if n = 0 then s.flags else .ofResult r none none } dst.width dst r

def two? (s : Processor) (op : Op₂) (dst src : Operand) : Option Processor :=
  match op with
  | .lea => (s.address? src).bind (s.set? .word dst)
  | .shl => s.shift? dst src fun _ a n => a <<< n
  | .shr => s.shift? dst src fun _ a n => a >>> n
  | op => do
    let w := dst.width.max src.width
    let a ← s.get? w dst
    let b ← s.get? w src
    let (r, f) ← op.compute s.flags a b
    set? { s with flags := f } w dst r

/-- Puts a word on the stack. The stack pointer moves first. -/
def push? (s : Processor) (x : Operand) : Option Processor := do
  let s := { s with sp := s.sp - 2 }
  let v ← s.get? .word x
  return s.setWordAt s.sp v

/-- Takes a word from the stack. -/
def pop? (s : Processor) (x : Operand) : Option Processor :=
  set? { s with sp := s.sp + 2 } .word x (s.wordAt s.sp)

/-- Multiplies `ax` by a word; the product is in `dx` and `ax`. -/
def imul (s : Processor) (b : BitVec 16) : Processor :=
  let product := s.ax.toInt * b.toInt
  let low := BitVec.ofInt 16 product
  { s with
    ax := low
    dx := .ofInt 16 (product / 65536)
    flags := { carry := some (low.toInt ≠ product), overflow := some (low.toInt ≠ product) } }

/-- Divides what is in `dx` and `ax` by a word; the quotient is in `ax`, the rest in `dx`. -/
def idiv (s : Processor) (b : BitVec 16) : Outcome :=
  let dividend := s.dx.toInt * 65536 + s.ax.toNat
  let quotient := dividend.tdiv b.toInt
  if b = 0 ∨ quotient < -32767 ∨ 32767 < quotient then .divideError
  else .next { s with ax := .ofInt 16 quotient, dx := .ofInt 16 (dividend.tmod b.toInt), flags := {} }

def one (s : Processor) (op : Op₁) (x : Operand) : Outcome :=
  match op with
  | .push => .ofOption (s.push? x)
  | .pop => .ofOption (s.pop? x)
  | .neg => .ofOption do
    let a ← s.get? x.width x
    set? { s with flags := .arithmetic (-a) (-a.toNat) (-a.toInt) } x.width x (-a)
  | .not => .ofOption do
    let a ← s.get? x.width x
    s.set? x.width x (~~~a)
  | .inc => .ofOption do
    let a ← s.get? x.width x
    set? { s with flags := .ofResult (a + 1) s.flags.carry (some ((a + 1).toInt ≠ a.toInt + 1)) } x.width x (a + 1)
  | .dec => .ofOption do
    let a ← s.get? x.width x
    set? { s with flags := .ofResult (a - 1) s.flags.carry (some ((a - 1).toInt ≠ a.toInt - 1)) } x.width x (a - 1)
  | .imul => match s.get? .word x with
    | some b => .next (s.imul b)
    | none => .undefined
  | .idiv => match s.get? .word x with
    | some b => s.idiv b
    | none => .undefined

/-- Goes on at a label if the jump is taken. -/
def jump (lines : List Line) (s : Processor) (j : Jump) (target : String) : Outcome :=
  match s.flags.taken? j with
  | some true => match lines.idxOf? (.label target) with
    | some k => .next { s with pc := k }
    | none => .undefined
  | some false => .next s
  | none => .undefined

/-- Carries out an instruction. -/
def execute (lines : List Line) (s : Processor) : Instr → Outcome
  | .two op dst src => .ofOption (s.two? op dst src)
  | .one op x => s.one op x
  | .cwd => .next { s with dx := if s.ax.msb then -1 else 0 }
  | .jump j target => s.jump lines j target
  | .ret | .call _ => .undefined

/-- Carries out the line that comes next. -/
def step (lines : List Line) (s : Processor) : Outcome :=
  match lines[s.pc]? with
  | some (.instr i) => execute lines { s with pc := s.pc + 1 } i
  | some (.label _) | some (.exported _) => .next { s with pc := s.pc + 1 }
  | some (.written _) | none => .undefined

/-- The states that are reached step by step. -/
abbrev Runs (lines : List Line) : Processor → Processor → Prop :=
  Relation.ReflTransGen fun s t => step lines s = .next t

/-- The run from `s` comes to a state that `P` describes for the value of `r`, or to a division that fails if `r` has
none. -/
def Gives {α : Type} (lines : List Line) (s : Processor) (r : Option α) (P : α → Processor → Prop) : Prop :=
  ∃ t, Runs lines s t ∧ match r with
    | some a => P a t
    | none => step lines t = .divideError

namespace Gives

variable {α β : Type} {lines : List Line} {s t : Processor} {P : α → Processor → Prop} {Q : β → Processor → Prop}

theorem here {a : α} (h : P a s) : Gives lines s (some a) P := ⟨s, .refl, h⟩

theorem fail (h : step lines s = .divideError) : Gives lines s none P := ⟨s, .refl, h⟩

theorem step {r : Option α} (h : Processor.step lines s = .next t) (ht : Gives lines t r P) : Gives lines s r P := by
  obtain ⟨u, hu, hr⟩ := ht
  exact ⟨u, .head h hu, hr⟩

theorem bind {r : Option α} {f : α → Option β} (h : Gives lines s r P)
    (hf : ∀ a t, P a t → Gives lines t (f a) Q) : Gives lines s (r.bind f) Q := by
  obtain ⟨t, ht, hr⟩ := h
  cases r with
  | none => exact ⟨t, ht, hr⟩
  | some a =>
    obtain ⟨u, hu, hr'⟩ := hf a t hr
    exact ⟨u, ht.trans hu, hr'⟩

theorem mono {P' : α → Processor → Prop} {r : Option α} (h : Gives lines s r P) (hP : ∀ a t, P a t → P' a t) :
    Gives lines s r P' := by
  obtain ⟨t, ht, hr⟩ := h
  cases r with
  | none => exact ⟨t, ht, hr⟩
  | some a => exact ⟨t, ht, hP a t hr⟩

end Gives

/-! ### Comparisons -/

section Comparisons

variable (a b : BitVec 16)

theorem zero_compare : (Flags.compare a b).zero = some (decide (a = b)) := by
  have h : a - b = 0#16 ↔ a = b := by bv_omega
  simp [Flags.compare, Flags.arithmetic, Flags.ofResult, h]

/-- Sign and overflow differ after a subtraction if the exact result is negative. -/
theorem sign_compare : ∃ x y, (Flags.compare a b).sign = some x ∧ (Flags.compare a b).overflow = some y ∧
    (x != y) = decide (a.toInt < b.toInt) := by
  refine ⟨_, _, rfl, rfl, ?_⟩
  have ha := a.toInt_lt
  have ha' := a.le_toInt
  have hb := b.toInt_lt
  have hb' := b.le_toInt
  have hsub : (a - b).toInt = (a.toInt - b.toInt).bmod 65536 := BitVec.toInt_sub
  rw [BitVec.msb_eq_toInt, hsub]
  rw [Int.bmod_def]
  by_cases h : a.toInt < b.toInt <;> simp [h] <;> omega

theorem taken?_compare (j : Jump) : (Flags.compare a b).taken? j = some (j.holds a b) := by
  have hzero := zero_compare a b
  obtain ⟨x, y, hsign, hoverflow, hlt⟩ := sign_compare a b
  have heq : a = b ↔ a.toInt = b.toInt := BitVec.toInt_inj.symm
  have hge : (x == y) = !decide (a.toInt < b.toInt) := by rw [← hlt, bne, Bool.not_not]
  cases j with
  | always => rfl
  | e => exact hzero
  | ne => simp [Flags.taken?, Jump.holds, hzero]
  | l => simp [Flags.taken?, Jump.holds, hsign, hoverflow, hlt]
  | le =>
    have : (decide (a = b) || decide (a.toInt < b.toInt)) = decide (a.toInt ≤ b.toInt) := by
      rw [Bool.eq_iff_iff]
      simp [heq]
      omega
    simp [Flags.taken?, Jump.holds, hzero, hsign, hoverflow, hlt, this]
  | g =>
    have : (!decide (a = b) && !decide (a.toInt < b.toInt)) = decide (b.toInt < a.toInt) := by
      rw [Bool.eq_iff_iff]
      simp [heq]
      omega
    simp [Flags.taken?, Jump.holds, hzero, hsign, hoverflow, hge, this]
  | ge =>
    have : (!decide (a.toInt < b.toInt)) = decide (b.toInt ≤ a.toInt) := by
      rw [Bool.eq_iff_iff]
      simp
    simp [Flags.taken?, Jump.holds, hsign, hoverflow, hge, this]

end Comparisons

end Processor

end Workbench.Assembly
