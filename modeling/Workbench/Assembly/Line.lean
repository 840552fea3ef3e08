/-!
# Lines of 8086 assembly

Assembly is a list of lines: instructions, labels, declarations and lines that were written in the
program itself. Lines are values; their text is made only when a listing is rendered.
-/

namespace Workbench.Assembly

inductive Reg where
  | ax | bx | cx | dx | si | di | bp | sp
  | al | ah | cl | dl
  deriving DecidableEq, Repr

def Reg.text : Reg → String
  | ax => "ax"
  | bx => "bx"
  | cx => "cx"
  | dx => "dx"
  | si => "si"
  | di => "di"
  | bp => "bp"
  | sp => "sp"
  | al => "al"
  | ah => "ah"
  | cl => "cl"
  | dl => "dl"

/-- Operands. Memory is addressed below the frame base, below it with an index, or by a register. -/
inductive Operand where
  | reg (r : Reg)
  | imm (n : Int)
  | sym (name : String)
  | local (offset : Nat)
  | element (offset : Nat)
  | at (r : Reg)
  deriving DecidableEq, Repr

def Operand.text : Operand → String
  | reg r => r.text
  | imm n => toString n
  | sym s => s
  | .local k => "[bp-" ++ toString k ++ "]"
  | element k => "[bp+si-" ++ toString k ++ "]"
  | .at r => "[" ++ r.text ++ "]"

inductive Op₂ where
  | mov | lea | add | sub | sbb | and | or | xor | cmp | shl | shr
  deriving DecidableEq, Repr

def Op₂.text : Op₂ → String
  | mov => "mov"
  | lea => "lea"
  | add => "add"
  | sub => "sub"
  | sbb => "sbb"
  | and => "and"
  | or => "or"
  | xor => "xor"
  | cmp => "cmp"
  | shl => "shl"
  | shr => "shr"

inductive Op₁ where
  | push | pop | neg | not | inc | dec | imul | idiv
  deriving DecidableEq, Repr

def Op₁.text : Op₁ → String
  | push => "push"
  | pop => "pop"
  | neg => "neg"
  | not => "not"
  | inc => "inc"
  | dec => "dec"
  | imul => "imul"
  | idiv => "idiv"

/-- Jumps: always, or after a signed comparison. -/
inductive Jump where
  | always | e | ne | l | le | g | ge
  deriving DecidableEq, Repr

def Jump.text : Jump → String
  | always => "jmp"
  | e => "je"
  | ne => "jne"
  | l => "jl"
  | le => "jle"
  | g => "jg"
  | ge => "jge"

inductive Instr where
  | two (op : Op₂) (dst src : Operand)
  | one (op : Op₁) (x : Operand)
  | cwd
  | ret
  | jump (j : Jump) (target : String)
  | call (target : String)
  deriving DecidableEq, Repr

def Instr.text : Instr → String
  | two op d s => op.text ++ " " ++ d.text ++ ", " ++ s.text
  | one op x => op.text ++ " " ++ x.text
  | cwd => "cwd"
  | ret => "ret"
  | jump j t => j.text ++ " " ++ t
  | call t => "call " ++ t

/-- Lines. A `written` line stands in the listing as it is. -/
inductive Line where
  | instr (i : Instr)
  | label (name : String)
  | exported (name : String)
  | written (text : String)
  deriving DecidableEq, Repr

def Line.text : Line → String
  | instr i => i.text
  | label s => s ++ ":"
  | exported s => "global " ++ s
  | written s => s

namespace Line

def mov (dst src : Operand) : Line := instr (.two .mov dst src)

def movR (dst src : Reg) : Line := mov (.reg dst) (.reg src)

def two (op : Op₂) (dst src : Reg) : Line := instr (.two op (.reg dst) (.reg src))

def twoImm (op : Op₂) (dst : Reg) (n : Int) : Line := instr (.two op (.reg dst) (.imm n))

def one (op : Op₁) (r : Reg) : Line := instr (.one op (.reg r))

def jump (j : Jump) (target : String) : Line := instr (.jump j target)

def call (target : String) : Line := instr (.call target)

def zero : Line := two .xor .ax .ax

/-- Sets `ax` to a number. -/
def movAx (n : Int) : Line := mov (.reg .ax) (.imm n)

end Line

end Workbench.Assembly
