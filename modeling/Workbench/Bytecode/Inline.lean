import Workbench.Bytecode.Slots
import Workbench.Machine.Instr
import Workbench.Text.Lines
import Workbench.Text.Numeral

/-!
# Machine instructions written in a program

What `_emit_vm_asm` reads: the text of a `vm_asm` block holds one instruction on each line: a word and
at most one operand, with an optional semicolon at the end. Variables are named and stand for their
slots.
-/

namespace Workbench.Bytecode

open Machine (Instr Op)

/-- Why code cannot be generated. -/
inductive EmitError where
  /-- The type of an expression is asked for that was never analysed. -/
  | untyped
  | badOperand (text : String)
  | loadUnknown (name : String)
  | storeUnknown (name : String)
  | malformed (line : String)
  deriving DecidableEq, Repr

/-- What is said of the failure; nothing for a missing type. -/
def EmitError.message : EmitError → String
  | untyped => ""
  | badOperand s => "vm_asm push_int expects integer literal, got '" ++ s ++ "'"
  | loadUnknown x => "vm_asm load_local unknown local '" ++ x ++ "'"
  | storeUnknown x => "vm_asm store_local unknown local '" ++ x ++ "'"
  | malformed line => "Unknown or malformed vm_asm instruction: '" ++ line ++ "'"

/-- The instructions without an operand, by the word for them. -/
def plainInstructions : List (String × Op) :=
  [("add", .add), ("sub", .sub), ("mul", .mul), ("div", .div), ("neg", .neg), ("not", .not),
   ("cmp_eq", .cmpEq), ("cmp_ne", .cmpNe), ("cmp_lt", .cmpLt), ("cmp_le", .cmpLe),
   ("cmp_gt", .cmpGt), ("cmp_ge", .cmpGe)]

/-- The instruction that the words of a line denote. -/
def inlineInstr (slots : Slots) (line : String) : List String → Except EmitError Instr
  | [word] => match plainInstructions.lookup word with
    | some op => .ok ⟨op, none⟩
    | none => .error (.malformed line)
  | [word, arg] =>
    if word == "push_int" then match Text.readMarkedInt? arg with
      | some n => .ok ⟨.pushInt, some n⟩
      | none => .error (.badOperand arg)
    else if word == "load_local" then match slots.cell? arg with
      | some k => .ok ⟨.loadLocal, some k⟩
      | none => .error (.loadUnknown arg)
    else if word == "store_local" then match slots.cell? arg with
      | some k => .ok ⟨.storeLocal, some k⟩
      | none => .error (.storeUnknown arg)
    else .error (.malformed line)
  | _ => .error (.malformed line)

/-- The words of a line, without the semicolon that may end it. -/
def inlineWords (line : String) : List String :=
  let cs := Text.trimBy Text.isBlank line.toList
  Text.words (String.ofList (if cs.getLast? == some ';' then cs.dropLast else cs))

/-- The instructions of a block. Lines without words are passed over. -/
def inlineCode (slots : Slots) (text : String) : Except EmitError (List Instr) :=
  ((Text.lines text).filter fun line => !(inlineWords line).isEmpty).mapM fun line =>
    inlineInstr slots line (inlineWords line)

end Workbench.Bytecode
