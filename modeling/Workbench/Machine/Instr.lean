/-!
# Machine instructions

An instruction is an operation with an operand that may be missing. Operations that the machine
does not know can stand in code as well; executing one is a fault.
-/

namespace Workbench.Machine

inductive Op where
  | pushInt | loadLocal | storeLocal
  | add | sub | mul | div | neg
  | cmpEq | cmpNe | cmpLt | cmpLe | cmpGt | cmpGe
  | not
  | jmp | jz | jnz
  | call | ret
  | loadLocalIdx | storeLocalIdx
  | loadIndirect | storeIndirect | memcpyLocals | memsetLocals
  | printInt | printStr | printlnInt | printlnStr
  | other (name : String)
  deriving DecidableEq, Repr

namespace Op

/-- The known operations with their names. -/
def names : List (Op × String) :=
  [(pushInt, "PUSH_INT"), (loadLocal, "LOAD_LOCAL"), (storeLocal, "STORE_LOCAL"),
   (add, "ADD"), (sub, "SUB"), (mul, "MUL"), (div, "DIV"), (neg, "NEG"),
   (cmpEq, "CMP_EQ"), (cmpNe, "CMP_NE"), (cmpLt, "CMP_LT"), (cmpLe, "CMP_LE"),
   (cmpGt, "CMP_GT"), (cmpGe, "CMP_GE"), (not, "NOT"),
   (jmp, "JMP"), (jz, "JZ"), (jnz, "JNZ"), (call, "CALL"), (ret, "RET"),
   (loadLocalIdx, "LOAD_LOCAL_IDX"), (storeLocalIdx, "STORE_LOCAL_IDX"),
   (loadIndirect, "LOAD_INDIRECT"), (storeIndirect, "STORE_INDIRECT"),
   (memcpyLocals, "MEMCPY_LOCALS"), (memsetLocals, "MEMSET_LOCALS"),
   (printInt, "PRINT_INT"), (printStr, "PRINT_STR"),
   (printlnInt, "PRINTLN_INT"), (printlnStr, "PRINTLN_STR")]

def name : Op → String
  | other s => s
  | op => ((names.find? fun p => p.1 == op).map (·.2)).getD ""

def ofName (s : String) : Op := ((names.find? fun p => p.2 == s).map (·.1)).getD (other s)

end Op

structure Instr where
  op : Op
  arg : Option Int := none
  deriving DecidableEq, Repr

end Workbench.Machine
