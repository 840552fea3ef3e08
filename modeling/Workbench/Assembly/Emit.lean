import Workbench.Assembly.Frame
import Workbench.Assembly.Listing
import Workbench.Text.Blank
import Workbench.Text.Lines
import Workbench.Typing.Check

/-!
# Assembly for programs

The `CodeGen8086`. Code is generated as lists of lines; the value of an expression ends up in `ax`.
Every operation on two operands asks for the types of both before anything else, because strings are
compared by a routine of their own. Calls of functions pass no arguments.
-/

namespace Workbench.Assembly

open Typing (Note)

/-- Why assembly cannot be generated. -/
inductive EmitError where
  /-- The type of an expression is asked for that was never analysed. -/
  | untyped
  /-- Machine instructions have no counterpart in assembly. -/
  | machineCode
  deriving DecidableEq, Repr

/-- What is said of the failure; nothing for a missing type. -/
def EmitError.message : EmitError → String
  | untyped => ""
  | machineCode => "vm_asm blocks are only supported by the VM backend"

/-- Generation draws labels and strings from a pool, and can fail. -/
abbrev Gen (α : Type) := StateT Pool (Except EmitError) α

def fresh (base : String) : Gen String := fun p => .ok (p.fresh base)

def intern (s : String) : Gen String := fun p => .ok (p.intern s)

def typeOf (e : Expr Note) : Gen Ty :=
  match e.note with
  | some t => pure t
  | none => throw .untyped

def Frame.varOffset? {α : Type} (f : Frame) (e : Expr α) : Option Nat := e.varName?.bind f.offset?

def comparisonJump? : BinaryOp → Option Jump
  | .eq => some .e
  | .ne => some .ne
  | .lt => some .l
  | .le => some .le
  | .gt => some .g
  | .ge => some .ge
  | _ => none

/-- Sets `ax` to one if the jump `j` is taken after the last comparison, and to zero if not. -/
def truthLines (j : Jump) : Gen (List Line) := do
  let yes ← fresh "T"
  let done ← fresh "E"
  return [.jump j yes, .zero, .jump .always done, .label yes, .movAx 1, .label done]

def indexLines : List Line := [.movR .si .ax, .twoImm .shl .si 1]

/-- Applies an operator to the value in `ax`. -/
def unaryLines : UnaryOp → Gen (List Line)
  | .neg => pure [.one .neg .ax]
  | .not => do return .twoImm .cmp .ax 0 :: (← truthLines .e)
  | .other _ => pure []

/-- Applies an operator to the values in `bx` (left) and `ax` (right). -/
def arithmeticLines (op : BinaryOp) : Gen (List Line) :=
  match op with
  | .add => pure [.two .add .ax .bx]
  | .sub => pure [.two .sub .bx .ax, .movR .ax .bx]
  | .mul => pure [.one .imul .bx]
  | .div => pure [.instr .cwd, .one .idiv .bx]
  | op => match comparisonJump? op with
    | some j => do return .two .cmp .bx .ax :: (← truthLines j)
    | none => pure []

/-- Copies `cx` bytes from `si` to `di`. -/
def copyLines : Gen (List Line) := do
  let top ← fresh "MEMCPY_LOOP"
  let done ← fresh "MEMCPY_END"
  return [.label top, .twoImm .cmp .cx 0, .jump .e done, .mov (.reg .al) (.at .si),
    .mov (.at .di) (.reg .al), .one .inc .si, .one .inc .di, .one .dec .cx, .jump .always top,
    .label done]

/-- Sets `cx` bytes from `di` on to `dl`. -/
def fillLines : Gen (List Line) := do
  let top ← fresh "MEMSET_LOOP"
  let done ← fresh "MEMSET_END"
  return [.label top, .twoImm .cmp .cx 0, .jump .e done, .mov (.at .di) (.reg .dl),
    .one .inc .di, .one .dec .cx, .jump .always top, .label done]

/-- Sets `ax` to one if it equals `bx` and to zero if not, without a branch. -/
def equalLines : List Line :=
  [.two .xor .ax .bx, .movR .cx .ax, .twoImm .shr .cx 8, .two .or .al .cl, .one .neg .al,
   .twoImm .mov .cl 7, .two .shr .al .cl, .twoImm .and .al 1, .twoImm .xor .al 1,
   .twoImm .mov .ah 0]

/-- Turns a condition in `ax` into a word of equal bits. -/
def maskLines : List Line := [.one .neg .ax, .two .sbb .ax .ax]

/-- Selects by the mask, the first and the second value on the stack. -/
def selectLines : List Line :=
  [.one .pop .dx, .one .pop .cx, .one .pop .bx, .movR .ax .cx, .two .and .ax .bx, .one .not .bx,
   .two .and .dx .bx, .two .or .ax .dx]

def literalLines : Literal → Gen (List Line)
  | .bool b => pure [.movAx (if b then 1 else 0)]
  | .int n => pure [.movAx n]
  | .str s => do return [.mov (.reg .ax) (.sym (← intern s))]
  | .none => pure [.zero]

def andLines (left right : Gen (List Line)) : Gen (List Line) := do
  let done ← fresh "AND_END"
  let no ← fresh "AND_FALSE"
  let l ← left
  let r ← right
  return l ++ [.twoImm .cmp .ax 0, .jump .e no] ++ r ++
    [.twoImm .cmp .ax 0, .jump .e no, .movAx 1, .jump .always done, .label no, .zero, .label done]

def orLines (left right : Gen (List Line)) : Gen (List Line) := do
  let done ← fresh "OR_END"
  let yes ← fresh "OR_TRUE"
  let l ← left
  let r ← right
  return l ++ [.twoImm .cmp .ax 0, .jump .ne yes] ++ r ++
    [.twoImm .cmp .ax 0, .jump .ne yes, .zero, .jump .always done, .label yes, .movAx 1,
     .label done]

/-- The code of a comparison of two strings. -/
def stringLines (j : Jump) (left right : Gen (List Line)) : Gen (List Line) := do
  let l ← left
  let r ← right
  let truth ← truthLines j
  return l ++ [.one .push .ax] ++ r ++
    [.movR .di .ax, .one .pop .si, .call "rt_str_cmp", .twoImm .cmp .ax 0] ++ truth

/-- The code of an operation on two words. -/
def wordLines (op : BinaryOp) (left right : Gen (List Line)) : Gen (List Line) := do
  let l ← left
  let r ← right
  let apply ← arithmeticLines op
  return l ++ [.one .push .ax] ++ r ++ [.one .pop .bx] ++ apply

/-- The code of an operation on operands of the given types. -/
def binaryLines (op : BinaryOp) (lt rt : Ty) (left right : Gen (List Line)) : Gen (List Line) :=
  match op with
  | .and => andLines left right
  | .or => orLines left right
  | op => match comparisonJump? op with
    | some j => if lt = .str ∧ rt = .str then stringLines j left right else wordLines op left right
    | none => wordLines op left right

/-- The code of an expression, which leaves its value in `ax`. -/
def exprLines (f : Frame) : Expr Note → Gen (List Line)
  | .lit _ v => literalLines v
  | .var _ x => pure (match f.offset? x with
    | some k => [.mov (.reg .ax) (.local k)]
    | none => [.zero])
  | .addr _ (.var _ x) => pure (match f.offset? x with
    | some k => [.instr (.two .lea (.reg .ax) (.local k))]
    | none => [.zero])
  | .addr _ (.index _ a i) => match f.varOffset? a with
    | some k => do
      let ci ← exprLines f i
      return ci ++ indexLines ++ [.instr (.two .lea (.reg .ax) (.element k))]
    | none => pure [.zero]
  | .addr _ _ => pure [.zero]
  | .unary _ op e => do
    let c ← exprLines f e
    return c ++ (← unaryLines op)
  | .binary _ op l r => do
    let lt ← typeOf l
    let rt ← typeOf r
    binaryLines op lt rt (exprLines f l) (exprLines f r)
  | .index _ a i => match f.varOffset? a with
    | some k => do
      let ci ← exprLines f i
      return ci ++ indexLines ++ [.mov (.reg .ax) (.element k)]
    | none => pure [.zero]
  | .call _ "load16" [a] => do
    let ca ← exprLines f a
    return ca ++ [.movR .bx .ax, .mov (.reg .ax) (.at .bx)]
  | .call _ "store16" [a, b] => do
    let ca ← exprLines f a
    let cb ← exprLines f b
    return ca ++ [.movR .bx .ax] ++ cb ++ [.mov (.at .bx) (.reg .ax)]
  | .call _ "memcpy" [a, b, c] => do
    let ca ← exprLines f a
    let cb ← exprLines f b
    let cc ← exprLines f c
    return ca ++ [.movR .di .ax] ++ cb ++ [.movR .si .ax] ++ cc ++ [.movR .cx .ax] ++ (← copyLines)
  | .call _ "memset" [a, b, c] => do
    let ca ← exprLines f a
    let cb ← exprLines f b
    let cc ← exprLines f c
    return ca ++ [.movR .di .ax] ++ cb ++ [.movR .dl .al] ++ cc ++ [.movR .cx .ax] ++ (← fillLines)
  | .call _ "ct_eq" [a, b] => do
    let ca ← exprLines f a
    let cb ← exprLines f b
    return ca ++ [.one .push .ax] ++ cb ++ [.one .pop .bx] ++ equalLines
  | .call _ "ct_select" [m, x, y] => do
    let cm ← exprLines f m
    let cx ← exprLines f x
    let cy ← exprLines f y
    return cm ++ maskLines ++ [.one .push .ax] ++ cx ++ [.one .push .ax] ++ cy ++
      [.one .push .ax] ++ selectLines
  | .call _ "array_push" [a, n, v] => match f.varOffset? a with
    | some k => do
      let cn ← exprLines f n
      let cv ← exprLines f v
      return cn ++ [.movR .dx .ax] ++ indexLines ++ cv ++
        [.mov (.element k) (.reg .ax), .movR .ax .dx, .one .inc .ax]
    | none => pure [.call "array_push"]
  | .call _ "array_pop" [a, n] => match f.varOffset? a with
    | some k => do
      let cn ← exprLines f n
      return cn ++ [.one .dec .ax] ++ indexLines ++ [.mov (.reg .ax) (.element k)]
    | none => pure [.call "array_pop"]
  | .call _ name _ => pure [.call name]
  | .hole _ => pure [.zero]

/-- The lines that leave a function. -/
def epilogue : List Line := [.movR .sp .bp, .one .pop .bp, .instr .ret]

/-- Prints the value in `ax`. -/
def printLines (newline : Bool) (t : Ty) : List Line :=
  (if t = .str then [.movR .dx .ax, .call "rt_print_str"] else [.call "rt_print_num16"]) ++
    (if newline then [.call "rt_print_newline"] else [])

/-- Stores `ax` in a variable that has a place. -/
def storeLines (f : Frame) (x : String) : List Line :=
  match f.offset? x with
  | some k => [.mov (.local k) (.reg .ax)]
  | none => []

/-- The code of an assignment. A target that is no variable and no element of an array has no
code. -/
def assignLines (f : Frame) (target value : Expr Note) : Gen (List Line) :=
  match target with
  | .var _ x => do
    let cv ← exprLines f value
    return cv ++ storeLines f x
  | .index _ a i => match f.varOffset? a with
    | some k => do
      let cv ← exprLines f value
      let ci ← exprLines f i
      return cv ++ [.one .push .ax] ++ ci ++ indexLines ++
        [.one .pop .ax, .mov (.element k) (.reg .ax)]
    | none => pure []
  | _ => pure []

mutual

def stmtLines (f : Frame) : Stmt Note → Gen (List Line)
  | .print newline e => do
    let c ← exprLines f e
    let t ← typeOf e
    return c ++ printLines newline t
  | .ret none => pure epilogue
  | .ret (some e) => do
    let c ← exprLines f e
    return c ++ epilogue
  | .expr e => exprLines f e
  | .asm text =>
    pure (((Text.lines text).filter fun l => !(Text.trim l).isEmpty).map .written)
  | .vmAsm _ => throw .machineCode
  | .decl x _ none => pure (.zero :: storeLines f x)
  | .decl x _ (some e) => do
    let c ← exprLines f e
    return c ++ storeLines f x
  | .assign target value => assignLines f target value
  | .cond test thenBody elseBody => do
    let no ← fresh "ELSE"
    let done ← fresh "ENDIF"
    let ct ← exprLines f test
    let cThen ← stmtsLines f thenBody
    let cElse ← match elseBody with
      | some body => stmtsLines f body
      | none => pure []
    return ct ++ [.twoImm .cmp .ax 0, .jump .e no] ++ cThen ++ [.jump .always done, .label no] ++
      cElse ++ [.label done]
  | .loop test body => do
    let top ← fresh "WHL"
    let done ← fresh "ENDW"
    let ct ← exprLines f test
    let cBody ← stmtsLines f body
    return [.label top] ++ ct ++ [.twoImm .cmp .ax 0, .jump .e done] ++ cBody ++
      [.jump .always top, .label done]
  | .block _ => pure []
termination_by structural s => s

def stmtsLines (f : Frame) : List (Stmt Note) → Gen (List Line)
  | [] => pure []
  | s :: ss => do
    let c ← stmtLines f s
    let cs ← stmtsLines f ss
    return c ++ cs
termination_by structural ss => ss

end

def functionLines (fn : Function Note) : Gen (List Line) := do
  let f := Frame.ofFunction fn
  let body ← stmtsLines f fn.body
  return [.exported fn.name, .label fn.name, .one .push .bp, .movR .bp .sp] ++
    (if 0 < f.size then [.twoImm .sub .sp f.size] else []) ++ body ++ epilogue

def emit (prog : Program Note) : Except EmitError Listing := do
  let (pieces, pool) ← (prog.functions.mapM functionLines).run {}
  return { text := pieces.flatten, pool := pool }

end Workbench.Assembly
