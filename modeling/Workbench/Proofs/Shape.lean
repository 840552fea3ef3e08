import Mathlib.Data.List.Basic
import Workbench.Bytecode.Emit
import Workbench.Proofs.Syntax

/-!
# The shape of generated code

Generated code is flat and its jumps are addresses, but it is written from a tree: straight-line instructions,
tests with two continuations, loops, calls and returns. `Shape` is that tree. `Shape.code` writes a shape down
at a place, with the same addresses and string numbers as the generator, and `exprCode_eq` and
`stmtsCode_eq` say that generated code is always the code of a shape. What is shown of shapes therefore
holds of generated code, and no proof about the meaning of a program needs an address.

A shape names the functions that it calls. Which number a name has is a parameter of `Shape.code`.
-/

namespace Workbench.Bytecode

open Machine (Instr Op)
open Typing (Note)
open Piece

/-- The tree of a piece of code. -/
inductive Shape where
  | skip
  /-- An instruction after which the next one follows. -/
  | instr (i : Instr)
  /-- Pushes the number of a string. -/
  | text (s : String)
  | say (newline : Bool) (s : String)
  | seq (first second : Shape)
  /-- The rest of `&&` or `||` after its left operand: a left operand of the truth `decided` settles the result. -/
  | circuit (decided : Bool) (right : Shape)
  /-- Goes on with `yes` or `no` by the value on the stack. -/
  | branch (yes no : Shape)
  | loop (test body : Shape)
  | call (f : String)
  | ret
  /-- The value of an expression that is a statement. -/
  | drop (value : Shape)

namespace Piece

@[ext] theorem ext {a b : Piece} (code : a.code = b.code) (strings : a.strings = b.strings) : a = b := by
  cases a; cases b; simp_all

@[simp] theorem code_append (a b : Piece) : (a ++ b).code = a.code ++ b.code := rfl
@[simp] theorem strings_append (a b : Piece) : (a ++ b).strings = a.strings ++ b.strings := rfl
@[simp] theorem code_ofCode (is : List Instr) : (ofCode is).code = is := rfl
@[simp] theorem strings_ofCode (is : List Instr) : (ofCode is).strings = [] := rfl
@[simp] theorem code_arg (o : Op) (n : Int) : (arg o n).code = [⟨o, some n⟩] := rfl
@[simp] theorem strings_arg (o : Op) (n : Int) : (arg o n).strings = [] := rfl
@[simp] theorem code_op (o : Op) : (op o).code = [⟨o, none⟩] := rfl
@[simp] theorem strings_op (o : Op) : (op o).strings = [] := rfl
@[simp] theorem code_push (n : Int) : (push n).code = [⟨.pushInt, some n⟩] := rfl
@[simp] theorem strings_push (n : Int) : (push n).strings = [] := rfl

theorem append_assoc (a b c : Piece) : a ++ b ++ c = a ++ (b ++ c) := by
  ext1 <;> simp

end Piece

namespace Place

@[simp] theorem after_pc (p : Place) (c : Piece) : (p.after c).pc = p.pc + c.code.length := rfl
@[simp] theorem after_string (p : Place) (c : Piece) : (p.after c).string = p.string + c.strings.length := rfl
@[simp] theorem skip_pc (p : Place) (n : Nat) : (p.skip n).pc = p.pc + n := rfl
@[simp] theorem skip_string (p : Place) (n : Nat) : (p.skip n).string = p.string := rfl

theorem after_append (p : Place) (a b : Piece) : p.after (a ++ b) = (p.after a).after b := by
  simp [after, Nat.add_assoc]

end Place

namespace Shape

/-- Instructions one after the other. -/
def plain : List Instr → Shape
  | [] => .skip
  | i :: is => .seq (.instr i) (plain is)

def push (n : Int) : Shape := .instr ⟨.pushInt, some n⟩

/-- An instruction without operand. -/
def op (o : Op) : Shape := .instr ⟨o, none⟩

/-- The strings that the code of a shape refers to, in order. -/
def strings : Shape → List String
  | .text s | .say _ s => [s]
  | .seq a b | .branch a b | .loop a b => a.strings ++ b.strings
  | .circuit _ a | .drop a => a.strings
  | .skip | .instr _ | .call _ | .ret => []

/-- The operation that jumps on a value of the truth `b`. -/
def jumpOn (b : Bool) : Op := if b then .jnz else .jz

/-- Writes a shape down at a place; `number` numbers the functions. -/
def code (number : String → Nat) (p : Place) : Shape → Piece
  | .skip => .ofCode []
  | .instr i => .ofCode [i]
  | .text s => ⟨[⟨.pushInt, some (p.string : Int)⟩], [s]⟩
  | .say newline s =>
    ⟨[⟨.pushInt, some (p.string : Int)⟩, ⟨printOp newline .str, none⟩], [s]⟩
  | .seq a b =>
    let ca := a.code number p
    ca ++ b.code number (p.after ca)
  | .circuit decided right =>
    let cr := right.code number (p.skip 1)
    let settled := ((p.skip 1).after cr).pc + 3
    .arg (jumpOn decided) settled ++ cr ++ .arg (jumpOn decided) settled ++
      .push (if decided then 0 else 1) ++ .arg .jmp (settled + 1) ++ .push (if decided then 1 else 0)
  | .branch yes no =>
    let cy := yes.code number (p.skip 1)
    let p₂ := ((p.skip 1).after cy).skip 1
    let cn := no.code number p₂
    .arg .jz p₂.pc ++ cy ++ .arg .jmp (p₂.after cn).pc ++ cn
  | .loop test body =>
    let ct := test.code number p
    let p₁ := (p.after ct).skip 1
    let cb := body.code number p₁
    ct ++ .arg .jz ((p₁.after cb).pc + 1) ++ cb ++ .arg .jmp p.pc
  | .call f => .arg .call (number f)
  | .ret => .op .ret
  | .drop a => a.code number p

@[simp] theorem strings_code (number : String → Nat) (s : Shape) : ∀ p, (s.code number p).strings = s.strings := by
  induction s with
  | skip | instr | text | say | call | ret => intro p; rfl
  | seq a b iha ihb | branch a b iha ihb | loop a b iha ihb => intro p; simp [code, strings, iha, ihb]
  | circuit d a iha | drop a iha => intro p; simp [code, strings, iha]

theorem code_plain (number : String → Nat) (is : List Instr) : ∀ p, (plain is).code number p = .ofCode is := by
  induction is with
  | nil => intro p; rfl
  | cons i is ih => intro p; rw [plain, code, ih]; rfl

end Shape

/-- What the shapes of a function's code depend on: its slots, and which functions can be called. -/
structure View where
  slots : Slots
  known : String → Bool

namespace View

def arrayCell? {α : Type} (v : View) (e : Expr α) : Option Nat := e.varName?.bind v.slots.arrayCell?

/-- The number of arguments of a built-in function. -/
def builtinArity : String → Option Nat
  | "array_push" | "memcpy" | "memset" | "ct_select" => some 3
  | "array_pop" | "store16" | "ct_eq" => some 2
  | "load16" => some 1
  | _ => none

/-- The shape of a call, from the shapes of its arguments; `base` is the first cell of the first argument, if that
names an array. -/
def call (v : View) : (f : String) → (base : Option Nat) → List Shape → Shape
  | "array_push", some base, [_, n, x] =>
    .seq x (.seq n (.seq (.instr ⟨.storeLocalIdx, some base⟩) (.seq n (.seq (.push 1) (.op .add)))))
  | "array_push", none, [_, n, _] => .seq n (.seq (.push 1) (.op .add))
  | "array_pop", some base, [_, n] =>
    .seq n (.seq (.push 1) (.seq (.op .sub) (.instr ⟨.loadLocalIdx, some base⟩)))
  | "array_pop", none, [_, _] => .push 0
  | "load16", _, [a] => .seq a (.op .loadIndirect)
  | "store16", _, [a, b] => .seq a (.seq b (.seq (.op .storeIndirect) (.push 0)))
  | "memcpy", _, [a, b, c] => .seq a (.seq b (.seq c (.seq (.op .memcpyLocals) (.push 0))))
  | "memset", _, [a, b, c] => .seq a (.seq b (.seq c (.seq (.op .memsetLocals) (.push 0))))
  | "ct_eq", _, [a, b] => .seq a (.seq b (.op .cmpEq))
  | "ct_select", _, [m, x, y] =>
    .seq x (.seq y (.seq (.op .sub) (.seq m (.seq (.op .mul) (.seq y (.op .add))))))
  | f, _, as => if v.known f then as.foldr .seq (.call f) else .push 0

mutual

/-- The shape of the code of an expression. -/
def expr {α : Type} (v : View) : Expr α → Shape
  | .lit _ (.bool b) => .push (if b then 1 else 0)
  | .lit _ (.int n) => .push n
  | .lit _ (.str s) => .text s
  | .lit _ .none => .skip
  | .var _ x => match v.slots.cell? x with
    | some k => .instr ⟨.loadLocal, some k⟩
    | none => .push 0
  | .addr _ (.var _ x) => .push ((v.slots.cell? x).getD 0)
  | .addr _ (.index _ a i) => match v.arrayCell? a with
    | some base => .seq (v.expr i) (.seq (.push base) (.op .add))
    | none => .push 0
  | .addr _ _ => .push 0
  | .unary _ o e => .seq (v.expr e) (.plain ((unaryOps o).map fun o => ⟨o, none⟩))
  | .binary _ .and l r => .seq (v.expr l) (.circuit false (v.expr r))
  | .binary _ .or l r => .seq (v.expr l) (.circuit true (v.expr r))
  | .binary _ o l r =>
    .seq (v.expr l) (.seq (v.expr r) (.plain ((binaryOps o).map fun o => ⟨o, none⟩)))
  | .index _ a i => match v.arrayCell? a with
    | some base => .seq (v.expr i) (.instr ⟨.loadLocalIdx, some base⟩)
    | none => .push 0
  | .call _ f as => v.call f (as.head?.bind v.arrayCell?) (v.args as)
  | .hole _ => .skip
termination_by structural e => e

/-- The shapes of the code of arguments. -/
def args {α : Type} (v : View) : List (Expr α) → List Shape
  | [] => []
  | a :: as => v.expr a :: v.args as
termination_by structural as => as

end

def decl {α : Type} (v : View) (x : String) (init : Option (Expr α)) : Shape :=
  let base := (v.slots.cell? x).getD 0
  match v.slots.length? x with
  | some n => .plain ((List.range n).flatMap fun (k : Nat) =>
      [⟨.pushInt, some 0⟩, ⟨.storeLocal, some ((base + k : Nat) : Int)⟩])
  | none => .seq ((init.map v.expr).getD (.push 0)) (.instr ⟨.storeLocal, some base⟩)

def assign {α : Type} (v : View) (target value : Expr α) : Shape :=
  match target with
  | .var _ x => match v.slots.cell? x with
    | some k => .seq (v.expr value) (.instr ⟨.storeLocal, some k⟩)
    | none => .skip
  | .index _ a i => match v.arrayCell? a with
    | some base => .seq (v.expr value) (.seq (v.expr i) (.instr ⟨.storeLocalIdx, some base⟩))
    | none => .skip
  | _ => .skip

/-- The shape of a print statement. A literal that is printed as a string is said. -/
def print (v : View) (newline : Bool) (e : Expr Note) : Shape :=
  match e with
  | .lit (some .str) (.str s) => .say newline s
  | e => match e.note with
    | some t => .seq (v.expr e) (.op (printOp newline t))
    | none => .skip

/-- The shape of a block of machine instructions. -/
def inline (v : View) (text : String) : Shape :=
  match inlineCode v.slots text with
  | .ok is => .plain is
  | .error _ => .skip

mutual

/-- The shape of the code of a statement. -/
def stmt (v : View) : Stmt Note → Shape
  | .decl x _ init => v.decl x init
  | .assign target value => v.assign target value
  | .print newline e => v.print newline e
  | .ret (some e) => .seq (v.expr e) .ret
  | .ret none => .seq (.push 0) .ret
  | .expr e => .drop (v.expr e)
  | .cond test yes (some no) => .seq (v.expr test) (.branch (v.stmts yes) (v.stmts no))
  | .cond test yes none => .seq (v.expr test) (.branch (v.stmts yes) .skip)
  | .loop test body => .loop (v.expr test) (v.stmts body)
  | .vmAsm text => v.inline text
  | .asm _ | .block _ => .skip
termination_by structural s => s

/-- The shape of the code of statements. -/
def stmts (v : View) : List (Stmt Note) → Shape
  | [] => .skip
  | s :: ss => .seq (v.stmt s) (v.stmts ss)
termination_by structural ss => ss

end

end View

/-- Any call but that of a built-in function with the right number of arguments. -/
theorem View.call_user {v : View} {f : String} {base : Option Nat} {as : List Shape}
    (h : builtinArity f ≠ some as.length) :
    v.call f base as = if v.known f then as.foldr .seq (.call f) else .push 0 := by
  rw [View.call]
  all_goals intros; subst_vars; exact h rfl

theorem View.args_eq_map {α : Type} (v : View) (as : List (Expr α)) : v.args as = as.map v.expr := by
  induction as with
  | nil => rfl
  | cons a as ih => rw [View.args, ih]; rfl

/-- What the generator knows inside a function, as shapes depend on it. -/
def Env.view (env : Env) : View := ⟨env.slots, fun f => (env.functions.lookup f).isSome⟩

@[simp] theorem Env.view_slots (env : Env) : env.view.slots = env.slots := rfl

@[simp] theorem Env.view_known (env : Env) (f : String) :
    env.view.known f = (env.functions.lookup f).isSome := rfl

@[simp] theorem Env.view_arrayCell? {α : Type} (env : Env) (e : Expr α) :
    env.view.arrayCell? e = env.arrayCell? e := rfl

def Env.Numbered (env : Env) (number : String → Nat) : Prop :=
  ∀ f n, env.functions.lookup f = some n → number f = n

section Generated

variable {α : Type} {env : Env} {number : String → Nat}

variable {as : List (Expr α)} {f : String} {p : Place} {a : α}

theorem argsCode_eq (h : ∀ e ∈ as, ∀ p, exprCode env p e = (env.view.expr e).code number p) :
    ∀ p, argsCode env p as ++ .arg .call (number f) =
      ((env.view.args as).foldr Shape.seq (Shape.call f)).code number p := by
  induction as with
  | nil => intro p; rfl
  | cons a as ih =>
    intro p
    rw [argsCode, View.args, List.foldr_cons, Shape.code, h a (by simp), append_assoc,
      ih fun e he => h e (by simp [he])]

/-- The code of any call but that of a built-in function with the right number of arguments. -/
theorem exprCode_user (h : View.builtinArity f ≠ some as.length) :
    exprCode env p (.call a f as) = match env.functions.lookup f with
      | some n => argsCode env p as ++ .arg .call n
      | none => .push 0 := by
  rewrite [exprCode]
  · rfl
  all_goals intros; subst_vars; exact h rfl

theorem exprCode_builtin (h : View.builtinArity f = some as.length)
    (ih : ∀ e ∈ as, ∀ p, exprCode env p e = (env.view.expr e).code number p) (p : Place) :
    exprCode env p (.call a f as) =
      (env.view.call f (as.head?.bind env.view.arrayCell?) (env.view.args as)).code number p := by
  unfold View.builtinArity at h
  split at h
  case h_9 => cases h
  case h_8 =>
    obtain ⟨x, rfl⟩ := List.length_eq_one_iff.1 (Option.some.inj h).symm
    simp [exprCode, View.call, View.args, Shape.code, ih, Shape.op, op]
  case h_5 =>
    obtain ⟨x, n, rfl⟩ := List.length_eq_two.1 (Option.some.inj h).symm
    cases hx : env.arrayCell? x <;>
      simp [exprCode, View.call, View.args, Shape.code, ih, append_assoc, Shape.push, Shape.op,
        push, op, arg, hx]
  case h_1 =>
    obtain ⟨x, n, y, rfl⟩ := List.length_eq_three.1 (Option.some.inj h).symm
    cases hx : env.arrayCell? x <;>
      simp [exprCode, View.call, View.args, Shape.code, ih, append_assoc, Place.after_append, Shape.push,
        Shape.op, push, op, arg, hx]
  case h_6 | h_7 =>
    obtain ⟨x, y, rfl⟩ := List.length_eq_two.1 (Option.some.inj h).symm
    simp [exprCode, View.call, View.args, Shape.code, ih, append_assoc, Shape.push, Shape.op,
      push, op, arg]
  all_goals
    obtain ⟨x, y, z, rfl⟩ := List.length_eq_three.1 (Option.some.inj h).symm
    simp [exprCode, View.call, View.args, Shape.code, ih, append_assoc, Place.after_append, Shape.push,
      Shape.op, push, op, arg]

/-- The code of an expression is that of its shape. -/
theorem exprCode_eq (hn : env.Numbered number) (e : Expr α) :
    ∀ p, exprCode env p e = (env.view.expr e).code number p := by
  induction e using Expr.induction with
  | lit a l => cases l <;> intro p <;> rfl
  | var a x =>
    intro p
    rw [exprCode, View.expr]
    cases h : env.slots.cell? x <;> simp [h] <;> rfl
  | unary a o e ih =>
    intro p
    rw [exprCode, View.expr, Shape.code, ih, Shape.code_plain]
  | binary a o l r ihl ihr =>
    intro p
    cases o with
    | and | or =>
      simp [exprCode, View.expr, andCode, orCode, Shape.code, Shape.jumpOn, ihl, ihr, append_assoc]
    | _ => simp [exprCode, View.expr, Shape.code, ihl, ihr, Shape.code_plain, append_assoc]
  | call a f as ih =>
    intro p
    rw [View.expr]
    by_cases hb : View.builtinArity f = some as.length
    · exact exprCode_builtin hb ih p
    · rw [exprCode_user hb, View.call_user (by simpa [View.args_eq_map] using hb), Env.view_known]
      cases h : env.functions.lookup f with
      | none => rfl
      | some n => rw [← hn f n h]; exact argsCode_eq ih p
  | index a x i _ ih =>
    intro p
    rw [exprCode, View.expr, Env.view_arrayCell?]
    cases env.arrayCell? x with
    | none => rfl
    | some base => rw [ih]; rfl
  | addrVar => intro p; rfl
  | addrIndex a b x i _ ih =>
    intro p
    rw [exprCode, View.expr, Env.view_arrayCell?]
    cases env.arrayCell? x with
    | none => rfl
    | some base => rw [ih]; exact append_assoc _ _ _
  | addr a t hv hi _ => intro p; rw [exprCode, View.expr] <;> first | rfl | assumption
  | hole a => intro p; rfl

theorem declCode_eq (hn : env.Numbered number) (x : String) (init : Option (Expr α)) (p : Place) :
    declCode env p x init = (env.view.decl x init).code number p := by
  unfold declCode View.decl
  rw [Env.view_slots]
  cases env.slots.length? x with
  | some n => exact (Shape.code_plain number _ p).symm
  | none =>
    cases init with
    | none => rfl
    | some e => simp [Shape.code, exprCode_eq hn, arg]

theorem assignCode_eq (hn : env.Numbered number) (target value : Expr α) (p : Place) :
    assignCode env p target value = (env.view.assign target value).code number p := by
  unfold assignCode View.assign
  rw [Env.view_slots]
  cases target with
  | var a x =>
    dsimp only
    cases env.slots.cell? x <;> simp [Shape.code, exprCode_eq hn, arg]
  | index a x i =>
    simp only [Env.view_arrayCell?]
    cases env.arrayCell? x <;> simp [Shape.code, exprCode_eq hn, append_assoc, arg]
  | _ => rfl

/-- The code of statements is that of their shapes. -/
theorem stmtsCode_eq (hn : env.Numbered number) (ss : List (Stmt Note)) :
    ∀ p c, stmtsCode env p ss = .ok c → c = (env.view.stmts ss).code number p := by
  induction ss using Stmt.parts_induction (P := fun s => ∀ p c, stmtCode env p s = .ok c →
      c = (env.view.stmt s).code number p) with
  | nil => intro p c h; cases h; rfl
  | cons s ss ihs ih =>
    intro p c h
    simp only [stmtsCode, bind_eq_ok, pure_eq_ok] at h
    obtain ⟨cs, hs, css, hss, rfl⟩ := h
    rw [View.stmts, Shape.code, ← ihs p cs hs, ← ih _ css hss]
  | expr e p c h =>
    cases h
    exact exprCode_eq hn e p
  | decl x t init p c h =>
    cases h
    exact declCode_eq hn x init p
  | assign t v p c h =>
    cases h
    exact assignCode_eq hn t v p
  | print nl e p c h =>
    rw [stmtCode] at h
    rw [View.stmt]
    unfold View.print
    split
    · cases h; rfl
    · cases he : e.note with
      | none => simp [he] at h
      | some t =>
        simp only [he, Except.ok.injEq] at h
        rw [← h, Shape.code, exprCode_eq hn]; rfl
  | ret v p c h =>
    cases v with
    | none => cases h; rfl
    | some e =>
      cases h
      rw [exprCode_eq hn]; rfl
  | asm _ p c h | block _ _ p c h => cases h; rfl
  | vmAsm text p c h =>
    simp only [stmtCode, bind_eq_ok, pure_eq_ok] at h
    obtain ⟨is, his, rfl⟩ := h
    rw [View.stmt, View.inline, Env.view_slots, his]
    exact (Shape.code_plain number is p).symm
  | condThen test yes ihy p c h =>
    simp only [stmtCode, bind_eq_ok, pure_eq_ok] at h
    obtain ⟨cy, hy, cn, rfl, rfl⟩ := h
    obtain rfl := ihy _ cy hy
    simp [View.stmt, Shape.code, exprCode_eq hn, append_assoc]
  | cond test yes b ihy ihn p c h =>
    simp only [stmtCode, bind_eq_ok, pure_eq_ok] at h
    obtain ⟨cy, hy, cn, hcn, rfl⟩ := h
    obtain rfl := ihy _ cy hy
    obtain rfl := ihn _ cn hcn
    simp [View.stmt, Shape.code, exprCode_eq hn, append_assoc]
  | loop test body ihb p c h =>
    simp only [stmtCode, bind_eq_ok, pure_eq_ok] at h
    obtain ⟨cb, hb, rfl⟩ := h
    obtain rfl := ihb _ cb hb
    simp [View.stmt, Shape.code, exprCode_eq hn]

end Generated

end Workbench.Bytecode
