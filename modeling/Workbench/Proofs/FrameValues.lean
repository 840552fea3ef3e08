import Workbench.Proofs.CallFree

/-!
# Numbers in a frame

What a program computes from variables, numbers and truth values has a value in every frame, or a fault
(`Expr.number`), also where it reads past the end of an array. The code of such an expression pushes the value
(`exprCode_number`).
-/

namespace Workbench

open Machine (Fault cellAt ofBool wrap)
open Bytecode (Slots)
open Typing (Note Signatures Scope HasType)

variable {cells : Array Int}

namespace Expr

/-- The expression has no calls, and its literals are numbers and truth values. -/
def plain {α : Type} : Expr α → Bool
  | .lit _ (.int _) | .lit _ (.bool _) | .var .. => true
  | .unary _ _ e | .addr _ e => e.plain
  | .binary _ _ l r | .index _ l r => l.plain && r.plain
  | .lit .. | .call .. | .hole _ => false

/-- What a load finds at a cell number, which may count from the end of the frame. -/
def loaded (cells : Array Int) (n : Int) : Except Fault Int :=
  match cellAt cells.size n with
  | .ok c => .ok (cells.getD c 0)
  | .error e => .error (.ofRead e)

/-- The value of a short circuit. A first operand of the truth `d` decides it, and `rest` is left out. -/
def circuit (d : Bool) (v : Int) (rest : Except Fault Int) : Except Fault Int :=
  if decide (v ≠ 0) = d then .ok (ofBool d) else rest >>= fun w => .ok (ofBool (w ≠ 0))

/-- The value of an expression in a frame. A variable without a cell and an element of what is not laid out as an array
are zero, and so is the address of either. -/
def number {α : Type} (slots : Slots) (cells : Array Int) : Expr α → Except Fault Int
  | .lit _ (.int n) => .ok n
  | .lit _ (.bool b) => .ok (ofBool b)
  | .var _ x => .ok (((slots.cell? x).map (cells.getD · 0)).getD 0)
  | .addr _ (.var _ x) => .ok ((slots.cell? x).getD 0 : Nat)
  | .unary _ op e => do
    let v ← e.number slots cells
    operate (Scalar.unary op v)
  | .binary _ .and l r => do
    let v ← l.number slots cells
    circuit false v (r.number slots cells)
  | .binary _ .or l r => do
    let v ← l.number slots cells
    circuit true v (r.number slots cells)
  | .binary _ op l r => do
    let v ← l.number slots cells
    let w ← r.number slots cells
    operate (Scalar.binary op v w)
  | .index _ a i => match a.varName?.bind slots.arrayCell? with
    | some base => do
      let v ← i.number slots cells
      loaded cells (base + v)
    | none => .ok 0
  | .addr _ (.index _ a i) => match a.varName?.bind slots.arrayCell? with
    | some base => do
      let v ← i.number slots cells
      .ok (wrap (v + base))
    | none => .ok 0
  | _ => .ok 0

variable {α : Type}

theorem number_binary {slots : Slots} {op : BinaryOp} (hand : op ≠ .and)
    (hor : op ≠ .or) (a : α) (l r : Expr α) : (Expr.binary a op l r).number slots cells = (do
      let v ← l.number slots cells
      let w ← r.number slots cells
      operate (Scalar.binary op v w)) := by
  cases op with
  | and => exact absurd rfl hand
  | or => exact absurd rfl hor
  | _ => rfl

theorem number_circuit {slots : Slots} (d : Bool) (a : α) (l r : Expr α) :
    (Expr.binary a (if d then .or else .and) l r).number slots cells =
      l.number slots cells >>= fun v => circuit d v (r.number slots cells) := by
  cases d <;> rfl

theorem callees_plain (e : Expr α) : e.plain = true → e.callees = [] ∧ e.textless = true := by
  induction e using Expr.induction with
  | lit a l =>
    cases l with
    | int | bool => exact fun _ => ⟨rfl, rfl⟩
    | str | none => exact fun h => absurd h Bool.false_ne_true
  | var | addrVar => exact fun _ => ⟨rfl, rfl⟩
  | unary a op e ih | addr a e _ _ ih => exact ih
  | binary a op l r ihl ihr | index a l r ihl ihr | addrIndex a b l r ihl ihr =>
    intro h
    obtain ⟨hl, hr⟩ := (Bool.and_eq_true _ _).mp h
    exact ⟨List.append_eq_nil_iff.2 ⟨(ihl hl).1, (ihr hr).1⟩, (Bool.and_eq_true _ _).mpr ⟨(ihl hl).2, (ihr hr).2⟩⟩
  | call | hole =>
    intro h
    cases h

end Expr

namespace Bytecode

open Machine (Image State Frame Runs)

section Run

variable {view : View} {lib : Library} {go : Nat → Shape → Act → Result Act} {table : Signatures} {scope : Scope}

theorem perform_loadElement (a : Act) {base : Nat} {i : Int} :
    (a.push i).perform lib ⟨.loadLocalIdx, some (base : Int)⟩ = .ofValue a (Expr.loaded a.locals (base + i)) := by
  simp only [Act.perform, Act.push, Machine.execute, State.pop₁, Machine.withArg, State.load, Expr.loaded]
  cases cellAt a.locals.size (base + i) <;> rfl

variable {e : Expr Note}

theorem shape_plain (view : View) (h : e.plain = true) :
    (view.expr e).Fits (fun _ => False) ∧ (view.expr e).strings = [] := by
  obtain ⟨hcallees, htextless⟩ := Expr.callees_plain e h
  exact ⟨fits_of_callees hcallees, view.closed_strings.expr_of_textless htextless⟩

/-- The code of a plain expression pushes its number, or faults as the expression does. -/
theorem run_number {t : Ty} (ht : HasType table scope e t) (he : e.plain = true)
    (hcells : ∀ x ∈ e.vars, ∀ c, view.slots.cell? x = some c → c < cells.size) (k : Nat) (stack : List Int) :
    (view.expr e).run lib go k ⟨stack, cells⟩ = .ofValue ⟨stack, cells⟩ (e.number view.slots cells) := by
  induction ht generalizing k stack with
  | lit l =>
    cases l with
    | int n => rfl
    | bool b => cases b <;> rfl
    | str | none => cases he
  | @var x _ _ =>
    rw [View.expr, Expr.number]
    split
    · rename_i c hc
      have hlt := hcells x (by simp [Expr.vars]) c hc
      refine Act.perform_loadLocal ?_
      simp [hc, Array.getElem?_eq_getElem hlt]
    · rename_i hc
      rw [hc]
      rfl
  | addrVar => rfl
  | unary _ hop ih =>
    rw [View.expr, Shape.run, ih he hcells]
    exact Result.ofValue_bind fun v _ => run_unary _ hop v
  | @binary op _ _ _ _ _ _ _ hop ihl ihr =>
    obtain ⟨hplainl, hplainr⟩ := (Bool.and_eq_true _ _).mp he
    obtain ⟨hcellsl, hcellsr⟩ := List.forall_mem_append.1 hcells
    obtain ⟨d, rfl⟩ | ⟨hand, hor⟩ := op.circuit_cases
    · -- The second operand runs on the stack of the first one, which the test takes.
      rw [Scalar.view_circuit, Shape.run, ihl hplainl hcellsl, Expr.number_circuit]
      exact Result.ofValue_bind fun v _ => run_circuit _ d (ihr hplainr hcellsr _ stack) v
    · rw [Scalar.view_binary hand hor, Shape.run, ihl hplainl hcellsl, Expr.number_binary hand hor]
      refine Result.ofValue_bind fun v _ => ?_
      rw [Shape.run, Act.push, ihr hplainr hcellsr]
      exact Result.ofValue_bind fun w _ => run_binary ⟨stack, cells⟩ hop hand hor v w
  | @index x _ _ _ _ _ _ ih | @addrIndex x _ _ _ _ _ _ ih =>
    obtain ⟨-, hplain⟩ := (Bool.and_eq_true _ _).mp he
    obtain ⟨-, hindex⟩ := List.forall_mem_append.1 hcells
    rw [View.expr, View.arrayCell?, Expr.number]
    cases x.varName?.bind view.slots.arrayCell? with
    | none => rfl
    | some base =>
      rw [Shape.run, ih hplain hindex]
      first
      | exact Result.ofValue_bind fun v _ => perform_loadElement _
      | exact Result.ofValue_bind fun v _ => rfl
  | push | pop | call => cases he

/-- Wherever the code of an expression without calls and strings stands, the machine pushes its value. -/
theorem exprCode_number {env : Env} {t : Ty} {v : Int} (he : e.plain = true)
    (ht : HasType table scope e t) (hcells : ∀ x ∈ e.vars, ∃ k, env.slots.cell? x = some k ∧ k < cells.size)
    (hv : e.number env.slots cells = .ok v) {img : Image} {p : Place} (hcode : img.Has p.pc (exprCode env p e).code)
    (stack : List Int) (calls : List Frame) : ∃ n, Runs img calls.length n [] ⟨p.pc, stack, cells, calls⟩
      ⟨p.pc + (exprCode env p e).code.length, v :: stack, cells, calls⟩ := by
  obtain ⟨hfits, hstrings⟩ := shape_plain env.view he
  rw [exprCode_eq env.numbered] at hcode ⊢
  obtain ⟨lib, go, hshows⟩ := Shape.shows hfits (by simp [hstrings]) hcode stack cells calls
  have hlt : ∀ x ∈ e.vars, ∀ c, env.slots.cell? x = some c → c < cells.size := by
    intro x hx c hc
    obtain ⟨k, hk, hlt⟩ := hcells x hx
    exact Option.some.inj (hk.symm.trans hc) ▸ hlt
  rw [run_number ht he hlt, Env.view_slots, hv] at hshows
  obtain ⟨n, s, hruns, rfl⟩ := hshows
  exact ⟨n, hruns⟩

end Run

end Bytecode

end Workbench
