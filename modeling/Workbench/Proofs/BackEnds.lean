import Workbench.Proofs.ExprLines
import Workbench.Proofs.FrameValues

/-!
# Two back ends

The machine and the processor compute the same value for an expression of numbers and truths if that value and
the values on the way to it lie between 0 and 32767 and nothing is divided (`expressions_agree`). A division is
where they part: the machine divides the left operand by the right one, the processor the right one by the
left one.
-/

open Option

namespace Workbench

open Machine (ofBool)
open Typing (Note Signatures Scope HasType)

/-! ### Exact values -/

/-- A number between 0 and 32767. -/
def small (n : Int) : Option Int := if 0 ≤ n ∧ n ≤ 32767 then some n else none

theorem small_eq_some {n m : Int} : small n = some m ↔ n = m ∧ 0 ≤ m ∧ m ≤ 32767 := by
  rw [small, ite_none_right_eq_some, some.injEq]
  constructor
  · rintro ⟨h, rfl⟩
    exact ⟨rfl, h⟩
  · rintro ⟨rfl, h⟩
    exact ⟨h, rfl⟩

/-- Applies an operator to integers. -/
def exactOp (a b : Int) : BinaryOp → Option Int
  | .add => some (a + b)
  | .sub => some (a - b)
  | .mul => some (a * b)
  | .div => if b = 0 then none else some (a / b)
  | .eq => some (ofBool (a = b))
  | .ne => some (ofBool (a ≠ b))
  | .lt => some (ofBool (a < b))
  | .le => some (ofBool (a ≤ b))
  | .gt => some (ofBool (a > b))
  | .ge => some (ofBool (a ≥ b))
  | .and | .or | .other _ => none

variable {op : BinaryOp} {v : Int}

namespace Expr

variable {α : Type}

/-- The value of an expression, if it and every value on the way to it lie between 0 and 32767 and no divisor is
zero. -/
def exact (vars : String → Int) : Expr α → Option Int
  | .lit _ (.int n) => small n
  | .lit _ (.bool b) => some (ofBool b)
  | .var _ x => small (vars x)
  | .unary _ .not e => (e.exact vars).map fun a => ofBool (a = 0)
  | .binary _ .and l r => (l.exact vars).bind fun a =>
    if a = 0 then some 0 else (r.exact vars).map fun b => ofBool (b ≠ 0)
  | .binary _ .or l r => (l.exact vars).bind fun a =>
    if a = 0 then (r.exact vars).map fun b => ofBool (b ≠ 0) else some 1
  | .binary _ op l r => (l.exact vars).bind fun a => (r.exact vars).bind fun b => (exactOp a b op).bind small
  | _ => none

/-- Literals, variables and operators other than division. -/
def divisionFree : Expr α → Bool
  | .lit .. | .var .. => true
  | .unary _ _ e => e.divisionFree
  | .binary _ op l r => op ≠ .div && l.divisionFree && r.divisionFree
  | _ => false

theorem exact_binary (hand : op ≠ .and) (hor : op ≠ .or) (vars : String → Int) (a : α) (l r : Expr α) :
    (Expr.binary a op l r).exact vars =
      (l.exact vars).bind fun v => (r.exact vars).bind fun w => (exactOp v w op).bind small := by
  cases op <;> first | rfl | exact absurd rfl hand | exact absurd rfl hor

theorem exact_circuit (d : Bool) (vars : String → Int) (a : α) (l r : Expr α) :
    (Expr.binary a (if d then .or else .and) l r).exact vars = (l.exact vars).bind fun v =>
      if decide (v ≠ 0) = d then some (ofBool d) else (r.exact vars).map fun w => ofBool (w ≠ 0) := by
  cases d <;> refine congrArg (Option.bind _) (funext fun v => ?_) <;> by_cases hv : v = 0 <;> simp [ofBool]

theorem ofBool_range (b : Bool) : 0 ≤ ofBool b ∧ ofBool b ≤ 32767 := by
  cases b <;> simp [ofBool]

theorem exact_range {vars : String → Int} {e : Expr α} (h : e.exact vars = some v) : 0 ≤ v ∧ v ≤ 32767 := by
  cases e with
  | lit a l =>
    cases l with
    | int n => exact (small_eq_some.1 h).2
    | bool b =>
      obtain rfl := some.inj h
      exact ofBool_range b
    | str | none => cases h
  | var a x => exact (small_eq_some.1 h).2
  | unary a op e =>
    cases op with
    | not =>
      obtain ⟨u, -, rfl⟩ := map_eq_some_iff.1 h
      exact ofBool_range _
    | neg | other => cases h
  | binary a op l r =>
    obtain ⟨d, rfl⟩ | ⟨hand, hor⟩ := op.circuit_cases
    · rw [exact_circuit] at h
      obtain ⟨u, -, hu⟩ := bind_eq_some_iff.1 h
      split at hu
      · obtain rfl := some.inj hu
        exact ofBool_range d
      · obtain ⟨w, -, rfl⟩ := map_eq_some_iff.1 hu
        exact ofBool_range _
    · rw [exact_binary hand hor] at h
      obtain ⟨u, -, hu⟩ := bind_eq_some_iff.1 h
      obtain ⟨w, -, hw⟩ := bind_eq_some_iff.1 hu
      obtain ⟨x, -, hx⟩ := bind_eq_some_iff.1 hw
      exact (small_eq_some.1 hx).2
  | call | index | addr | hole => cases h

end Expr

/-! ### The machine -/

variable {e : Expr Note}

section Machine

open Bytecode (Env Place Slots)

variable {table : Signatures} {scope : Scope} {vars : String → Int} {locals : Array Int}

theorem binary_exact {a b c v : Int} (hb : 0 ≤ b) (hc : exactOp a b op = some c)
    (hv : small c = some v) : Scalar.binary op a b = pure v := by
  obtain ⟨rfl, hlow, hhigh⟩ := small_eq_some.1 hv
  have hwrap : Machine.wrap c = c := Int.emod_eq_of_lt hlow (by omega)
  cases op with
  | and | or | other => cases hc
  | add | sub | mul =>
    obtain rfl := some.inj hc
    rw [Scalar.binary, hwrap]
  | div =>
    rw [exactOp, ite_none_left_eq_some, some.injEq] at hc
    rw [Scalar.binary, if_neg hc.1, Int.fdiv_eq_ediv_of_nonneg a hb, hc.2]
  | _ =>
    obtain rfl := some.inj hc
    rfl

/-- The exact value of an expression is its value in a frame that holds its variables. -/
theorem number_exact {slots : Slots} (hv : e.exact vars = some v)
    (hvars : ∀ x ∈ e.vars, ∃ k, slots.cell? x = some k ∧ locals[k]? = some (vars x)) : e.number slots locals = .ok v := by
  induction e using Expr.induction generalizing v with
  | lit a l =>
    cases l with
    | int n =>
      obtain ⟨rfl, -⟩ := small_eq_some.1 hv
      rfl
    | bool b =>
      obtain rfl := some.inj hv
      rfl
    | str | none => cases hv
  | var a x =>
    obtain ⟨rfl, -⟩ := small_eq_some.1 hv
    obtain ⟨c, hc, hl⟩ := hvars x (by simp [Expr.vars])
    simp [Expr.number, hc, hl]
  | unary a op e ih =>
    cases op with
    | neg | other => cases hv
    | not =>
      obtain ⟨u, hu, rfl⟩ := map_eq_some_iff.1 hv
      rw [Expr.number, ih hu hvars]
      rfl
  | binary a op l r ihl ihr =>
    rw [Expr.vars, List.forall_mem_append] at hvars
    obtain ⟨d, rfl⟩ | ⟨hand, hor⟩ := op.circuit_cases
    · rw [Expr.exact_circuit] at hv
      obtain ⟨x, hx, hv⟩ := bind_eq_some_iff.1 hv
      rw [Expr.number_circuit, ihl hx hvars.1]
      refine (?_ : Expr.circuit d x (r.number slots locals) = .ok v)
      unfold Expr.circuit
      split at hv
      · rw [if_pos ‹_›, some.inj hv]
      · obtain ⟨y, hy, rfl⟩ := map_eq_some_iff.1 hv
        rw [if_neg ‹_›, ihr hy hvars.2]
        rfl
    · rw [Expr.exact_binary hand hor] at hv
      obtain ⟨x, hx, hv⟩ := bind_eq_some_iff.1 hv
      obtain ⟨y, hy, hv⟩ := bind_eq_some_iff.1 hv
      obtain ⟨z, hz, hv⟩ := bind_eq_some_iff.1 hv
      rw [Expr.number_binary hand hor, ihl hx hvars.1, ihr hy hvars.2]
      exact congrArg Expr.operate (binary_exact (Expr.exact_range hy).1 hz hv)
  | call | index | addrVar | addrIndex | addr | hole => cases hv

theorem plain_of_isArithmetic (e : Expr Note) : e.isArithmetic = true → e.plain = true := by
  fun_induction Expr.isArithmetic e with
  | case1 | case2 | case3 | case4 => exact fun _ => rfl
  | case5 a e ih => exact ih
  | case6 a op l r ihl ihr =>
    simp only [Expr.plain, Bool.and_eq_true]
    exact .imp ihl ihr
  | case7 => exact fun h => absurd h Bool.false_ne_true

/-- Wherever the code of an expression stands, the machine runs through it and pushes the exact value. -/
theorem exprCode_runs {t : Ty} (ht : HasType table scope e t) (he : e.isArithmetic = true)
    (hv : e.exact vars = some v) {env : Env} {p : Place} {img : Machine.Image} {stack : List Int}
    {calls : List Machine.Frame} (hcode : img.Has p.pc (Bytecode.exprCode env p e).code)
    (hcells : ∀ x ∈ e.vars, ∃ k, env.slots.cell? x = some k ∧ locals[k]? = some (vars x)) :
    ∃ n, Machine.Runs img calls.length n [] ⟨p.pc, stack, locals, calls⟩
      ⟨p.pc + (Bytecode.exprCode env p e).code.length, v :: stack, locals, calls⟩ := by
  have hlt : ∀ x ∈ e.vars, ∃ k, env.slots.cell? x = some k ∧ k < locals.size := fun x hx =>
    (hcells x hx).imp fun k h => ⟨h.1, (Array.getElem?_eq_some_iff.1 h.2).1⟩
  exact Bytecode.exprCode_number (plain_of_isArithmetic e he) ht hlt (number_exact hv hcells) hcode stack calls

end Machine

/-! ### The processor -/

namespace Assembly

open Processor (Gives)

section Words

variable {a b : Int}

theorem toInt_ofInt_small (ha : 0 ≤ a ∧ a ≤ 32767) : (BitVec.ofInt 16 a).toInt = a := by
  rw [BitVec.toInt_ofInt]
  exact Int.bmod_eq_of_le (by omega) (by omega)

theorem ofInt_inj_small (ha : 0 ≤ a ∧ a ≤ 32767) (hb : 0 ≤ b ∧ b ≤ 32767) :
    BitVec.ofInt 16 a = BitVec.ofInt 16 b ↔ a = b := by
  rw [← BitVec.toInt_inj, toInt_ofInt_small ha, toInt_ofInt_small hb]

theorem ofInt_eq_zero_small (ha : 0 ≤ a ∧ a ≤ 32767) : BitVec.ofInt 16 a = 0 ↔ a = 0 :=
  ofInt_inj_small (b := 0) ha (by omega)

theorem truth_eq_ofInt (b : Bool) : truth b = .ofInt 16 (ofBool b) := by
  cases b <;> rfl

theorem wordOp_exact {c : Int} (ha : 0 ≤ a ∧ a ≤ 32767) (hb : 0 ≤ b ∧ b ≤ 32767) (hop : op ≠ .div)
    (hc : exactOp a b op = some c) : wordOp (.ofInt 16 a) (.ofInt 16 b) op = some (.ofInt 16 c) := by
  cases op with
  | and | or | other => cases hc
  | div => exact absurd rfl hop
  | add =>
    obtain rfl := some.inj hc
    exact congrArg some (BitVec.ofInt_add ..).symm
  | sub =>
    obtain rfl := some.inj hc
    rw [wordOp, Int.sub_eq_add_neg, BitVec.ofInt_add, BitVec.ofInt_neg, BitVec.sub_eq_add_neg]
  | mul =>
    obtain rfl := some.inj hc
    exact congrArg some (BitVec.ofInt_mul ..).symm
  | _ =>
    obtain rfl := some.inj hc
    simp [wordOp, comparisonJump?, Jump.holds, truth_eq_ofInt, toInt_ofInt_small ha, toInt_ofInt_small hb,
      ofInt_inj_small ha hb]

end Words

/-- Without division, words are exact as long as the values are small. -/
theorem word_exact {vars : String → Int} (hfree : e.divisionFree = true)
    (hv : e.exact vars = some v) : word (fun x => .ofInt 16 (vars x)) e = some (.ofInt 16 v) := by
  induction e using Expr.induction generalizing v with
  | lit a l =>
    cases l with
    | int n =>
      obtain ⟨rfl, -⟩ := small_eq_some.1 hv
      rfl
    | bool b =>
      obtain rfl := some.inj hv
      exact congrArg some (truth_eq_ofInt b)
    | str | none => cases hv
  | var a x =>
    obtain ⟨rfl, -⟩ := small_eq_some.1 hv
    rfl
  | unary a op e ih =>
    cases op with
    | neg | other => cases hv
    | not =>
      obtain ⟨u, hu, rfl⟩ := map_eq_some_iff.1 hv
      rw [word, ih hfree hu, map_some, truth_eq_ofInt]
      simp only [ofInt_eq_zero_small (Expr.exact_range hu)]
  | binary a op l r ihl ihr =>
    simp only [Expr.divisionFree, Bool.and_eq_true, decide_eq_true_eq] at hfree
    obtain ⟨⟨hop, hfreel⟩, hfreer⟩ := hfree
    obtain ⟨d, rfl⟩ | ⟨hand, hor⟩ := op.circuit_cases
    · rw [Expr.exact_circuit] at hv
      obtain ⟨x, hx, hv⟩ := bind_eq_some_iff.1 hv
      rw [word_circuit, ihl hfreel hx, bind_some]
      simp only [ne_eq, ofInt_eq_zero_small (Expr.exact_range hx)]
      split at hv
      · obtain rfl := some.inj hv
        rw [if_pos ‹_›, truth_eq_ofInt]
      · obtain ⟨y, hy, rfl⟩ := map_eq_some_iff.1 hv
        rw [if_neg ‹_›, ihr hfreer hy, map_some, truth_eq_ofInt]
        simp only [ofInt_eq_zero_small (Expr.exact_range hy)]
    · rw [Expr.exact_binary hand hor] at hv
      obtain ⟨x, hx, hv⟩ := bind_eq_some_iff.1 hv
      obtain ⟨y, hy, hv⟩ := bind_eq_some_iff.1 hv
      obtain ⟨z, hz, hv⟩ := bind_eq_some_iff.1 hv
      obtain ⟨rfl, -⟩ := small_eq_some.1 hv
      rw [word_binary hand hor, ihl hfreel hx, bind_some, ihr hfreer hy, bind_some]
      exact wordOp_exact (Expr.exact_range hx) (Expr.exact_range hy) hop hz
  | call | index | addrVar | addrIndex | addr | hole => cases hv

/-- **Two back ends, one value.** Where every value on the way is small and no divisor is zero, the machine pushes the
exact value of an expression. The processor leaves the value of words in `ax`, in which a division takes the right
operand by the left one; without division that is the exact value as well. -/
theorem expressions_agree {table : Signatures} {scope : Scope} {e : Expr Note} {t : Ty} (ht : HasType table scope e t)
    (he : e.isArithmetic = true) {vars : String → Int} {v : Int} (hv : e.exact vars = some v)
    {env : Bytecode.Env} {place : Bytecode.Place} {img : Machine.Image} {locals : Array Int}
    (hcode : img.Has place.pc (Bytecode.exprCode env place e).code)
    (hcells : ∀ x ∈ e.vars, ∃ k, env.slots.cell? x = some k ∧ locals[k]? = some (vars x))
    {f : Frame} {s : Processor} (hpc : s.pc = 0) (hframe : f.Holds e.vars (fun x => .ofInt 16 (vars x)) s)
    (hroom : 2 * e.pushes ≤ s.sp.toNat) (stack : List Int) (calls : List Machine.Frame) (pool : Pool) :
    (∃ n, Machine.Runs img calls.length n [] ⟨place.pc, stack, locals, calls⟩
      ⟨place.pc + (Bytecode.exprCode env place e).code.length, v :: stack, locals, calls⟩) ∧
    ∃ lines pool', exprLines f e pool = .ok (lines, pool') ∧
      Gives lines s (word (fun x => .ofInt 16 (vars x)) e) (Left s lines.length) ∧
      (e.divisionFree = true →
        ∃ u, Processor.Runs lines s u ∧ Left s lines.length (.ofInt 16 v) u ∧ u.ax.toNat = v) := by
  refine ⟨exprCode_runs ht he hv hcode hcells, ?_⟩
  obtain ⟨lines, pool', hlines, hgives⟩ := exprLines_gives ht he hpc hframe hroom pool
  refine ⟨lines, pool', hlines, hgives, fun hfree => ?_⟩
  rw [word_exact hfree hv] at hgives
  obtain ⟨u, hrun, hleft⟩ := hgives
  refine ⟨u, hrun, hleft, ?_⟩
  have hrange := Expr.exact_range hv
  rw [hleft.ax, BitVec.toNat_ofInt]
  omega

section Guarded

/-- `20 > x * 3 - y && !(x == y)` -/
def guarded : Expr Note :=
  let x := .var (some .int) "x"
  let y := .var (some .int) "y"
  .binary (some .bool) .and
    (.binary (some .bool) .gt (.lit (some .int) (.int 20))
      (.binary (some .int) .sub (.binary (some .int) .mul x (.lit (some .int) (.int 3))) y))
    (.unary (some .bool) .not (.binary (some .bool) .eq x y))

def guardedVars (x : String) : Int := if x = "x" then 7 else 2

def guardedEnv : Bytecode.Env := ⟨{ cells := [("x", 0), ("y", 1)], size := 2 }, []⟩

/-- The code of the expression and nothing else. -/
def guardedImage : Machine.Image :=
  { code := (Bytecode.exprCode guardedEnv ⟨0, 0⟩ guarded).code.toArray, functions := #[], strings := [] }

def guardedFrame : Frame := { offsets := [("x", 2), ("y", 4)], size := 4 }

/-- The frame base is 100; 7 stands at 98, and 2 at 96, where the stack begins. -/
def guardedState : Processor :=
  { bp := 100, sp := 96, memory := fun a => if a = 98 then 7 else if a = 96 then 2 else 0 }

theorem guarded_agrees : guarded.exact guardedVars = some 1 ∧
    (∃ n, Machine.Runs guardedImage 0 n [] ⟨0, [], #[7, 2], []⟩ ⟨16, [1], #[7, 2], []⟩) ∧
    ∃ lines pool' u, exprLines guardedFrame guarded {} = .ok (lines, pool') ∧ Processor.Runs lines guardedState u ∧
      u.pc = lines.length ∧ (u.ax.toNat : Int) = 1 ∧ u.sp = 96 := by
  have htype : HasType [] [[("x", .int), ("y", .int)]] guarded .bool :=
    .binary (.binary (.lit (.int 20)) (.binary (.binary (.var rfl) (.lit (.int 3)) rfl) (.var rfl) rfl) rfl)
      (.unary (.binary (.var rfl) (.var rfl) rfl) rfl) rfl
  have hvalue : guarded.exact guardedVars = some 1 := by decide
  have hcode : guardedImage.Has 0 (Bytecode.exprCode guardedEnv ⟨0, 0⟩ guarded).code := fun j _ => by
    rw [Nat.zero_add, guardedImage, List.getElem?_toArray]
  have hnames : ∀ x ∈ guarded.vars, x = "x" ∨ x = "y" := by decide
  have hcells : ∀ x ∈ guarded.vars, ∃ k, guardedEnv.slots.cell? x = some k ∧
      (#[7, 2])[k]? = some (guardedVars x) := by
    intro x hx
    rcases hnames x hx with rfl | rfl
    · exact ⟨0, rfl, rfl⟩
    · exact ⟨1, rfl, rfl⟩
  have hframe : guardedFrame.Holds guarded.vars (fun x => .ofInt 16 (guardedVars x)) guardedState := by
    intro x hx
    rcases hnames x hx with rfl | rfl
    · exact ⟨2, 98, rfl, rfl, by decide, by decide, by decide⟩
    · exact ⟨4, 96, rfl, rfl, by decide, by decide, by decide⟩
  obtain ⟨hruns, lines, pool', hlines, -, hagree⟩ :=
    expressions_agree htype rfl hvalue hcode hcells rfl hframe (by decide) [] [] {}
  obtain ⟨u, hrun, hleft, hax⟩ := hagree rfl
  exact ⟨hvalue, hruns, lines, pool', u, hlines, hrun, hleft.pc, hax, hleft.level⟩

end Guarded

/-- `6 / 3` -/
def sixThirds : Expr Note := .binary (some .int) .div (.lit (some .int) (.int 6)) (.lit (some .int) (.int 3))

/-- The machine divides 6 by 3, the processor 3 by 6. -/
theorem sixThirds_parts : sixThirds.exact (fun _ => 0) = some 2 ∧
    (∀ env place img locals stack calls, img.Has place.pc (Bytecode.exprCode env place sixThirds).code →
      ∃ n, Machine.Runs img calls.length n [] ⟨place.pc, stack, locals, calls⟩
        ⟨place.pc + 3, 2 :: stack, locals, calls⟩) ∧
    ∀ (f : Frame) (s : Processor) (pool : Pool), s.pc = 0 → 2 ≤ s.sp.toNat →
      ∃ lines pool' u, exprLines f sixThirds pool = .ok (lines, pool') ∧ Processor.Runs lines s u ∧
        u.pc = lines.length ∧ u.ax = 0 := by
  have htype : HasType [] [] sixThirds .int := .binary (.lit (.int 6)) (.lit (.int 3)) rfl
  have hvalue : sixThirds.exact (fun _ => 0) = some 2 := by decide
  refine ⟨hvalue, fun env place img locals stack calls hcode => ?_, fun f s pool hpc hsp => ?_⟩
  · exact exprCode_runs htype rfl hvalue hcode (by simp [sixThirds, Expr.vars])
  · have hframe : f.Holds sixThirds.vars (fun _ => 0) s := by simp [Frame.Holds, sixThirds, Expr.vars]
    obtain ⟨lines, pool', hlines, u, hrun, hleft⟩ := exprLines_gives htype rfl hpc hframe hsp pool
    have hword : word (fun _ => 0) sixThirds = some 0 := by decide
    rw [hword] at hleft
    exact ⟨lines, pool', u, hlines, hrun, hleft.pc, hleft.ax⟩

end Assembly

end Workbench
