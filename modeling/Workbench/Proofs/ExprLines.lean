import Workbench.Assembly.Emit
import Workbench.Proofs.Processor
import Workbench.Proofs.Syntax
import Workbench.Proofs.Typed

/-!
# Expressions in assembly

The lines for an expression of numbers and truths leave in `ax` the value that `word` gives it, a value of 16
bits, and change nothing at or above the stack pointer (`Lowered.gives`). A division divides the right operand
by the left one.

`Lowered` says what the lines look like, whatever their labels are called. Labels are numbered, and no number is
handed out twice (`Numbered`), so a jump finds the one place that it means.
-/

open List

open Option

namespace Workbench

/-- Expressions of literals, variables and operators on numbers and truths. -/
def Expr.isArithmetic : Expr Typing.Note → Bool
  | .lit _ (.int _) | .lit _ (.bool _) | .var (some .int) _ | .var (some .bool) _ => true
  | .unary _ .not e => e.isArithmetic
  | .binary _ _ l r => l.isArithmetic && r.isArithmetic
  | _ => false

/-- Expressions of literals, variables, elements of arrays that are named, and operators, without strings. -/
def Expr.isWord : Expr Typing.Note → Bool
  | .lit _ (.int _) | .lit _ (.bool _) => true
  | .var a _ => a ≠ some .str
  | .index _ (.var _ _) i => i.isWord
  | .unary _ .neg e | .unary _ .not e => e.isWord
  | .binary _ _ l r => l.isWord && r.isWord
  | _ => false

theorem Expr.isWord_of_isArithmetic (e : Expr Typing.Note) : e.isArithmetic = true → e.isWord = true := by
  fun_induction Expr.isArithmetic e with
  | case1 | case2 => exact fun _ => rfl
  | case3 | case4 => simp [Expr.isWord]
  | case5 a e ih => exact ih
  | case6 a op l r ihl ihr =>
    simp only [Expr.isWord, Bool.and_eq_true]
    exact .imp ihl ihr
  | case7 => exact fun h => absurd h Bool.false_ne_true

/-- How many words the value of an expression needs on the stack of the processor. -/
def Expr.pushes {α : Type} : Expr α → Nat
  | .unary _ _ e => e.pushes
  | .binary _ .and l r | .binary _ .or l r => max l.pushes r.pushes
  | .binary _ _ l r => max l.pushes (r.pushes + 1)
  | _ => 0

namespace Assembly

open Typing (Note Signatures Scope HasType)
open Processor (Gives)

/-! ### Values of 16 bits -/

def truth (b : Bool) : BitVec 16 := if b then 1 else 0

/-- Applies an operator to the values of its left and its right operand; `none` is a division that fails. -/
def wordOp (a b : BitVec 16) (op : BinaryOp) : Option (BitVec 16) :=
  match op with
  | .add => some (a + b)
  | .sub => some (a - b)
  | .mul => some (a * b)
  | .div =>
    let quotient := b.toInt.tdiv a.toInt
    if a = 0 ∨ quotient < -32767 ∨ 32767 < quotient then none else some (.ofInt 16 quotient)
  | op => (comparisonJump? op).map fun j => truth (j.holds a b)

/-- The value that the lines of an expression compute. -/
def word {α : Type} (vars : String → BitVec 16) : Expr α → Option (BitVec 16)
  | .lit _ (.int n) => some (.ofInt 16 n)
  | .lit _ (.bool b) => some (truth b)
  | .var _ x => some (vars x)
  | .unary _ .not e => (word vars e).map fun a => truth (a = 0)
  | .binary _ .and l r => (word vars l).bind fun a =>
    if a = 0 then some 0 else (word vars r).map fun b => truth (b ≠ 0)
  | .binary _ .or l r => (word vars l).bind fun a =>
    if a = 0 then (word vars r).map fun b => truth (b ≠ 0) else some 1
  | .binary _ op l r => (word vars l).bind fun a => (word vars r).bind fun b => wordOp a b op
  | _ => none

/-! ### Lines in a listing -/

def Stands (lines : List Line) (k : Nat) (code : List Line) : Prop := code <+: lines.drop k

namespace Stands

variable {lines a b : List Line} {k : Nat} {l : Line}

theorem left (h : Stands lines k (a ++ b)) : Stands lines k a := (prefix_append a b).trans h

theorem right (h : Stands lines k (a ++ b)) : Stands lines (k + a.length) b := by
  obtain ⟨rest, hr⟩ := h
  refine ⟨rest, ?_⟩
  rw [← drop_drop, ← hr, append_assoc, drop_left]

theorem tail (h : Stands lines k (l :: b)) : Stands lines (k + 1) b := h.right (a := [l])

theorem self (hk : k = 0) : Stands lines k lines := by
  rw [hk]
  exact prefix_refl lines

theorem head (h : Stands lines k (l :: b)) : lines[k]? = some l := by
  obtain ⟨rest, hr⟩ := h
  have := congrArg (·[0]?) hr
  simpa using this.symm

end Stands

def Line.label? : Line → Option String
  | .label x => some x
  | _ => none

def labels (lines : List Line) : List String := lines.filterMap Line.label?

variable {x : String}

theorem idxOf?_label {lines : List Line} (hnodup : (labels lines).Nodup) {k : Nat}
    (h : lines[k]? = some (.label x)) : lines.idxOf? (.label x) = some k := by
  obtain ⟨hk, hx⟩ := List.getElem?_eq_some_iff.1 h
  refine idxOf?_eq_some_iff.2 ⟨hk, hx, fun j hj heq => ?_⟩
  have hsplit : lines = lines.take k ++ .label x :: lines.drop (k + 1) := by
    rw [← hx, ← drop_eq_getElem_cons hk, take_append_drop]
  have hmem : .label x ∈ lines.take k := mem_iff_getElem.2 ⟨j, by simp; omega, by simpa using heq⟩
  rw [hsplit, labels, filterMap_append, nodup_append] at hnodup
  exact hnodup.2.2 x (mem_filterMap.2 ⟨_, hmem, rfl⟩) x (by simp [Line.label?]) rfl

/-! ### Below the stack pointer -/

/-- `t` has the frame of `s`, and its stack reaches at least as far down. -/
structure Under (s t : Processor) : Prop where
  bp : t.bp = s.bp
  sp : t.sp.toNat ≤ s.sp.toNat
  memory : ∀ a : BitVec 16, s.sp.toNat ≤ a.toNat → t.memory a = s.memory a

/-- `t` comes after `s` when the lines before `k` have left `w` in `ax`. -/
structure Left (s : Processor) (k : Nat) (w : BitVec 16) (t : Processor) : Prop extends Under s t where
  level : t.sp = s.sp
  ax : t.ax = w
  pc : t.pc = k

namespace Under

variable {s t u : Processor}

theorem refl (s : Processor) : Under s s := ⟨rfl, Nat.le_refl _, fun _ _ => rfl⟩

theorem trans (h : Under s t) (h' : Under t u) : Under s u :=
  ⟨h'.bp.trans h.bp, Nat.le_trans h'.sp h.sp,
    fun a ha => (h'.memory a (Nat.le_trans h.sp ha)).trans (h.memory a ha)⟩

theorem wordAt (h : Under s t) {a : Nat} (hsp : s.sp.toNat ≤ a) (ha : a < 65535) :
    t.wordAt (.ofNat 16 a) = s.wordAt (.ofNat 16 a) := by
  have hlow : (BitVec.ofNat 16 a).toNat = a := by simp; omega
  have hhigh : (BitVec.ofNat 16 a + 1).toNat = a + 1 := by simp; omega
  rw [Processor.wordAt, Processor.wordAt, h.memory _ (by omega), h.memory _ (by omega)]

theorem wordAt_of_le (h : Under s t) {a : BitVec 16} (hsp : s.sp.toNat ≤ a.toNat) (ha : a.toNat < 65535) :
    t.wordAt a = s.wordAt a := by
  have hword := h.wordAt hsp ha
  rwa [BitVec.ofNat_toNat] at hword

end Under

theorem Left.of_registers {s t : Processor} {k : Nat} {w : BitVec 16} (hbp : t.bp = s.bp) (hsp : t.sp = s.sp)
    (hmemory : t.memory = s.memory) (hax : t.ax = w) (hpc : t.pc = k) : Left s k w t :=
  ⟨⟨hbp, Nat.le_of_eq (by rw [hsp]), fun _ _ => by rw [hmemory]⟩, hsp, hax, hpc⟩

theorem Left.after {s t u : Processor} {k : Nat} {w : BitVec 16} (h : Left t k w u) (hbp : t.bp = s.bp)
    (hsp : t.sp = s.sp) (hmemory : ∀ a : BitVec 16, s.sp.toNat ≤ a.toNat → t.memory a = s.memory a) : Left s k w u :=
  ⟨.trans ⟨hbp, Nat.le_of_eq (by rw [hsp]), hmemory⟩ h.toUnder, h.level.trans hsp, h.ax, h.pc⟩

/-- The variables of `xs` have their places in the frame, at or above the stack pointer, and their values there. -/
def Frame.Holds (f : Frame) (xs : List String) (vars : String → BitVec 16) (s : Processor) : Prop :=
  ∀ x ∈ xs, ∃ k a, f.offset? x = some k ∧ s.bp.toNat = a + k ∧ s.sp.toNat ≤ a ∧ a < 65535 ∧
    s.wordAt (.ofNat 16 a) = vars x

namespace Frame.Holds

variable {f : Frame} {xs ys : List String} {vars : String → BitVec 16} {s t : Processor}

theorem under (h : f.Holds xs vars s) (hu : Under s t) : f.Holds xs vars t := by
  intro x hx
  obtain ⟨k, a, hk, hbp, hsp, ha, hw⟩ := h x hx
  refine ⟨k, a, hk, by rw [hu.bp, hbp], Nat.le_trans hu.sp hsp, ha, ?_⟩
  rw [hu.wordAt hsp ha, hw]

theorem left (h : f.Holds (xs ++ ys) vars s) : f.Holds xs vars s := fun x hx => h x (mem_append_left ys hx)

theorem right (h : f.Holds (xs ++ ys) vars s) : f.Holds ys vars s := fun x hx => h x (mem_append_right xs hx)

end Frame.Holds

/-! ### Single lines -/

section Lines

variable {α : Type} {lines rest : List Line} {s t : Processor} {r : Option α} {P : α → Processor → Prop}

theorem gives_instr {i : Instr} (h : Stands lines s.pc (.instr i :: rest))
    (hi : Processor.execute lines { s with pc := s.pc + 1 } i = .next t) (ht : Gives lines t r P) :
    Gives lines s r P := by
  refine .step ?_ ht
  rw [Processor.step, h.head]
  exact hi

theorem gives_label (h : Stands lines s.pc (.label x :: rest))
    (ht : Gives lines { s with pc := s.pc + 1 } r P) : Gives lines s r P := by
  refine .step ?_ ht
  rw [Processor.step, h.head]

theorem gives_jump {j : Jump} {b : Bool} {k : Nat} (hnodup : (labels lines).Nodup)
    (h : Stands lines s.pc (.jump j x :: rest)) (hb : s.flags.taken? j = some b) (hk : lines[k]? = some (.label x))
    (ht : Gives lines { s with pc := if b then k else s.pc + 1 } r P) : Gives lines s r P := by
  refine gives_instr h ?_ ht
  rw [Processor.execute, Processor.jump]
  simp only [hb, idxOf?_label hnodup hk]
  cases b <;> rfl

end Lines

/-- The lines that turn the outcome of a comparison into a truth. -/
def truthCode (j : Jump) (yes done : String) : List Line :=
  [.jump j yes, .zero, .jump .always done, .label yes, .movAx 1, .label done]

section Values

variable {lines : List Line} {s : Processor}

variable {d : Bool} {exit done : String} {j : Jump}

theorem truthCode_gives (hnodup : (labels lines).Nodup) {yes done : String} {b : Bool}
    (h : Stands lines s.pc (truthCode j yes done)) (hb : s.flags.taken? j = some b) :
    Gives lines s (some (truth b)) (Left s (s.pc + 6)) := by
  refine gives_jump hnodup h hb h.tail.tail.tail.head ?_
  cases b with
  | false =>
    refine gives_instr h.tail rfl (gives_jump hnodup h.tail.tail rfl h.tail.tail.tail.tail.tail.head ?_)
    refine gives_label h.tail.tail.tail.tail.tail (.here (.of_registers rfl rfl rfl ?_ rfl))
    exact BitVec.xor_self
  | true =>
    refine gives_label h.tail.tail.tail (gives_instr h.tail.tail.tail.tail rfl ?_)
    exact gives_label h.tail.tail.tail.tail.tail (.here (.of_registers rfl rfl rfl rfl rfl))

theorem not_gives (hnodup : (labels lines).Nodup) {yes done : String}
    (h : Stands lines s.pc (.twoImm .cmp .ax 0 :: truthCode .e yes done)) :
    Gives lines s (some (truth (s.ax = 0))) (Left s (s.pc + 7)) := by
  refine gives_instr h rfl ?_
  refine (truthCode_gives hnodup h.tail (Processor.taken?_compare s.ax 0 .e)).mono fun w t ht => ?_
  exact ht.after rfl rfl fun _ _ => rfl

/-- The lines that apply an operator to the values in `bx` (left) and `ax` (right). -/
inductive Applied : BinaryOp → List Line → Prop
  | add : Applied .add [.two .add .ax .bx]
  | sub : Applied .sub [.two .sub .bx .ax, .movR .ax .bx]
  | mul : Applied .mul [.one .imul .bx]
  | div : Applied .div [.instr .cwd, .one .idiv .bx]
  | compare {op : BinaryOp} {j : Jump} {yes done : String} (hj : comparisonJump? op = some j) :
      Applied op (.two .cmp .bx .ax :: truthCode j yes done)

theorem wordOp_comparison {op : BinaryOp} (hj : comparisonJump? op = some j) (a b : BitVec 16) :
    wordOp a b op = some (truth (j.holds a b)) := by
  cases op <;> simp_all [comparisonJump?, wordOp]

/-- Filling `dx` with the sign of `ax` keeps the value. -/
theorem toInt_of_sign (a : BitVec 16) : (if a.msb then (-1 : BitVec 16) else 0).toInt * 65536 + a.toNat = a.toInt := by
  rw [BitVec.toInt_eq_msb_cond a]
  cases a.msb with
  | false => simp
  | true =>
    show (-1 : Int) * 65536 + a.toNat = a.toNat - (2 ^ 16)
    omega

theorem div_gives (h : Stands lines s.pc [.instr .cwd, .one .idiv .bx]) :
    Gives lines s (wordOp s.bx s.ax .div) (Left s (s.pc + 2)) := by
  refine gives_instr h rfl ?_
  have hdiv : Processor.step lines { s with pc := s.pc + 1, dx := if s.ax.msb then -1 else 0 } =
      Processor.idiv { s with pc := s.pc + 1 + 1, dx := if s.ax.msb then -1 else 0 } s.bx := by
    rw [Processor.step, h.tail.head]
    rfl
  rw [Processor.idiv] at hdiv
  simp only [toInt_of_sign] at hdiv
  rw [wordOp]
  by_cases hfail : s.bx = 0 ∨ s.ax.toInt.tdiv s.bx.toInt < -32767 ∨ 32767 < s.ax.toInt.tdiv s.bx.toInt
  · rw [if_pos hfail] at hdiv ⊢
    exact .fail hdiv
  · rw [if_neg hfail] at hdiv ⊢
    exact .step hdiv (.here (.of_registers rfl rfl rfl rfl rfl))

theorem Applied.gives (hnodup : (labels lines).Nodup) {op : BinaryOp} {c : List Line} (hc : Applied op c)
    (h : Stands lines s.pc c) : Gives lines s (wordOp s.bx s.ax op) (Left s (s.pc + c.length)) := by
  cases hc with
  | add => exact gives_instr h rfl (.here (.of_registers rfl rfl rfl (BitVec.add_comm _ _) rfl))
  | sub => exact gives_instr h rfl (gives_instr h.tail rfl (.here (.of_registers rfl rfl rfl rfl rfl)))
  | mul =>
    refine gives_instr h rfl (.here (.of_registers rfl rfl rfl ?_ rfl))
    show BitVec.ofInt 16 (s.ax.toInt * s.bx.toInt) = s.bx * s.ax
    rw [BitVec.ofInt_mul, BitVec.ofInt_toInt, BitVec.ofInt_toInt, BitVec.mul_comm]
  | div => exact div_gives h
  | @compare _ j _ _ hj =>
    rw [wordOp_comparison hj]
    refine gives_instr h rfl ?_
    refine (truthCode_gives hnodup h.tail (Processor.taken?_compare s.bx s.ax j)).mono fun w t ht => ?_
    exact ht.after rfl rfl fun _ _ => rfl

def constant (b : Bool) : Line := if b then .movAx 1 else .zero

theorem gives_constant {α : Type} {rest : List Line} {r : Option α} {P : α → Processor → Prop} {b : Bool}
    (h : Stands lines s.pc (constant b :: rest)) (ht : ∀ t, Left s (s.pc + 1) (truth b) t → Gives lines t r P) :
    Gives lines s r P := by
  cases b with
  | false => exact gives_instr h rfl (ht _ (.of_registers rfl rfl rfl BitVec.xor_self rfl))
  | true => exact gives_instr h rfl (ht _ (.of_registers rfl rfl rfl rfl rfl))

/-- The last lines of `&&` and `||`, after the right operand. -/
def circuitEnd (d : Bool) (exit done : String) : List Line :=
  [.twoImm .cmp .ax 0, .jump (if d then .ne else .e) exit, constant !d, .jump .always done, .label exit, constant d,
    .label done]

/-- The lines of `&&` and `||` after the left operand, whose value decides if it is `d`. -/
def circuitCode (d : Bool) (exit done : String) (right : List Line) : List Line :=
  .twoImm .cmp .ax 0 :: .jump (if d then .ne else .e) exit :: (right ++ circuitEnd d exit done)

theorem gives_test {α : Type} {rest : List Line} {r : Option α} {P : α → Processor → Prop} {x : String} {k : Nat}
    (hnodup : (labels lines).Nodup)
    (h : Stands lines s.pc (.twoImm .cmp .ax 0 :: .jump (if d then .ne else .e) x :: rest))
    (hk : lines[k]? = some (.label x))
    (ht : ∀ t, Left s (if decide (s.ax ≠ 0) = d then k else s.pc + 2) s.ax t → Gives lines t r P) :
    Gives lines s r P := by
  refine gives_instr h rfl ?_
  refine gives_jump hnodup h.tail (Processor.taken?_compare s.ax 0 _) hk (ht _ (.of_registers rfl rfl rfl rfl ?_))
  cases d <;> by_cases hz : s.ax = 0 <;> simp [Jump.holds]

theorem exit_gives (h : Stands lines s.pc [.label exit, constant d, .label done]) :
    Gives lines s (some (truth d)) (Left s (s.pc + 3)) := by
  refine gives_label h (gives_constant h.tail fun t ht => ?_)
  have hdone : Stands lines t.pc [.label done] := by
    rw [ht.pc]
    exact h.tail.tail
  exact gives_label hdone (.here ⟨⟨ht.bp, ht.sp, ht.memory⟩, ht.level, ht.ax, congrArg (· + 1) ht.pc⟩)

theorem circuitEnd_gives (hnodup : (labels lines).Nodup) (h : Stands lines s.pc (circuitEnd d exit done)) :
    Gives lines s (some (truth (s.ax ≠ 0))) (Left s (s.pc + 7)) := by
  refine gives_test hnodup h h.tail.tail.tail.tail.head fun t ht => ?_
  by_cases hd : decide (s.ax ≠ 0) = d
  · rw [if_pos hd] at ht
    have hexit : Stands lines t.pc [.label exit, constant d, .label done] := by
      rw [ht.pc]
      exact h.tail.tail.tail.tail
    rw [hd]
    refine (exit_gives hexit).mono fun w u hu => ?_
    rw [ht.pc] at hu
    exact hu.after ht.bp ht.level ht.memory
  · rw [if_neg hd] at ht
    have hlate : Stands lines t.pc [constant !d, .jump .always done, .label exit, constant d, .label done] := by
      rw [ht.pc]
      exact h.tail.tail
    have hvalue : decide (s.ax ≠ 0) = !d := by
      cases d <;> simp_all
    rw [hvalue]
    refine gives_constant hlate fun u hu => ?_
    have hjump : Stands lines u.pc [.jump .always done, .label exit, constant d, .label done] := by
      rw [hu.pc]
      exact hlate.tail
    refine gives_jump hnodup hjump rfl hjump.tail.tail.tail.head ?_
    have hdone : Stands lines (u.pc + 1 + 1 + 1) [.label done] := hjump.tail.tail.tail
    refine gives_label hdone (.here (.after ?_ ht.bp ht.level ht.memory))
    refine ⟨⟨hu.bp, hu.sp, hu.memory⟩, hu.level, hu.ax, ?_⟩
    show u.pc + 1 + 1 + 1 + 1 = s.pc + 7
    rw [hu.pc, ht.pc]

variable {r : Option (BitVec 16)}

/-- The right operand is evaluated if the left one, in `ax`, does not decide. -/
theorem circuit_gives (hnodup : (labels lines).Nodup) {right : List Line}
    (h : Stands lines s.pc (circuitCode d exit done right))
    (hright : decide (s.ax ≠ 0) ≠ d → ∀ t, Left s (s.pc + 2) s.ax t → Stands lines t.pc right →
      Gives lines t r (Left t (t.pc + right.length))) :
    Gives lines s (if decide (s.ax ≠ 0) = d then some (truth d) else r.map fun b => truth (b ≠ 0))
      (Left s (s.pc + (circuitCode d exit done right).length)) := by
  have hend := h.tail.tail.right
  have hlength : (circuitCode d exit done right).length = 2 + right.length + 7 := by
    simp [circuitCode, circuitEnd]
    omega
  refine gives_test hnodup h hend.tail.tail.tail.tail.head fun t ht => ?_
  by_cases hd : decide (s.ax ≠ 0) = d
  · rw [if_pos hd] at ht ⊢
    have hexit : Stands lines t.pc [.label exit, constant d, .label done] := by
      rw [ht.pc]
      exact hend.tail.tail.tail.tail
    refine (exit_gives hexit).mono fun w u hu => ?_
    rw [ht.pc] at hu
    refine .after ?_ ht.bp ht.level ht.memory
    convert hu using 1
    omega
  · rw [if_neg hd] at ht ⊢
    have hstands : Stands lines t.pc right := by
      rw [ht.pc]
      exact h.tail.tail.left
    rw [map_eq_bind]
    refine (hright hd t ht hstands).bind fun b u hu => ?_
    have hlast : Stands lines u.pc (circuitEnd d exit done) := by
      rw [hu.pc, ht.pc]
      exact hend
    rw [← hu.ax]
    refine (circuitEnd_gives hnodup hlast).mono fun w v hv => ?_
    rw [hu.pc, ht.pc] at hv
    refine .after (.after ?_ hu.bp hu.level hu.memory) ht.bp ht.level ht.memory
    convert hv using 1
    omega

/-- A word on the stack stands below what was there, and is read back. -/
theorem gives_push {α : Type} {rest : List Line} {r : Option α} {P : α → Processor → Prop}
    (h : Stands lines s.pc (.one .push .ax :: rest)) (hroom : 2 ≤ s.sp.toNat)
    (ht : ∀ t, Under s t → t.sp.toNat + 2 = s.sp.toNat → t.wordAt t.sp = s.ax → t.pc = s.pc + 1 → Gives lines t r P) :
    Gives lines s r P := by
  refine gives_instr h rfl (ht _ ⟨rfl, ?_, fun a ha => ?_⟩ ?_ ?_ rfl)
  · show (s.sp - 2).toNat ≤ s.sp.toNat
    bv_omega
  · show Function.update (Function.update s.memory _ _) (s.sp - 2 + 1) _ a = s.memory a
    rw [Function.update_of_ne (by bv_omega), Function.update_of_ne (by bv_omega)]
  · show (s.sp - 2).toNat + 2 = s.sp.toNat
    bv_omega
  · show Function.update (Function.update s.memory (s.sp - 2) (s.ax.extractLsb' 0 8)) (s.sp - 2 + 1)
      (s.ax.extractLsb' 8 8) (s.sp - 2 + 1) ++ Function.update (Function.update s.memory (s.sp - 2)
      (s.ax.extractLsb' 0 8)) (s.sp - 2 + 1) (s.ax.extractLsb' 8 8) (s.sp - 2) = s.ax
    rw [Function.update_self, Function.update_of_ne (by bv_omega), Function.update_self]
    exact BitVec.extractLsb'_append_extractLsb'

/-- Lines that turn the value in `ax` into another one, after lines that leave a value there. -/
theorem gives_then {c d : List Line} {g : BitVec 16 → Option (BitVec 16)}
    (h : Stands lines s.pc (c ++ d)) (hc : Gives lines s r (Left s (s.pc + c.length)))
    (hd : ∀ v t, r = some v → Left s (s.pc + c.length) v t → Stands lines t.pc d →
      Gives lines t (g v) (Left t (t.pc + d.length))) :
    Gives lines s (r.bind g) (Left s (s.pc + (c ++ d).length)) := by
  obtain ⟨t, hrun, ht⟩ := hc
  cases r with
  | none => exact ⟨t, hrun, ht⟩
  | some v =>
    have hstands : Stands lines t.pc d := by
      rw [ht.pc]
      exact h.right
    have hlate : Gives lines t (g v) (Left s (s.pc + (c ++ d).length)) := by
      refine (hd v t rfl ht hstands).mono fun w u hu => ?_
      rw [length_append, ← Nat.add_assoc, ← ht.pc]
      exact hu.after ht.bp ht.level ht.memory
    obtain ⟨u, hrun', hu⟩ := hlate
    exact ⟨u, hrun.trans hrun', hu⟩

/-- The value in `ax` waits on the stack while other lines leave a value there, and what follows finds both. -/
theorem gives_kept {α : Type} {right rest : List Line} {r : Option (BitVec 16)} {g : BitVec 16 → Option α}
    {P : α → Processor → Prop} (h : Stands lines s.pc (.one .push .ax :: (right ++ rest))) (hroom : 2 ≤ s.sp.toNat)
    (hright : ∀ t, Under s t → t.sp.toNat + 2 = s.sp.toNat → Stands lines t.pc right →
      Gives lines t r (Left t (t.pc + right.length)))
    (hrest : ∀ u, Under s u → u.sp.toNat + 2 = s.sp.toNat → u.wordAt u.sp = s.ax → u.pc = s.pc + 1 + right.length →
      Stands lines u.pc rest → Gives lines u (g u.ax) P) : Gives lines s (r.bind g) P := by
  refine gives_push h hroom fun t ht hsp hword hpc => ?_
  have hstands : Stands lines t.pc right := by
    rw [hpc]
    exact h.tail.left
  refine (hright t ht hsp hstands).bind fun b u hu => ?_
  have hlate : u.pc = s.pc + 1 + right.length := by rw [hu.pc, hpc]
  have hkept : u.wordAt u.sp = s.ax := by
    rw [hu.level, hu.toUnder.wordAt_of_le (Nat.le_refl _) (by omega), hword]
  rw [← hu.ax]
  exact hrest u (ht.trans hu.toUnder) (by rw [hu.level, hsp]) hkept hlate (hlate ▸ h.tail.right)

/-- An operator on two operands: the value of the left one is kept on the stack. -/
theorem apply_gives (hnodup : (labels lines).Nodup) {op : BinaryOp} {right c : List Line}
    (hc : Applied op c) (h : Stands lines s.pc (.one .push .ax :: (right ++ .one .pop .bx :: c)))
    (hroom : 2 ≤ s.sp.toNat)
    (hright : ∀ t, Under s t → t.sp.toNat + 2 = s.sp.toNat → Stands lines t.pc right →
      Gives lines t r (Left t (t.pc + right.length))) :
    Gives lines s (r.bind fun b => wordOp s.ax b op)
      (Left s (s.pc + (.one .push .ax :: (right ++ .one .pop .bx :: c) : List Line).length)) := by
  refine gives_kept h hroom hright fun u hu hsp hkept hpc hpop => ?_
  have hlevel : u.sp + 2 = s.sp := by bv_omega
  refine gives_instr hpop rfl ?_
  rw [← hkept]
  refine (hc.gives hnodup hpop.tail).mono fun w v hv => ?_
  have hlength : s.pc + (.one .push .ax :: (right ++ .one .pop .bx :: c)).length = u.pc + 1 + c.length := by
    simp only [length_cons, length_append]
    omega
  rw [hlength]
  exact hv.after hu.bp hlevel hu.memory

end Values

/-! ### The lines of an expression -/

/-- What the lines for an expression without strings look like. -/
inductive Lowered (f : Frame) : Expr Note → List Line → Prop
  | int (a : Note) (n : Int) : Lowered f (.lit a (.int n)) [.movAx n]
  | bool (a : Note) (b : Bool) : Lowered f (.lit a (.bool b)) [.movAx (if b then 1 else 0)]
  | var {a : Note} {x : String} {k : Nat} (hk : f.offset? x = some k) :
      Lowered f (.var a x) [.mov (.reg .ax) (.local k)]
  | index {a b : Note} {x : String} {i : Expr Note} {c : List Line} {k : Nat} (hk : f.offset? x = some k)
      (hi : Lowered f i c) : Lowered f (.index a (.var b x) i) (c ++ (indexLines ++ [.mov (.reg .ax) (.element k)]))
  | neg {a : Note} {e : Expr Note} {c : List Line} (he : Lowered f e c) :
      Lowered f (.unary a .neg e) (c ++ [.one .neg .ax])
  | not {a : Note} {e : Expr Note} {c : List Line} {yes done : String} (he : Lowered f e c) :
      Lowered f (.unary a .not e) (c ++ .twoImm .cmp .ax 0 :: truthCode .e yes done)
  | circuit {a : Note} {l r : Expr Note} {cl cr : List Line} {exit done : String} (d : Bool) (hl : Lowered f l cl)
      (hr : Lowered f r cr) : Lowered f (.binary a (if d then .or else .and) l r) (cl ++ circuitCode d exit done cr)
  | apply {a : Note} {op : BinaryOp} {l r : Expr Note} {cl cr c : List Line} (hl : Lowered f l cl)
      (hr : Lowered f r cr) (hc : Applied op c) :
      Lowered f (.binary a op l r) (cl ++ .one .push .ax :: (cr ++ .one .pop .bx :: c))

theorem word_circuit {α : Type} (d : Bool) (vars : String → BitVec 16) (a : α) (l r : Expr α) :
    word vars (.binary a (if d then .or else .and) l r) = (word vars l).bind fun v =>
      if decide (v ≠ 0) = d then some (truth d) else (word vars r).map fun w => truth (w ≠ 0) := by
  cases d <;> refine congrArg (Option.bind _) (funext fun v => ?_) <;> by_cases hv : v = 0 <;> simp [truth]

section Binary

variable {α : Type} {op : BinaryOp}

theorem word_binary (hand : op ≠ .and) (hor : op ≠ .or) (vars : String → BitVec 16) (a : α) (l r : Expr α) :
    word vars (.binary a op l r) = (word vars l).bind fun v => (word vars r).bind fun w => wordOp v w op := by
  cases op <;> first | rfl | exact absurd rfl hand | exact absurd rfl hor

theorem pushes_binary (hand : op ≠ .and) (hor : op ≠ .or) (a : α) (l r : Expr α) :
    (Expr.binary a op l r).pushes = max l.pushes (r.pushes + 1) := by
  cases op <;> first | rfl | exact absurd rfl hand | exact absurd rfl hor

theorem Applied.ne {c : List Line} (hc : Applied op c) : op ≠ .and ∧ op ≠ .or := by
  cases hc with
  | compare hj =>
    constructor <;>
      · rintro rfl
        cases hj
  | _ => simp

end Binary

variable {e : Expr Note}

/-- **Lines compute words**: the lines for an expression of numbers and truths leave its value in `ax`, or come to a
division that fails. -/
theorem Lowered.gives {lines : List Line} (hnodup : (labels lines).Nodup) {f : Frame} {vars : String → BitVec 16}
    {code : List Line} (h : Lowered f e code) :
    ∀ s : Processor, e.isArithmetic = true → Stands lines s.pc code → f.Holds e.vars vars s →
      2 * e.pushes ≤ s.sp.toNat → Gives lines s (word vars e) (Left s (s.pc + code.length)) := by
  induction h with
  | int a n => exact fun s _ hs _ _ => gives_instr hs rfl (.here (.of_registers rfl rfl rfl rfl rfl))
  | bool a b =>
    intro s _ hs _ _
    refine gives_instr hs rfl (.here (.of_registers rfl rfl rfl ?_ rfl))
    cases b <;> rfl
  | @var a x k hk =>
    intro s _ hs hvars _
    obtain ⟨k', i, hk', hbp, -, -, hword⟩ := hvars x (by simp [Expr.vars])
    obtain rfl : k = k' := some.inj (hk.symm.trans hk')
    refine gives_instr hs rfl (.here (.of_registers rfl rfl rfl ?_ rfl))
    have hplace : s.bp - .ofNat 16 k = .ofNat 16 i := by
      bv_omega
    show s.wordAt (s.bp - .ofNat 16 k) = vars x
    rw [hplace, hword]
  | index | neg => exact fun s he => absurd he Bool.false_ne_true
  | not he ih =>
    intro s he hs hvars hroom
    rw [word, map_eq_bind]
    exact gives_then hs (ih s he hs.left hvars hroom) fun v t _ ht => ht.ax ▸ not_gives hnodup
  | @circuit a l r cl cr exit done d hl hr ihl ihr =>
    intro s he hs hvars hroom
    rw [Expr.isArithmetic, Bool.and_eq_true] at he
    have hpushes : (Expr.binary a (if d then .or else .and) l r).pushes = max l.pushes r.pushes := by cases d <;> rfl
    rw [word_circuit]
    refine gives_then hs (ihl s he.1 hs.left hvars.left (by omega)) fun v t _ ht hstands => ?_
    rw [← ht.ax]
    refine circuit_gives hnodup hstands fun _ u hu hr' => ?_
    have hsp : u.sp.toNat = s.sp.toNat := by rw [hu.level, ht.level]
    exact ihr u he.2 hr' ((hvars.right.under ht.toUnder).under hu.toUnder) (by omega)
  | @apply a op l r cl cr c hl hr hc ihl ihr =>
    intro s he hs hvars hroom
    rw [Expr.isArithmetic, Bool.and_eq_true] at he
    rw [pushes_binary hc.ne.1 hc.ne.2] at hroom
    rw [word_binary hc.ne.1 hc.ne.2]
    refine gives_then hs (ihl s he.1 hs.left hvars.left (by omega)) fun v t _ ht hstands => ?_
    have hsp : t.sp.toNat = s.sp.toNat := by rw [ht.level]
    rw [← ht.ax]
    refine apply_gives hnodup hc hstands (by omega) fun u hu hsp' hr' => ?_
    exact ihr u he.2 hr' ((hvars.right.under ht.toUnder).under hu) (by omega)

/-! ### Labels -/

/-- The last character is no digit, so that a number can follow. -/
def endsPlain (base : String) : Bool := base.toList.getLast?.all (!·.isDigit)

theorem number_inj {base base' : String} (hb : endsPlain base = true) (hb' : endsPlain base' = true) {k k' : Nat}
    (h : base ++ toString k = base' ++ toString k') : k = k' := by
  have hdigits : ∀ {base : String} k, endsPlain base = true →
      (base ++ toString k).toList.reverse.takeWhile Char.isDigit = (Nat.toDigits 10 k).reverse := by
    intro base k hbase
    have hall : ∀ c ∈ (Nat.toDigits 10 k).reverse, c.isDigit = true := fun c hc =>
      Nat.isDigit_of_mem_toDigits (by decide) (by decide) (mem_reverse.1 hc)
    have hnone : base.toList.reverse.takeWhile Char.isDigit = [] := by
      cases hrev : base.toList.reverse with
      | nil => rfl
      | cons c cs =>
        have hlast : base.toList.getLast? = some c := by rw [getLast?_eq_head?_reverse, hrev, head?_cons]
        rw [endsPlain, hlast, all_some, Bool.not_eq_true'] at hbase
        rw [takeWhile_cons, hbase]
        rfl
    rw [String.toList_append, reverse_append, Nat.toString_eq_repr, Nat.toList_repr,
      takeWhile_append_of_pos hall, hnone, append_nil]
  have hrev := hdigits k hb
  rw [h, hdigits k' hb', reverse_inj] at hrev
  have hvalue := congrArg (Nat.ofDigitChars 10 · 0) hrev
  simpa using hvalue.symm

/-- Labels that differ, with numbers above `n` and up to `m`. -/
structure Numbered (n m : Nat) (xs : List String) : Prop where
  le : n ≤ m
  nodup : xs.Nodup
  number : ∀ x ∈ xs, ∃ base k, x = base ++ toString k ∧ endsPlain base = true ∧ n < k ∧ k ≤ m

namespace Numbered

variable {n m k : Nat} {xs ys : List String}

theorem nil (n : Nat) : Numbered n n [] := ⟨Nat.le_refl n, nodup_nil, by simp⟩

theorem fresh {base : String} (hbase : endsPlain base = true) : Numbered n (n + 1) [base ++ toString (n + 1)] :=
  ⟨by omega, by simp, by simpa using ⟨base, n + 1, rfl, hbase, by omega, by omega⟩⟩

theorem append (hx : Numbered n m xs) (hy : Numbered m k ys) : Numbered n k (xs ++ ys) := by
  refine ⟨Nat.le_trans hx.le hy.le, nodup_append.2 ⟨hx.nodup, hy.nodup, ?_⟩, fun x hmem => ?_⟩
  · rintro x hmem y hmem' rfl
    obtain ⟨base, i, rfl, hbase, -, hi⟩ := hx.number x hmem
    obtain ⟨base', j, heq, hbase', hj, -⟩ := hy.number _ hmem'
    have := number_inj hbase hbase' heq
    omega
  · rcases mem_append.1 hmem with hmem | hmem
    · obtain ⟨base, i, rfl, hbase, hi, hi'⟩ := hx.number x hmem
      exact ⟨base, i, rfl, hbase, hi, Nat.le_trans hi' hy.le⟩
    · obtain ⟨base, i, rfl, hbase, hi, hi'⟩ := hy.number x hmem
      exact ⟨base, i, rfl, hbase, Nat.lt_of_le_of_lt hx.le hi, hi'⟩

theorem perm (h : Numbered n m xs) (hp : xs.Perm ys) : Numbered n m ys :=
  ⟨h.le, hp.nodup_iff.1 h.nodup, fun x hx => h.number x (hp.mem_iff.2 hx)⟩

end Numbered

/-! ### Generation -/

section Generation

variable {table : Signatures} {scope : Scope} {f : Frame}

theorem labels_append (a b : List Line) : labels (a ++ b) = labels a ++ labels b := filterMap_append

theorem labels_circuitCode (d : Bool) (exit done : String) (right : List Line) :
    labels (circuitCode d exit done right) = labels right ++ [exit, done] := by
  have hend : labels (circuitEnd d exit done) = [exit, done] := by cases d <;> rfl
  rw [← hend, ← labels_append]
  rfl

theorem numbered_truth (n : Nat) : Numbered n (n + 2) ["T" ++ toString (n + 1), "E" ++ toString (n + 2)] :=
  (Numbered.fresh (by decide)).append (.fresh (by decide))

theorem exists_applied {op : BinaryOp} {t t' u : Ty} (hop : Typing.binaryType op t t' = .ok u) (hand : op ≠ .and)
    (hor : op ≠ .or) (p : Pool) :
    ∃ c p', arithmeticLines op p = .ok (c, p') ∧ Applied op c ∧ Numbered p.labels p'.labels (labels c) := by
  cases op with
  | add => exact ⟨_, p, rfl, .add, .nil _⟩
  | sub => exact ⟨_, p, rfl, .sub, .nil _⟩
  | mul => exact ⟨_, p, rfl, .mul, .nil _⟩
  | div => exact ⟨_, p, rfl, .div, .nil _⟩
  | and => exact absurd rfl hand
  | or => exact absurd rfl hor
  | other text => simp [Typing.binaryType] at hop
  | _ => exact ⟨_, _, rfl, .compare rfl, numbered_truth p.labels⟩

theorem ne_str_of_isWord {t : Ty} (ht : HasType table scope e t) (he : e.isWord = true) : t ≠ .str := by
  cases ht with
  | lit v => cases v <;> simp_all [Expr.isWord, Typing.literalType]
  | var hx =>
    rintro rfl
    simp [Expr.isWord] at he
  | index => simp
  | unary _ hop =>
    obtain ⟨rfl, rfl | rfl⟩ := Typing.unaryType_cases hop <;> simp
  | binary _ _ hop =>
    obtain rfl | ⟨rfl, -⟩ := Typing.binaryType_cases hop <;> simp
  | _ => simp [Expr.isWord] at he

section Gen

variable {left right : Gen (List Line)} {p q q' q'' : Pool} {c cl cr : List Line} {a : Note}

theorem exprLines_neg (h : exprLines f e p = .ok (c, q)) :
    exprLines f (.unary a .neg e) p = .ok (c ++ [Line.one .neg .ax], q) := by
  rw [exprLines]
  simp only [bind, StateT.bind, h]
  rfl

theorem exprLines_not (h : exprLines f e p = .ok (c, q)) :
    exprLines f (.unary a .not e) p = .ok (c ++ .twoImm .cmp .ax 0 ::
      truthCode .e ("T" ++ toString (q.labels + 1)) ("E" ++ toString (q.labels + 2)),
      { q with labels := q.labels + 2 }) := by
  rw [exprLines]
  simp only [bind, StateT.bind, h]
  rfl

theorem wordLines_eq {op : BinaryOp} (hl : left p = .ok (cl, q)) (hr : right q = .ok (cr, q'))
    (hc : arithmeticLines op q' = .ok (c, q'')) :
    wordLines op left right p = .ok (cl ++ .one .push .ax :: (cr ++ .one .pop .bx :: c), q'') := by
  unfold wordLines
  simp only [bind, StateT.bind, hl, hr, hc, Except.bind]
  change Except.ok (_, q'') = Except.ok (_, q'')
  simp

/-- `||` and `&&` draw their labels before those of the operands. -/
theorem circuitLines_eq (d : Bool) {t t' : Ty} (hl : left { p with labels := p.labels + 2 } = .ok (cl, q))
    (hr : right q = .ok (cr, q')) :
    binaryLines (if d then .or else .and) t t' left right p = .ok (cl ++ circuitCode d
      ((if d then "OR_TRUE" else "AND_FALSE") ++ toString (p.labels + 2))
      ((if d then "OR_END" else "AND_END") ++ toString (p.labels + 1)) cr, q') := by
  cases d <;> simp only [Bool.false_eq_true, if_false, if_true, binaryLines, andLines, orLines] <;>
    simp only [bind, StateT.bind, fresh, Pool.fresh, hl, hr, Except.bind] <;>
    change Except.ok (_, q') = Except.ok (_, q') <;>
    simp [circuitCode, circuitEnd, constant]

theorem exprLines_binary {op : BinaryOp} {l r : Expr Note} {t t' : Ty} (hl : l.note = some t)
    (hr : r.note = some t') :
    exprLines f (.binary a op l r) = binaryLines op t t' (exprLines f l) (exprLines f r) := by
  rw [exprLines, typeOf, typeOf, hl, hr]
  rfl

end Gen

theorem binaryLines_word {op : BinaryOp} (hand : op ≠ .and) (hor : op ≠ .or) {lt rt : Ty} (hl : lt ≠ .str)
    (left right : Gen (List Line)) : binaryLines op lt rt left right = wordLines op left right := by
  unfold binaryLines
  split
  · exact absurd rfl hand
  · exact absurd rfl hor
  · split
    · rw [if_neg fun h => hl h.1]
    · rfl

theorem numbered_circuit {n m k : Nat} {xs ys : List String} {base base' : String} (hb : endsPlain base = true)
    (hb' : endsPlain base' = true) (hx : Numbered (n + 2) m xs) (hy : Numbered m k ys) :
    Numbered n k (xs ++ (ys ++ [base ++ toString (n + 2), base' ++ toString (n + 1)])) := by
  have hlabels := ((Numbered.fresh hb').append (.fresh hb)).append (hx.append hy)
  refine hlabels.perm (perm_append_comm.trans ?_)
  rw [append_assoc]
  exact ((List.Perm.swap _ _ _).append_left ys).append_left xs

/-- **Generation succeeds** for expressions without strings whose variables have a place. -/
theorem exists_lowered {t : Ty} (ht : HasType table scope e t) (he : e.isWord = true)
    (hvars : ∀ x ∈ e.vars, (f.offset? x).isSome = true) (p : Pool) : ∃ code p', exprLines f e p = .ok (code, p') ∧
      Lowered f e code ∧ Numbered p.labels p'.labels (labels code) := by
  induction ht generalizing p with
  | lit v =>
    cases v with
    | int n => exact ⟨_, p, rfl, .int _ n, .nil _⟩
    | bool b => exact ⟨_, p, rfl, .bool _ b, .nil _⟩
    | str | none => cases he
  | @var x =>
    obtain ⟨k, hk⟩ := isSome_iff_exists.1 (hvars x (by simp [Expr.vars]))
    refine ⟨_, p, ?_, .var hk, .nil _⟩
    rw [exprLines, hk]
    rfl
  | @unary op _ _ _ _ _ ih =>
    cases op with
    | other => cases he
    | neg =>
      obtain ⟨c, q, hc, hlow, hnum⟩ := ih he hvars p
      refine ⟨_, _, exprLines_neg hc, .neg hlow, ?_⟩
      rw [labels_append]
      exact hnum.append (.nil _)
    | not =>
      obtain ⟨c, q, hc, hlow, hnum⟩ := ih he hvars p
      refine ⟨_, _, exprLines_not hc, .not hlow, ?_⟩
      rw [labels_append]
      exact hnum.append (numbered_truth q.labels)
  | @binary op _ _ _ _ _ hl hr hop ihl ihr =>
    rw [Expr.isWord, Bool.and_eq_true] at he
    rw [Expr.vars, forall_mem_append] at hvars
    rw [exprLines_binary hl.note_eq hr.note_eq]
    obtain ⟨d, rfl⟩ | ⟨hand, hor⟩ := op.circuit_cases
    · obtain ⟨cl, q, hcl, hlowl, hnuml⟩ := ihl he.1 hvars.1 { p with labels := p.labels + 2 }
      obtain ⟨cr, q', hcr, hlowr, hnumr⟩ := ihr he.2 hvars.2 q
      refine ⟨_, q', circuitLines_eq d hcl hcr, .circuit d hlowl hlowr, ?_⟩
      rw [labels_append, labels_circuitCode]
      exact numbered_circuit (by cases d <;> decide) (by cases d <;> decide) hnuml hnumr
    · rw [binaryLines_word hand hor (ne_str_of_isWord hl he.1)]
      obtain ⟨cl, q, hcl, hlowl, hnuml⟩ := ihl he.1 hvars.1 p
      obtain ⟨cr, q', hcr, hlowr, hnumr⟩ := ihr he.2 hvars.2 q
      obtain ⟨c, q'', hc, happlied, hnum⟩ := exists_applied hop hand hor q'
      refine ⟨_, q'', wordLines_eq hcl hcr hc, .apply hlowl hlowr happlied, ?_⟩
      rw [labels_append]
      refine hnuml.append ?_
      show Numbered q.labels q''.labels (labels (cr ++ .one .pop .bx :: c))
      rw [labels_append]
      exact hnumr.append hnum
  | @index x _ _ _ _ _ _ ih =>
    cases x with
    | var b x =>
      rw [Expr.vars, forall_mem_append] at hvars
      obtain ⟨k, hk⟩ := isSome_iff_exists.1 (hvars.1 x (by simp [Expr.vars]))
      obtain ⟨c, q, hc, hlow, hnum⟩ := ih he hvars.2 p
      refine ⟨_, q, ?_, .index hk hlow, ?_⟩
      · rw [exprLines, ← append_assoc]
        simp only [Frame.varOffset?, Expr.varName?, bind_some, hk, bind, StateT.bind, hc]
        rfl
      · rw [labels_append]
        exact hnum.append (.nil _)
    | _ => cases he
  | addrVar | addrIndex | push | pop | call => cases he

theorem exprLines_gives {t : Ty} (ht : HasType table scope e t) (he : e.isArithmetic = true)
    {vars : String → BitVec 16} {s : Processor} (hpc : s.pc = 0) (hvars : f.Holds e.vars vars s)
    (hroom : 2 * e.pushes ≤ s.sp.toNat) (p : Pool) : ∃ lines p', exprLines f e p = .ok (lines, p') ∧
      Gives lines s (word vars e) (Left s lines.length) := by
  have hplaced : ∀ x ∈ e.vars, (f.offset? x).isSome = true := by
    intro x hx
    obtain ⟨k, -, hk, -⟩ := hvars x hx
    rw [hk, isSome_some]
  obtain ⟨lines, p', hlines, hlow, hnum⟩ := exists_lowered ht (e.isWord_of_isArithmetic he) hplaced p
  refine ⟨lines, p', hlines, ?_⟩
  have hgives := hlow.gives hnum.nodup s he (by rw [hpc]; exact prefix_refl lines) hvars hroom
  rwa [hpc, Nat.zero_add] at hgives

end Generation

end Assembly

end Workbench
