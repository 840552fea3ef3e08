import Workbench.Proofs.ExprLines

/-!
# Expressions over the words of a frame

Variables and the elements of arrays are words below the frame base, and an expression has a value over these words:
arithmetic is modulo `2 ^ 16`, comparisons are of signed integers, and `&&` and `||` look at their right operand only
if the left one does not decide (`wordIn`). The lines of an expression compute that value in `ax` and leave the
frame as it is (`Lowered.gives_wordIn`).

Operands wait on the stack. The stack grows down, so the frame is safe from it as long as there is room below the
stack pointer; where there is none, the stack goes on at the other end of memory and the words of the frame are lost
(`crowded_overwritten`).
-/

open Option

namespace Workbench

open Typing (Note Signatures Scope HasType)

/-- How many words the lines of an expression keep on the stack at a time. -/
def Expr.waiting {α : Type} : Expr α → Nat
  | .unary _ _ e | .index _ _ e => e.waiting
  | .binary _ .and l r | .binary _ .or l r => max l.waiting r.waiting
  | .binary _ _ l r => max l.waiting (r.waiting + 1)
  | _ => 0

namespace Assembly

open Processor (Gives)

/-! ### Values -/

/-- The word that stands `i` words above the place of a variable, if it ends before memory does. -/
def Frame.word? (f : Frame) (s : Processor) (x : String) (i : Nat) : Option (BitVec 16) :=
  (f.offset? x).bind fun k =>
    if s.bp.toNat + 2 * i + 1 < 65536 + k then some (s.wordAt (s.bp - .ofNat 16 k + .ofNat 16 (2 * i))) else none

/-- Applies an operator to words in two's complement. -/
def signedOp (a b : BitVec 16) : BinaryOp → Option (BitVec 16)
  | .add => some (a + b)
  | .sub => some (a - b)
  | .mul => some (a * b)
  | .eq => some (truth (a.toInt = b.toInt))
  | .ne => some (truth (a.toInt ≠ b.toInt))
  | .lt => some (truth (a.toInt < b.toInt))
  | .le => some (truth (a.toInt ≤ b.toInt))
  | .gt => some (truth (b.toInt < a.toInt))
  | .ge => some (truth (b.toInt ≤ a.toInt))
  | .div | .and | .or | .other _ => none

/-- The value of an expression over the words of a frame. An index that is not in range has no element, and a division
has no value here. -/
def wordIn (f : Frame) (s : Processor) : Expr Note → Option (BitVec 16)
  | .lit _ (.int n) => some (.ofInt 16 n)
  | .lit _ (.bool b) => some (truth b)
  | .var _ x => f.word? s x 0
  | .index _ (.var (some (.array _ n)) x) i => (wordIn f s i).bind fun v =>
    if v.toNat < n then f.word? s x v.toNat else none
  | .unary _ .neg e => (wordIn f s e).map (-·)
  | .unary _ .not e => (wordIn f s e).map fun a => truth (a = 0)
  | .binary _ .and l r => (wordIn f s l).bind fun a =>
    if a = 0 then some 0 else (wordIn f s r).map fun b => truth (b ≠ 0)
  | .binary _ .or l r => (wordIn f s l).bind fun a =>
    if a = 0 then (wordIn f s r).map fun b => truth (b ≠ 0) else some 1
  | .binary _ op l r => (wordIn f s l).bind fun a => (wordIn f s r).bind fun b => signedOp a b op
  | _ => none

theorem wordOp_of_signedOp {a b w : BitVec 16} {op : BinaryOp} (h : signedOp a b op = some w) :
    wordOp a b op = some w := by
  have heq : a = b ↔ a.toInt = b.toInt := BitVec.toInt_inj.symm
  cases op with
  | add | sub | mul => exact h
  | div | and | or | other => cases h
  | _ =>
    obtain rfl := some.inj h
    simp [wordOp, comparisonJump?, Jump.holds, heq]

theorem wordIn_circuit (d : Bool) (f : Frame) (s : Processor) (a : Note) (l r : Expr Note) :
    wordIn f s (.binary a (if d then .or else .and) l r) = (wordIn f s l).bind fun v =>
      if decide (v ≠ 0) = d then some (truth d) else (wordIn f s r).map fun w => truth (w ≠ 0) := by
  cases d <;> refine congrArg (Option.bind _) (funext fun v => ?_) <;> by_cases hv : v = 0 <;> simp [truth]

section Binary

variable {op : BinaryOp} (hand : op ≠ .and) (hor : op ≠ .or) (a : Note) (l r : Expr Note)

include hand hor

theorem wordIn_binary (f : Frame) (s : Processor) : wordIn f s (.binary a op l r) =
    (wordIn f s l).bind fun v => (wordIn f s r).bind fun w => signedOp v w op := by
  cases op <;> first | rfl | exact absurd rfl hand | exact absurd rfl hor

theorem waiting_binary : (Expr.binary a op l r).waiting = max l.waiting (r.waiting + 1) := by
  cases op <;> first | rfl | exact absurd rfl hand | exact absurd rfl hor

end Binary

/-! ### Lines -/

section Lines

variable {lines : List Line} {f : Frame} {s t : Processor} {x : String} {i k : Nat} {w : BitVec 16}

/-- The words of the frame are still there when the stack reaches further down. -/
theorem Frame.word?_under (hu : Under s t) (hk : f.offset? x = some k) (hframe : s.sp.toNat + k ≤ s.bp.toNat)
    (h : f.word? s x i = some w) : t.wordAt (t.bp - .ofNat 16 k + .ofNat 16 (2 * i)) = w := by
  rw [Frame.word?, hk, bind_some, ite_none_right_eq_some, some.injEq] at h
  obtain ⟨hend, rfl⟩ := h
  have hbp := s.bp.isLt
  have hplace : s.bp - .ofNat 16 k + .ofNat 16 (2 * i) = .ofNat 16 (s.bp.toNat - k + 2 * i) := by
    apply BitVec.eq_of_toNat_eq
    simp only [BitVec.toNat_add, BitVec.toNat_sub, BitVec.toNat_ofNat]
    omega
  rw [hu.bp, hplace]
  exact hu.wordAt (by omega) (by omega)

theorem index_gives (h : Stands lines s.pc (indexLines ++ [Line.mov (.reg .ax) (.element k)])) :
    Gives lines s (some (s.wordAt (s.bp - .ofNat 16 k + .ofNat 16 (2 * s.ax.toNat)))) (Left s (s.pc + 3)) := by
  refine gives_instr h rfl (gives_instr h.tail rfl (gives_instr h.tail.tail rfl (.here ?_)))
  refine .of_registers rfl rfl rfl ?_ rfl
  have hplace : s.bp + s.ax <<< 1 - .ofNat 16 k = s.bp - .ofNat 16 k + .ofNat 16 (2 * s.ax.toNat) := by
    apply BitVec.eq_of_toNat_eq
    simp only [BitVec.toNat_add, BitVec.toNat_sub, BitVec.toNat_ofNat, BitVec.toNat_shiftLeft]
    omega
  show s.wordAt (s.bp + s.ax <<< 1 - .ofNat 16 k) = _
  rw [hplace]

/-- **Lines compute the words of the frame.** From any state below `s` the lines of an expression leave in `ax` the
value that the expression has over the frame of `s`. -/
theorem Lowered.gives_wordIn (hnodup : (labels lines).Nodup)
    (hframe : ∀ x k, f.offset? x = some k → s.sp.toNat + k ≤ s.bp.toNat) {e : Expr Note} {code : List Line}
    (h : Lowered f e code) : ∀ (t : Processor) (w : BitVec 16), Under s t → Stands lines t.pc code →
      2 * e.waiting ≤ t.sp.toNat → wordIn f s e = some w → Gives lines t (some w) (Left t (t.pc + code.length)) := by
  induction h with
  | int a n =>
    rintro t w - ht - ⟨⟩
    exact gives_instr ht rfl (.here (.of_registers rfl rfl rfl rfl rfl))
  | bool a b =>
    rintro t w - ht - ⟨⟩
    refine gives_instr ht rfl (.here (.of_registers rfl rfl rfl ?_ rfl))
    cases b <;> rfl
  | @var a x k hk =>
    intro t w hu ht _ hw
    refine gives_instr ht rfl (.here (.of_registers rfl rfl rfl ?_ rfl))
    show t.wordAt (t.bp - .ofNat 16 k) = w
    simpa using Frame.word?_under hu hk (hframe x k hk) hw
  | @index a b x i c k hk hi ih =>
    intro t w hu ht hroom hw
    obtain ⟨name, n, rfl⟩ : ∃ name n, b = some (.array name n) := by
      unfold wordIn at hw
      split at hw <;> simp_all
    rw [wordIn] at hw
    obtain ⟨v, hv, hw⟩ := bind_eq_some_iff.1 hw
    rw [ite_none_right_eq_some] at hw
    refine gives_then (g := fun _ => some w) ht (ih t v hu ht.left hroom hv) fun v' u hv' hu' hstands => ?_
    obtain rfl := some.inj hv'
    have hword := Frame.word?_under (hu.trans hu'.toUnder) hk (hframe x k hk) hw.2
    rw [← hu'.ax] at hword
    rw [← hword]
    exact index_gives hstands
  | neg he ih =>
    intro t w hu ht hroom hw
    obtain ⟨v, hv, rfl⟩ := map_eq_some_iff.1 hw
    refine gives_then (g := fun v => some (-v)) ht (ih t v hu ht.left hroom hv) fun v' u _ hu' hstands => ?_
    rw [← hu'.ax]
    exact gives_instr hstands rfl (.here (.of_registers rfl rfl rfl rfl rfl))
  | not he ih =>
    intro t w hu ht hroom hw
    obtain ⟨v, hv, rfl⟩ := map_eq_some_iff.1 hw
    exact gives_then ht (ih t v hu ht.left hroom hv)
      fun v' u _ hu' => hu'.ax ▸ not_gives hnodup
  | @circuit a l r cl cr exit done d hl hr ihl ihr =>
    intro t w hu ht hroom hw
    have hwaiting : (Expr.binary a (if d then .or else .and) l r).waiting = max l.waiting r.waiting := by
      cases d <;> rfl
    rw [hwaiting] at hroom
    rw [wordIn_circuit] at hw
    obtain ⟨v, hv, hw⟩ := bind_eq_some_iff.1 hw
    refine gives_then (g := fun _ => some w) ht (ihl t v hu ht.left (by omega) hv) fun v' u hv' hu' hstands => ?_
    obtain rfl := some.inj hv'
    rw [← hw, ← hu'.ax]
    refine circuit_gives hnodup hstands fun hopen z hz hr' => ?_
    rw [hu'.ax] at hopen
    rw [if_neg hopen] at hw
    obtain ⟨b, hb, -⟩ := map_eq_some_iff.1 hw
    have hsp : z.sp.toNat = t.sp.toNat := by rw [hz.level, hu'.level]
    rw [hb]
    exact ihr z b ((hu.trans hu'.toUnder).trans hz.toUnder) hr' (by omega) hb
  | @apply a op l r cl cr c hl hr hc ihl ihr =>
    intro t w hu ht hroom hw
    rw [waiting_binary hc.ne.1 hc.ne.2] at hroom
    rw [wordIn_binary hc.ne.1 hc.ne.2] at hw
    obtain ⟨v, hv, hw⟩ := bind_eq_some_iff.1 hw
    obtain ⟨b, hb, hw⟩ := bind_eq_some_iff.1 hw
    refine gives_then (g := fun _ => some w) ht (ihl t v hu ht.left (by omega) hv) fun v' u hv' hu' hstands => ?_
    obtain rfl := some.inj hv'
    have hsp : u.sp.toNat = t.sp.toNat := by rw [hu'.level]
    rw [← wordOp_of_signedOp hw, ← hu'.ax]
    refine apply_gives (r := some b) hnodup hc hstands (by omega) fun z hz hsp' hr' => ?_
    exact ihr z b ((hu.trans hu'.toUnder).trans hz) hr' (by omega) hb

end Lines

/-! ### Frames of functions -/

namespace Frame

/-- No variable has its place below the frame. -/
def Bounded (f : Frame) : Prop := ∀ x k, f.offset? x = some k → k ≤ f.size

theorem Bounded.add {f : Frame} (h : f.Bounded) (y : String) (bytes : Nat) : (f.add y bytes).Bounded := by
  intro x k hk
  unfold Frame.add at hk ⊢
  split at hk
  · rw [if_pos ‹_›]
    exact h x k hk
  · rw [if_neg ‹_›]
    rw [offset?, List.lookup_append, or_eq_some_iff] at hk
    rcases hk with hk | ⟨-, hk⟩
    · exact Nat.le_trans (h x k hk) (Nat.le_add_right _ _)
    · have hmem := mem_of_lookup hk
      simp only [List.mem_singleton, Prod.mk.injEq] at hmem
      exact Nat.le_of_eq hmem.2

theorem bounded_addStmts {α : Type} (ss : List (Stmt α)) : ∀ {f : Frame}, f.Bounded → (f.addStmts ss).Bounded := by
  induction ss using Stmt.parts_induction (P := fun s => ∀ f : Frame, f.Bounded → (f.addStmt s).Bounded) with
  | nil => exact fun h => h
  | cons s ss ihs ih => exact fun h => ih (ihs _ h)
  | decl x t init f h => exact h.add x (declaredBytes t)
  | cond test yes no ihy ihn f h => exact ihn (ihy h)
  | condThen test body ihb f h | loop test body ihb f h | block body ihb f h => exact ihb h
  | _ => assumption

/-- Where the frame of a function ends at or above the stack pointer, its variables have their places there. -/
theorem place_ofFunction {α : Type} {fn : Function α} {s : Processor}
    (hframe : s.sp.toNat + (ofFunction fn).size ≤ s.bp.toNat) (x : String) (k : Nat)
    (hk : (ofFunction fn).offset? x = some k) : s.sp.toNat + k ≤ s.bp.toNat := by
  have hbounded : (ofFunction fn).Bounded := bounded_addStmts fn.body fun x k hk => by cases hk
  have hle := hbounded x k hk
  omega

end Frame

/-- **The value of an expression in `ax`.** If an expression without strings has a value over the words of the frame,
and there is room on the stack for the operands that wait, its lines leave the value in `ax`, with the frame base, the
stack pointer and memory from the stack pointer on as they were. -/
theorem expression_in_ax {table : Signatures} {scope : Scope} {e : Expr Note} {t : Ty} (ht : HasType table scope e t)
    (he : e.isWord = true) {α : Type} (fn : Function α)
    (hlocal : ∀ x ∈ e.vars, ((Frame.ofFunction fn).offset? x).isSome = true) {s : Processor} (hpc : s.pc = 0)
    (hframe : s.sp.toNat + (Frame.ofFunction fn).size ≤ s.bp.toNat) (hroom : 2 * e.waiting ≤ s.sp.toNat)
    {w : BitVec 16} (hw : wordIn (Frame.ofFunction fn) s e = some w) (pool : Pool) :
    ∃ lines pool' u, exprLines (Frame.ofFunction fn) e pool = .ok (lines, pool') ∧ Processor.Runs lines s u ∧
      u.pc = lines.length ∧ u.ax = w ∧ u.bp = s.bp ∧ u.sp = s.sp ∧
      ∀ a : BitVec 16, s.sp.toNat ≤ a.toNat → u.memory a = s.memory a := by
  obtain ⟨lines, pool', hlines, hlow, hnum⟩ := exists_lowered ht he hlocal pool
  have hstands : Stands lines s.pc lines := by
    rw [hpc]
    exact List.prefix_refl lines
  obtain ⟨u, hrun, hu⟩ := hlow.gives_wordIn hnum.nodup (Frame.place_ofFunction hframe) s w (.refl s) hstands hroom hw
  refine ⟨lines, pool', u, hlines, hrun, ?_, hu.ax, hu.bp, hu.level, hu.memory⟩
  rw [hu.pc, hpc, Nat.zero_add]

section Crossing

/-- `let a: int[3]; let x: int;` -/
def crossing : Function Note where
  name := "main"
  params := []
  returnType := some "int"
  body := [.decl "a" (some "int[3]") none, .decl "x" (some "int") none]

/-- `-a[x] < a[x - 1] * 3 && !(x == 2)` -/
def crossingTest : Expr Note :=
  let x := .var (some .int) "x"
  let a := .var (some (.array "int[3]" 3)) "a"
  .binary (some .bool) .and
    (.binary (some .bool) .lt (.unary (some .int) .neg (.index (some .int) a x))
      (.binary (some .int) .mul (.index (some .int) a (.binary (some .int) .sub x (.lit (some .int) (.int 1))))
        (.lit (some .int) (.int 3))))
    (.unary (some .bool) .not (.binary (some .bool) .eq x (.lit (some .int) (.int 2))))

/-- The frame base is 100. `x` is 1 and stands at 92, where the stack begins; above it stand -1, 5 and 0. -/
def crossingState : Processor :=
  { bp := 100, sp := 92
    memory := fun a => if a = 92 then 1 else if a = 94 ∨ a = 95 then 255 else if a = 96 then 5 else 0 }

theorem crossingTest_in_ax : (Frame.ofFunction crossing).size = 8 ∧
    wordIn (Frame.ofFunction crossing) crossingState crossingTest = some 1 ∧
    ∃ lines pool' u, exprLines (Frame.ofFunction crossing) crossingTest {} = .ok (lines, pool') ∧
      Processor.Runs lines crossingState u ∧ u.pc = lines.length ∧ u.ax = 1 ∧ u.bp = 100 ∧ u.sp = 92 ∧
      ∀ a : BitVec 16, 92 ≤ a.toNat → u.memory a = crossingState.memory a := by
  have hframe : Frame.ofFunction crossing = { offsets := [("a", 6), ("x", 8)], size := 8 } := by decide
  have htype : HasType [] [[("a", .array "int[3]" 3), ("x", .int)]] crossingTest .bool :=
    .binary (.binary (.unary (.index (.var rfl) rfl (.var rfl)) rfl)
      (.binary (.index (.var rfl) rfl (.binary (.var rfl) (.lit (.int 1)) rfl)) (.lit (.int 3)) rfl) rfl)
      (.unary (.binary (.var rfl) (.lit (.int 2)) rfl) rfl) rfl
  have hvalue : wordIn (.ofFunction crossing) crossingState crossingTest = some 1 := by
    rw [hframe]
    decide
  have hlocal : ∀ x ∈ crossingTest.vars, ((Frame.ofFunction crossing).offset? x).isSome = true := by
    rw [hframe]
    decide
  refine ⟨by rw [hframe], hvalue, ?_⟩
  exact expression_in_ax htype rfl crossing hlocal rfl (by decide) (by decide) hvalue {}

end Crossing

section Crowded

/-- `let x: int;` -/
def crowded : Function Note where
  name := "main"
  params := []
  returnType := some "int"
  body := [.decl "x" (some "int") none]

/-- `1 + (2 + x)` -/
def crowdedSum : Expr Note :=
  .binary (some .int) .add (.lit (some .int) (.int 1))
    (.binary (some .int) .add (.lit (some .int) (.int 2)) (.var (some .int) "x"))

/-- The frame base is 65534, `x` is 7 and stands at 65532, and the stack has come down to 0. -/
def crowdedState : Processor :=
  { bp := 65534, sp := 0, memory := fun a => if a = 65532 then 7 else 0 }

def crowdedLines : List Line :=
  [.movAx 1, .one .push .ax, .movAx 2, .one .push .ax, .mov (.reg .ax) (.local 2), .one .pop .bx, .two .add .ax .bx,
    .one .pop .bx, .two .add .ax .bx]

theorem runs_end_unique {lines : List Line} {s u v : Processor} (hu : Processor.Runs lines s u)
    (hv : Processor.Runs lines s v) (hup : u.pc = lines.length) (hvp : v.pc = lines.length) : v = u := by
  have hdone : ∀ {a b : Processor}, a.pc = lines.length → Processor.Runs lines a b → b = a := by
    intro a b ha hab
    rcases hab.cases_head with rfl | ⟨c, hac, -⟩
    · rfl
    · rw [Processor.step, List.getElem?_eq_none (Nat.le_of_eq ha.symm)] at hac
      cases hac
  have hunique : Relator.RightUnique fun s t => Processor.step lines s = .next t :=
    fun a b c hb hc => Outcome.next.inj (hb.symm.trans hc)
  rcases Relation.ReflTransGen.total_of_right_unique hunique hu hv with huv | hvu
  · exact hdone hup huv
  · exact (hdone hvp hvu).symm

/-- The operands that wait at the other end of memory take the place of `x`, which is read as 2: the sum comes out as 5
where it is 10, and memory above the stack pointer has changed. -/
theorem crowded_overwritten : HasType [] [[("x", .int)]] crowdedSum .int ∧ crowdedSum.isWord = true ∧
    (∀ x ∈ crowdedSum.vars, ((Frame.ofFunction crowded).offset? x).isSome = true) ∧
    crowdedState.sp.toNat + (Frame.ofFunction crowded).size ≤ crowdedState.bp.toNat ∧
    wordIn (Frame.ofFunction crowded) crowdedState crowdedSum = some 10 ∧
    exprLines (Frame.ofFunction crowded) crowdedSum {} = .ok (crowdedLines, {}) ∧
    ∃ u, Processor.Runs crowdedLines crowdedState u ∧ u.pc = crowdedLines.length ∧ u.ax = 5 ∧
      crowdedState.memory 65534 = 0 ∧ u.memory 65534 = 1 ∧
      ∀ v, Processor.Runs crowdedLines crowdedState v → v.pc = crowdedLines.length → v = u := by
  have hframe : Frame.ofFunction crowded = { offsets := [("x", 2)], size := 2 } := by decide
  rw [hframe]
  refine ⟨.binary (.lit (.int 1)) (.binary (.lit (.int 2)) (.var rfl) rfl) rfl, rfl, by decide, by decide, by decide,
    rfl, ?_⟩
  have hrun : Processor.Runs crowdedLines crowdedState _ := .head rfl (.head rfl (.head rfl (.head rfl (.head rfl
    (.head rfl (.head rfl (.head rfl (.head rfl .refl))))))))
  exact ⟨_, hrun, rfl, by decide, by decide, by decide, fun v hv => runs_end_unique hrun hv rfl⟩

end Crowded

end Assembly

end Workbench
