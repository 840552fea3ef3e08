import Workbench.Proofs.RegisterUse

/-!
# Equality without a branch

`ct_eq(x, y)` is to be one where `x` and `y` are equal and zero where they are not. The processor folds the bits in which
the words differ into one byte (`fold`), takes the sign of its negation and turns it around. The sign is set for a byte
from 1 up to 128 only, so words whose fold is greater count as equal (`equality_by_fold`).
-/

namespace Workbench.Assembly

open Processor (Gives)
open Typing (Note Signatures Scope HasType)

/-- The bits in which two words differ, those of the upper byte on top of those of the lower one. -/
def fold (a b : BitVec 16) : BitVec 8 := low (a ^^^ b) ||| high (a ^^^ b)

theorem fold_eq_zero {a b : BitVec 16} : fold a b = 0 ↔ a = b := by
  show _ = 0#8 ↔ _
  rw [fold, BitVec.or_eq_zero_iff]
  constructor
  · rintro ⟨hlow, hhigh⟩
    have hxor := high_append_low (a ^^^ b)
    rw [hlow, hhigh] at hxor
    exact BitVec.xor_eq_zero_iff.1 hxor.symm
  · rintro rfl
    rw [BitVec.xor_self]
    decide

/-- Words count as equal if their fold is zero or greater than 128. -/
def countEqual (a b : BitVec 16) : Bool := fold a b = 0 ∨ 128 < (fold a b).toNat

theorem sign_of_neg : ∀ v : BitVec 8, (0 : BitVec 8) ++ ((-v) >>> 7 &&& 1 ^^^ 1) = truth (v = 0 ∨ 128 < v.toNat) := by
  decide

theorem truth_inj {a b : Bool} : truth a = truth b ↔ a = b := by
  cases a <;> cases b <;> decide

/-- `t` comes after `s` when the lines before `k` have left `v` in the lower byte of `ax`. -/
structure LowLeft (s : Processor) (k : Nat) (v : BitVec 8) (t : Processor) : Prop where
  al : low t.ax = v
  bp : t.bp = s.bp
  sp : t.sp = s.sp
  memory : t.memory = s.memory
  pc : t.pc = k

section Lines

variable {lines rest : List Line} {s : Processor}

theorem fold_gives (h : Stands lines s.pc (.two .xor .ax .bx :: .movR .cx .ax :: .twoImm .shr .cx 8 :: .two .or .al .cl ::
    rest)) : Gives lines s (some (fold s.bx s.ax)) (LowLeft s (s.pc + 4)) := by
  refine gives_instr h rfl (gives_instr h.tail rfl (gives_instr h.tail.tail rfl (gives_instr h.tail.tail.tail rfl
    (.here ⟨?_, rfl, rfl, rfl, rfl⟩))))
  show low (high (s.ax ^^^ s.bx) ++ (low (s.ax ^^^ s.bx) ||| low ((s.ax ^^^ s.bx) >>> 8))) = _
  rw [low_append, low_shift, fold, BitVec.xor_comm]

theorem execute_shift (lines : List Line) {t : Processor} (hcl : low t.cx = 7) : ∃ flags,
    Processor.execute lines t (.two .shr (.reg .al) (.reg .cl)) =
      .next { t with ax := high t.ax ++ low t.ax >>> 7, flags := flags } := by
  have hcount : t.count? (.reg .cl) = some 7 := by
    show (if (low t.cx).toNat < 32 then some (low t.cx).toNat else none) = some 7
    rw [hcl]
    rfl
  refine ⟨.ofResult (low t.ax >>> 7) none none, ?_⟩
  show Outcome.ofOption ((t.count? (.reg .cl)).bind fun n => _) = _
  rw [hcount]
  rfl

theorem sign_gives (h : Stands lines s.pc (.one .neg .al :: .twoImm .mov .cl 7 :: .two .shr .al .cl :: rest)) :
    Gives lines s (some ((-low s.ax) >>> 7)) (LowLeft s (s.pc + 3)) := by
  obtain ⟨flags, hshift⟩ := execute_shift lines (t := { s with
    ax := high s.ax ++ -low s.ax, cx := high s.cx ++ (7 : BitVec 8), pc := s.pc + 1 + 1 + 1
    flags := .arithmetic (-low s.ax) (-(low s.ax).toNat) (-(low s.ax).toInt) }) (low_append _ _)
  refine gives_instr h rfl (gives_instr h.tail rfl (gives_instr h.tail.tail hshift (.here ⟨?_, rfl, rfl, rfl, rfl⟩)))
  show low (high (high s.ax ++ -low s.ax) ++ low (high s.ax ++ -low s.ax) >>> 7) = _
  rw [low_append, low_append]

theorem bit_gives (h : Stands lines s.pc [.twoImm .and .al 1, .twoImm .xor .al 1, .twoImm .mov .ah 0]) :
    Gives lines s (some ((0 : BitVec 8) ++ (low s.ax &&& 1 ^^^ 1))) (Left s (s.pc + 3)) := by
  refine gives_instr h rfl (gives_instr h.tail rfl (gives_instr h.tail.tail rfl (.here (.of_registers rfl rfl rfl ?_ rfl))))
  show 0 ++ low (high (high s.ax ++ (low s.ax &&& 1#8)) ++ (low (high s.ax ++ (low s.ax &&& 1#8)) ^^^ 1#8)) =
    0 ++ (low s.ax &&& 1#8 ^^^ 1#8)
  rw [low_append, low_append]

/-- **The fold decides**: what is left in `ax` is a truth about the fold of the two words. -/
theorem equalLines_gives (h : Stands lines s.pc equalLines) :
    Gives lines s (some (truth (countEqual s.bx s.ax))) (Left s (s.pc + 10)) := by
  have hvalue : some (truth (countEqual s.bx s.ax)) = (some (fold s.bx s.ax)).bind fun v =>
      (some ((-v) >>> 7)).bind fun w => some ((0 : BitVec 8) ++ (w &&& 1 ^^^ 1)) := by
    rw [Option.bind_some, Option.bind_some, sign_of_neg, countEqual]
  rw [hvalue]
  refine (fold_gives h).bind fun v t ht => ?_
  have hsign : Stands lines t.pc (equalLines.drop 4) := by
    rw [ht.pc]
    exact h.tail.tail.tail.tail
  rw [← ht.al]
  refine (sign_gives hsign).bind fun w u hu => ?_
  have hbit : Stands lines u.pc (equalLines.drop 7) := by
    rw [hu.pc]
    exact hsign.tail.tail.tail
  rw [← hu.al]
  refine (bit_gives hbit).mono fun w v hv => ?_
  rw [hu.pc, ht.pc] at hv
  exact hv.after (hu.bp.trans ht.bp) (hu.sp.trans ht.sp) fun a _ => by rw [hu.memory, ht.memory]

end Lines

/-! ### The lines of an equality -/

section Equality

variable {f : Frame} {s : Processor} {x y : Expr Note} {p q : Effect} {cx cy : List Line}

def equalityCode (cx cy : List Line) : List Line := cx ++ Line.one .push .ax :: (cy ++ Line.one .pop .bx :: equalLines)

theorem exprLines_equality (hx : Computes f s x p cx) (hy : Computes f s y q cy) (note : Note) (pool : Pool) :
    exprLines f (.call note "ct_eq" [x, y]) pool = .ok (equalityCode cx cy, pool) := by
  rw [exprLines]
  simp only [bind, StateT.bind, hx.lines, hy.lines]
  change Except.ok (_, pool) = Except.ok (_, pool)
  simp [equalityCode]

theorem equality_gives {lines : List Line} (hx : Computes f s x p cx) (hy : Computes f s y q cy)
    (h : Stands lines s.pc (equalityCode cx cy)) (hroom : 2 * x.stacked ≤ s.sp.toNat)
    (hroom' : 2 * (y.stacked + 1) ≤ s.sp.toNat) :
    Gives lines s (some (truth (countEqual p.ax q.ax))) (Left s (s.pc + (equalityCode cx cy).length)) := by
  have hfirst : Gives lines s (some p.ax) (Left s (s.pc + cx.length)) := by
    obtain ⟨t, hrun, ht⟩ := hx.runs (.refl s) h.left hroom
    exact ⟨t, hrun, ht.toLeft⟩
  refine gives_then (g := fun a => some (truth (countEqual a q.ax))) h hfirst fun a t _ ht hrest => ?_
  have hsp : t.sp.toNat = s.sp.toNat := by rw [ht.level]
  rw [← ht.ax]
  refine gives_kept (r := some q.ax) (g := fun b => some (truth (countEqual t.ax b))) hrest (by omega) ?_ ?_
  · intro u hu husp hright
    obtain ⟨v, hrun, hv⟩ := hy.runs (ht.toUnder.trans hu) hright (by omega)
    exact ⟨v, hrun, hv.toLeft⟩
  · intro u hu husp hkept hpc hpop
    have hlevel : u.sp + 2 = t.sp := by bv_omega
    refine gives_instr (t := { u with sp := u.sp + 2, bx := u.wordAt u.sp, pc := u.pc + 1 }) hpop rfl ?_
    rw [← hkept]
    refine (equalLines_gives hpop.tail).mono fun w v hv => ?_
    have hlength : t.pc + (.one .push .ax :: (cy ++ Line.one .pop .bx :: equalLines) : List Line).length =
        u.pc + 1 + 10 := by
      simp only [hpc, List.length_cons, List.length_append, List.length_nil, equalLines]
      omega
    rw [hlength]
    exact hv.after hu.bp hlevel hu.memory

end Equality

/-- **Equality by the fold.** Where there is room on the stack, the lines of `ct_eq` over two numbers without calls
leave a truth in `ax` and change nothing from the stack pointer on. It is one if the words are equal, and also if they
differ and their fold is greater than 128. -/
theorem equality_by_fold {table : Signatures} {scope : Scope} {x y : Expr Note} (hx : HasType table scope x .int)
    (hy : HasType table scope y .int) {f : Frame} {s : Processor} (hpc : s.pc = 0) {p q : Effect}
    (hp : effect f s x = some p) (hq : effect f s y = some q)
    (hroom : 2 * x.stacked ≤ s.sp.toNat ∧ 2 * (y.stacked + 1) ≤ s.sp.toNat) (note : Note) (pool : Pool) :
    ∃ lines u, exprLines f (.call note "ct_eq" [x, y]) pool = .ok (lines, pool) ∧ Processor.Runs lines s u ∧
      Left s lines.length (truth (p.ax = q.ax ∨ 128 < (fold p.ax q.ax).toNat)) u ∧
      (u.ax = truth (p.ax = q.ax) ↔ p.ax = q.ax ∨ (fold p.ax q.ax).toNat ≤ 128) ∧
      (∀ w, wordIn f s x = some w → p.ax = w) ∧ ∀ w, wordIn f s y = some w → q.ax = w := by
  obtain ⟨cx, hcx⟩ := exists_computes hx hp
  obtain ⟨cy, hcy⟩ := exists_computes hy hq
  obtain ⟨u, hrun, hu⟩ := equality_gives hcx hcy (.self hpc) hroom.1 hroom.2
  have hequal : countEqual p.ax q.ax = decide (p.ax = q.ax ∨ 128 < (fold p.ax q.ax).toNat) :=
    decide_eq_decide.2 (or_congr_left fold_eq_zero)
  rw [hpc, Nat.zero_add] at hu
  rw [hequal] at hu
  refine ⟨_, u, exprLines_equality hcx hcy note pool, hrun, hu, ?_, fun w => effect_ax hp, fun w => effect_ax hq⟩
  rw [hu.ax, truth_inj, decide_eq_decide, ← Nat.not_lt]
  tauto

section Doubled

def doubled : Expr Note := .binary (some .int) .mul (.var (some .int) "x") (.lit (some .int) (.int 2))

/-- `15` -/
def fifteen : Expr Note := .lit (some .int) (.int 15)

def oneWord : Frame := { offsets := [("x", 2)], size := 2 }

/-- The frame base is 100, and `x` is 7. -/
def doubledState : Processor :=
  { bp := 100, sp := 98, memory := fun a => if a = 98 then 7 else 0 }

theorem doubled_unequal : effect oneWord doubledState doubled = some { ax := 14, bx := some 7, dx := some 0 } ∧
    effect oneWord doubledState fifteen = some { ax := 15 } ∧
    ∃ lines u, exprLines oneWord (.call (some .bool) "ct_eq" [doubled, fifteen]) {} = .ok (lines, {}) ∧
      Processor.Runs lines doubledState u ∧ u.pc = lines.length ∧ u.ax = 0 ∧ u.sp = 98 := by
  have hdoubled : effect oneWord doubledState doubled = some { ax := 14, bx := some 7, dx := some 0 } := by decide
  have hfifteen : effect oneWord doubledState fifteen = some { ax := 15 } := by decide
  have htype : HasType [] [[("x", .int)]] doubled .int := .binary (.var rfl) (.lit (.int 2)) rfl
  obtain ⟨lines, u, hlines, hrun, hu, -⟩ :=
    equality_by_fold htype (.lit (.int 15)) rfl hdoubled hfifteen (by decide) (some .bool) {}
  exact ⟨hdoubled, hfifteen, lines, u, hlines, hrun, hu.pc, hu.ax, hu.level⟩

end Doubled

section Unequal

def unequal : Expr Note := .call (some .bool) "ct_eq" [.lit (some .int) (.int 129), .lit (some .int) (.int 0)]

def unequalLines : List Line := equalityCode [.movAx 129] [.movAx 0]

/-- 129 and 0 count as equal: their fold is 129, and the negation of this byte has no sign. -/
theorem unequal_counted_equal : HasType (Signatures.withBuiltins []) [] unequal .bool ∧
    (∀ f pool, exprLines f unequal pool = .ok (unequalLines, pool)) ∧
    ∀ s : Processor, s.pc = 0 → 2 ≤ s.sp.toNat →
      ∃ u, Processor.Runs unequalLines s u ∧ u.pc = unequalLines.length ∧ u.ax = 1 := by
  have hnumber : ∀ f s n, Computes f s (.lit (some .int) (.int n)) { ax := .ofInt 16 n } [.movAx n] :=
    fun f s n => computes_line (fun _ => rfl) fun lines t _ => ⟨t.flags, rfl⟩
  refine ⟨?_, fun f pool => ?_, fun s hpc hroom => ?_⟩
  · have hsignature : (Signatures.withBuiltins []).lookup "ct_eq" = some ⟨[.int, .int], .bool⟩ := rfl
    refine .call (by decide) (by decide) hsignature rfl ?_
    rintro a t (_ | ⟨_, _ | ⟨_, ⟨⟩⟩⟩)
    · exact .lit (.int 129)
    · exact .lit (.int 0)
  · exact exprLines_equality (s := ⟨0, 0, 0, 0, 0, 0, 0, 0, {}, fun _ => 0, 0⟩) (hnumber f _ 129) (hnumber f _ 0) _ pool
  · obtain ⟨u, hrun, hu⟩ := equality_gives (hnumber {} s 129) (hnumber {} s 0) (.self hpc) (Nat.zero_le _) hroom
    rw [hpc, Nat.zero_add] at hu
    exact ⟨u, hrun, hu.pc, hu.ax⟩

end Unequal

end Workbench.Assembly
