import Workbench.Program.Walk
import Workbench.Proofs.FrameWords

/-!
# The registers that an expression uses

The lines of a number or an address leave the value in `ax`, and on the way they use other registers: `bx` for the left
operand of an operator, `dx` for the other half of a product or the rest of a division, `si` for the offset of an
element. What they leave there is the `effect` of the expression, and the other registers stay as they are
(`exists_computes`). A register that no part of an expression needs is left alone (`effect_usedBy`).
-/

open List

open Option

namespace Workbench

open Typing (Note Signatures Scope HasType)

/-- How many words the lines of a number or an address keep on the stack at a time. -/
def Expr.stacked {α : Type} : Expr α → Nat
  | .unary _ _ e | .index _ _ e | .addr _ (.index _ _ e) => e.stacked
  | .binary _ _ l r => max l.stacked (r.stacked + 1)
  | _ => 0

/-- An operator on two operands. -/
def Expr.isOperation {α : Type} : Expr α → Bool
  | .binary .. => true
  | _ => false

def Expr.isProduct {α : Type} : Expr α → Bool
  | .binary _ .mul _ _ | .binary _ .div _ _ => true
  | _ => false

def Expr.isElement {α : Type} : Expr α → Bool
  | .index .. => true
  | _ => false

namespace Assembly

open Processor (Gives)

/-! ### Effects -/

/-- What lines leave in the registers; one that they do not write has no value here. -/
structure Effect where
  ax : BitVec 16
  bx : Option (BitVec 16) := none
  dx : Option (BitVec 16) := none
  si : Option (BitVec 16) := none
  deriving DecidableEq, Repr

def Effect.after (q p : Effect) : Effect where
  ax := q.ax
  bx := q.bx.or p.bx
  dx := q.dx.or p.dx
  si := q.si.or p.si

/-- The word at an address, if it stands at or above the stack pointer and ends before memory does. -/
def Processor.read? (s : Processor) (a : BitVec 16) : Option (BitVec 16) :=
  if s.sp.toNat ≤ a.toNat ∧ a.toNat < 65535 then some (s.wordAt a) else none

/-- The offset of an element into the words of an array. -/
def scaled (i : BitVec 16) : BitVec 16 := i <<< 1

/-- The address of the element `i` of the array that has its place at `k`. -/
def Processor.elementAt (s : Processor) (k : Nat) (i : BitVec 16) : BitVec 16 := s.bp + scaled i - .ofNat 16 k

theorem Processor.elementAt_eq (s : Processor) (k : Nat) (i : BitVec 16) :
    s.elementAt k i = s.bp - .ofNat 16 k + .ofNat 16 (2 * i.toNat) := by
  apply BitVec.eq_of_toNat_eq
  simp only [Processor.elementAt, scaled, BitVec.toNat_add, BitVec.toNat_sub, BitVec.toNat_ofNat, BitVec.toNat_shiftLeft]
  omega

/-- What an operator leaves in the registers, from the values of its left and its right operand. -/
def operatorEffect (a b : BitVec 16) : BinaryOp → Option Effect
  | .add => some { ax := a + b, bx := some a }
  | .sub => some { ax := a - b, bx := some (a - b) }
  | .mul => some { ax := a * b, bx := some a, dx := some (.ofInt 16 (b.toInt * a.toInt / 65536)) }
  | .div => (wordOp a b .div).map fun w => { ax := w, bx := some a, dx := some (.ofInt 16 (b.toInt.tmod a.toInt)) }
  | _ => none

/-- What the lines of a number or an address leave in the registers. There is none if a division fails, or if a word is
not in the part of memory that is in use. -/
def effect (f : Frame) (s : Processor) : Expr Note → Option Effect
  | .lit _ (.int n) => some { ax := .ofInt 16 n }
  | .var _ x => match f.offset? x with
    | some k => (s.read? (s.bp - .ofNat 16 k)).map fun w => { ax := w }
    | none => some { ax := 0 }
  | .addr _ (.var _ x) => match f.offset? x with
    | some k => some { ax := s.bp - .ofNat 16 k }
    | none => some { ax := 0 }
  | .addr _ (.index _ a i) => match f.varOffset? a with
    | some k => (effect f s i).map fun r =>
      Effect.after { ax := s.elementAt k r.ax, si := some (scaled r.ax) } r
    | none => some { ax := 0 }
  | .index _ a i => match f.varOffset? a with
    | some k => (effect f s i).bind fun r => (s.read? (s.elementAt k r.ax)).map fun w =>
      Effect.after { ax := w, si := some (scaled r.ax) } r
    | none => some { ax := 0 }
  | .unary _ .neg e => (effect f s e).map fun r => Effect.after { ax := -r.ax } r
  | .binary _ op l r => (effect f s l).bind fun p => (effect f s r).bind fun q =>
    (operatorEffect p.ax q.ax op).map fun z => z.after (q.after p)
  | _ => none

/-- `t` comes after `s` when the lines before `k` have had the effect `r`. -/
structure Evaluated (s : Processor) (k : Nat) (r : Effect) (t : Processor) : Prop extends Left s k r.ax t where
  bx : t.bx = r.bx.getD s.bx
  cx : t.cx = s.cx
  dx : t.dx = r.dx.getD s.dx
  si : t.si = r.si.getD s.si
  di : t.di = s.di

theorem Evaluated.trans {s t u : Processor} {k l : Nat} {p q : Effect} (h : Evaluated s k p t) (h' : Evaluated t l q u) :
    Evaluated s l (q.after p) u where
  toLeft := h'.toLeft.after h.bp h.level h.memory
  bx := by rw [h'.bx, h.bx, Effect.after, getD_or]
  cx := h'.cx.trans h.cx
  dx := by rw [h'.dx, h.dx, Effect.after, getD_or]
  si := by rw [h'.si, h.si, Effect.after, getD_or]
  di := h'.di.trans h.di

/-! ### Lines -/

section Lines

variable {lines c d : List Line} {s t : Processor} {p q z : Effect}

theorem evaluated_then (h : Stands lines s.pc (c ++ d)) (hc : Gives lines s (some p) (Evaluated s (s.pc + c.length)))
    (hd : ∀ t, Evaluated s (s.pc + c.length) p t → Stands lines t.pc d →
      Gives lines t (some q) (Evaluated t (t.pc + d.length))) :
    Gives lines s (some (q.after p)) (Evaluated s (s.pc + (c ++ d).length)) := by
  obtain ⟨t, hrun, ht⟩ := hc
  have hstands : Stands lines t.pc d := by
    rw [ht.pc]
    exact h.right
  obtain ⟨u, hrun', hu⟩ := hd t ht hstands
  rw [ht.pc, Nat.add_assoc, ← length_append] at hu
  exact ⟨u, hrun.trans hrun', ht.trans hu⟩

/-- A word on the stack stands below what was there, and is read back. -/
theorem under_push (hroom : 2 ≤ s.sp.toNat) :
    Under s (Processor.setWordAt { s with sp := s.sp - 2, pc := s.pc + 1 } (s.sp - 2) s.ax) := by
  refine ⟨rfl, ?_, fun a ha => ?_⟩
  · show (s.sp - 2).toNat ≤ s.sp.toNat
    bv_omega
  · exact Processor.memory_setWordAt _ _ (by bv_omega) (by bv_omega)

/-- The value in `ax` waits on the stack while other lines are carried out, and what follows finds it in `bx`. -/
theorem evaluated_kept {right : List Line} (h : Stands lines s.pc (.one .push .ax :: (right ++ Line.one .pop .bx :: c)))
    (hroom : 2 ≤ s.sp.toNat)
    (hright : ∀ t, Under s t → t.sp.toNat + 2 = s.sp.toNat → Stands lines t.pc right →
      Gives lines t (some q) (Evaluated t (t.pc + right.length)))
    (hc : ∀ u, u.ax = q.ax → u.bx = s.ax → Stands lines u.pc c → Gives lines u (some z) (Evaluated u (u.pc + c.length)))
    (hz : z.bx.isSome = true) :
    Gives lines s (some (z.after q))
      (Evaluated s (s.pc + (.one .push .ax :: (right ++ Line.one .pop .bx :: c) : List Line).length)) := by
  have hunder := under_push hroom
  have hlow : (s.sp - 2).toNat + 2 = s.sp.toNat := by bv_omega
  refine gives_instr h rfl ?_
  obtain ⟨u, hrun, hu⟩ := hright _ hunder hlow h.tail.left
  have hpc : u.pc = s.pc + 1 + right.length := hu.pc
  have hpop : Stands lines u.pc (.one .pop .bx :: c) := by
    rw [hpc]
    exact h.tail.right
  have hkept : u.wordAt u.sp = s.ax := by
    have hlt := s.sp.isLt
    have hsp : u.sp = s.sp - 2 := hu.level
    have hread := hu.toUnder.wordAt_of_le (Nat.le_refl (s.sp - 2).toNat) (by omega)
    rw [hsp]
    exact hread.trans (Processor.wordAt_setWordAt _ _ _)
  obtain ⟨v, hrun', hv⟩ := hc { u with sp := u.sp + 2, bx := u.wordAt u.sp, pc := u.pc + 1 } hu.ax hkept hpop.tail
  refine ⟨v, hrun.trans (.head ?_ hrun'), ?_⟩
  · rw [Processor.step, hpop.head]
    rfl
  have hlength : s.pc + (.one .push .ax :: (right ++ Line.one .pop .bx :: c) : List Line).length = u.pc + 1 + c.length := by
    simp only [hpc, length_cons, length_append]
    omega
  have hlevel : u.sp + 2 = s.sp := by
    rw [hu.level]
    show s.sp - 2 + 2 = s.sp
    bv_omega
  obtain ⟨b, hb⟩ := isSome_iff_exists.1 hz
  rw [hlength]
  exact {
    toLeft := hv.toLeft.after (hu.bp.trans hunder.bp) hlevel (hunder.trans hu.toUnder).memory
    bx := by rw [hv.bx, Effect.after, hb]; rfl
    cx := hv.cx.trans hu.cx
    dx := by rw [hv.dx, Effect.after, getD_or]; exact congrArg _ hu.dx
    si := by rw [hv.si, Effect.after, getD_or]; exact congrArg _ hu.si
    di := hv.di.trans hu.di }

theorem operator_evaluated {op : BinaryOp} (hc : Applied op c) (h : Stands lines s.pc c)
    (hz : operatorEffect s.bx s.ax op = some z) : Gives lines s (some z) (Evaluated s (s.pc + c.length)) := by
  cases hc with
  | add =>
    obtain rfl := some.inj hz
    exact gives_instr h rfl (.here ⟨.of_registers rfl rfl rfl (BitVec.add_comm _ _) rfl, rfl, rfl, rfl, rfl, rfl⟩)
  | sub =>
    obtain rfl := some.inj hz
    exact gives_instr h rfl (gives_instr h.tail rfl (.here ⟨.of_registers rfl rfl rfl rfl rfl, rfl, rfl, rfl, rfl, rfl⟩))
  | mul =>
    obtain rfl := some.inj hz
    refine gives_instr h rfl (.here ⟨.of_registers rfl rfl rfl ?_ rfl, rfl, rfl, rfl, rfl, rfl⟩)
    show BitVec.ofInt 16 (s.ax.toInt * s.bx.toInt) = s.bx * s.ax
    rw [BitVec.ofInt_mul, BitVec.ofInt_toInt, BitVec.ofInt_toInt, BitVec.mul_comm]
  | div =>
    obtain ⟨w, hw, rfl⟩ := map_eq_some_iff.1 hz
    obtain ⟨hok, hquotient⟩ := ite_none_left_eq_some.1 hw
    obtain rfl := some.inj hquotient
    have hdiv : Processor.step lines { s with pc := s.pc + 1, dx := if s.ax.msb then -1 else 0 } =
        Processor.idiv { s with pc := s.pc + 1 + 1, dx := if s.ax.msb then -1 else 0 } s.bx := by
      rw [Processor.step, h.tail.head]
      rfl
    rw [Processor.idiv] at hdiv
    simp only [toInt_of_sign] at hdiv
    rw [if_neg hok] at hdiv
    exact gives_instr h rfl (.step hdiv (.here ⟨.of_registers rfl rfl rfl rfl rfl, rfl, rfl, rfl, rfl, rfl⟩))
  | compare hj => cases op <;> cases hj <;> cases hz

end Lines

/-! ### Expressions -/

section Expressions

variable {f : Frame} {s : Processor} {e : Expr Note} {r : Effect} {k : Nat}

/-- `code` is the code of the expression, whatever was handed out before, and has the effect `r` below `s`. -/
structure Computes (f : Frame) (s : Processor) (e : Expr Note) (r : Effect) (code : List Line) : Prop where
  lines : ∀ pool, exprLines f e pool = .ok (code, pool)
  labels : labels code = []
  runs : ∀ {lines : List Line} {t : Processor}, Under s t → Stands lines t.pc code → 2 * e.stacked ≤ t.sp.toNat →
    Gives lines t (some r) (Evaluated t (t.pc + code.length))

theorem computes_line {i : Instr} {w : BitVec 16} (hlines : ∀ pool, exprLines f e pool = .ok ([.instr i], pool))
    (hi : ∀ lines t, Under s t → ∃ flags, Processor.execute lines t i = .next { t with ax := w, flags := flags }) :
    Computes f s e { ax := w } [.instr i] := by
  refine ⟨hlines, rfl, fun {lines t} hu ht _ => ?_⟩
  obtain ⟨flags, hflags⟩ := hi lines { t with pc := t.pc + 1 } ⟨hu.bp, hu.sp, hu.memory⟩
  exact gives_instr ht hflags (.here ⟨.of_registers rfl rfl rfl rfl rfl, rfl, rfl, rfl, rfl, rfl⟩)

theorem computes_zero (hlines : exprLines f e = pure [.zero]) : Computes f s e { ax := 0 } [.zero] := by
  refine computes_line (fun pool => by rw [hlines]; rfl) fun lines t _ => ⟨.logic (0 : BitVec 16), ?_⟩
  have hzero : t.ax ^^^ t.ax = 0 := BitVec.xor_self
  show Outcome.next { t with ax := t.ax ^^^ t.ax, flags := .logic (t.ax ^^^ t.ax) } = _
  rw [hzero]

theorem read?_under {t : Processor} {a w : BitVec 16} (hu : Under s t) (h : s.read? a = some w) : t.wordAt a = w := by
  rw [Processor.read?, ite_none_right_eq_some] at h
  rw [hu.wordAt_of_le h.1.1 h.1.2]
  exact some.inj h.2

/-- The lines of an index and one that uses it: `w` is what this one leaves in `ax`. -/
theorem computes_element {i : Expr Note} {ci : List Line} {j : Instr} {w : BitVec 16} (hi : Computes f s i r ci)
    (hlines : ∀ pool, exprLines f e pool = .ok (ci ++ (indexLines ++ [Line.instr j]), pool))
    (hstacked : e.stacked = i.stacked)
    (hj : ∀ lines t, Under s t → t.si = scaled r.ax → Processor.execute lines t j = .next { t with ax := w }) :
    Computes f s e (Effect.after { ax := w, si := some (scaled r.ax) } r) (ci ++ (indexLines ++ [Line.instr j])) := by
  refine ⟨hlines, ?_, fun {lines t} hu ht hroom => ?_⟩
  · rw [labels_append, hi.labels]
    rfl
  · refine evaluated_then ht (hi.runs hu ht.left (hstacked ▸ hroom)) fun u hu' hstands => ?_
    have hunder := hu.trans hu'.toUnder
    have hscaled : u.ax <<< 1 = scaled r.ax := by rw [hu'.ax, scaled]
    refine gives_instr hstands rfl (gives_instr hstands.tail rfl (gives_instr hstands.tail.tail
      (hj lines _ ⟨hunder.bp, hunder.sp, hunder.memory⟩ hscaled) (.here ?_)))
    exact ⟨.of_registers rfl rfl rfl rfl rfl, rfl, rfl, rfl, hscaled, rfl⟩

theorem computes_neg {a : Note} {c : List Line} (hc : Computes f s e r c) :
    Computes f s (.unary a .neg e) (Effect.after { ax := -r.ax } r) (c ++ [Line.one .neg .ax]) := by
  refine ⟨fun pool => exprLines_neg (hc.lines pool), ?_, fun {lines t} hu hstands hroom => ?_⟩
  · rw [labels_append, hc.labels]
    rfl
  · refine evaluated_then hstands (hc.runs hu hstands.left hroom) fun u hu' hneg => ?_
    refine gives_instr hneg rfl (.here ⟨.of_registers rfl rfl rfl ?_ rfl, rfl, rfl, rfl, rfl, rfl⟩)
    exact congrArg (-·) hu'.ax

section Operator

variable {op : BinaryOp} {a b : BitVec 16} {z : Effect}

theorem operatorEffect_bx (h : operatorEffect a b op = some z) : z.bx.isSome = true := by
  cases op with
  | add | sub | mul =>
    obtain rfl := some.inj h
    rfl
  | div =>
    obtain ⟨w, -, rfl⟩ := map_eq_some_iff.1 h
    rfl
  | _ => cases h

theorem exists_operator (h : operatorEffect a b op = some z) :
    ∃ c, Applied op c ∧ labels c = [] ∧ ∀ pool, arithmeticLines op pool = .ok (c, pool) := by
  cases op with
  | add => exact ⟨_, .add, rfl, fun _ => rfl⟩
  | sub => exact ⟨_, .sub, rfl, fun _ => rfl⟩
  | mul => exact ⟨_, .mul, rfl, fun _ => rfl⟩
  | div => exact ⟨_, .div, rfl, fun _ => rfl⟩
  | _ => cases h

/-- The lines of the left operand, those of the right one while the value of the left one waits, and those of the
operator. -/
theorem exists_computes_binary {n : Note} {x y : Expr Note} {p q : Effect} {cx cy : List Line} {t t' : Ty}
    (hx : Computes f s x p cx) (hy : Computes f s y q cy) (hz : operatorEffect p.ax q.ax op = some z)
    (ht : x.note = some t) (ht' : y.note = some t') :
    ∃ code, Computes f s (.binary n op x y) (z.after (q.after p)) code := by
  obtain ⟨c, happlied, hlabels, hc⟩ := exists_operator hz
  refine ⟨cx ++ .one .push .ax :: (cy ++ .one .pop .bx :: c), fun pool => ?_, ?_, fun {lines u} hu hstands hroom => ?_⟩
  · rw [exprLines_binary ht ht']
    cases op with
    | add | sub | mul | div => exact wordLines_eq (hx.lines pool) (hy.lines pool) (hc pool)
    | _ => cases hz
  · rw [labels_append, hx.labels]
    show labels (cy ++ .one .pop .bx :: c) = []
    rw [labels_append, hy.labels]
    exact hlabels
  · rw [Expr.stacked] at hroom
    have hafter : z.after (q.after p) = (z.after q).after p := by simp only [Effect.after, Option.or_assoc]
    rw [hafter]
    refine evaluated_then hstands (hx.runs hu hstands.left (by omega)) fun v hv hrest => ?_
    have hsp : v.sp.toNat = u.sp.toNat := by rw [hv.level]
    refine evaluated_kept hrest (by omega) (fun w hw hwsp hright => ?_) (fun w hax hbx hop => ?_) (operatorEffect_bx hz)
    · exact hy.runs ((hu.trans hv.toUnder).trans hw) hright (by omega)
    · exact operator_evaluated happlied hop (by rw [hax, hbx, hv.ax, hz])

end Operator

/-- An element that has a value is one of a variable. -/
theorem wordIn_index {a : Note} {x i : Expr Note} {w : BitVec 16} (h : wordIn f s (.index a x i) = some w) :
    ∃ b y v, x = .var b y ∧ wordIn f s i = some v ∧ f.word? s y v.toNat = some w := by
  unfold wordIn at h
  split at h
  case h_4 heq =>
    cases heq
    obtain ⟨v, hv, hw⟩ := bind_eq_some_iff.1 h
    exact ⟨_, _, v, rfl, hv, (ite_none_right_eq_some.1 hw).2⟩
  case h_10 => cases h
  all_goals rename_i heq; cases heq

/-- The effect of an expression, by the rule that it follows from. What has no place is zero, and has no value. -/
inductive Effects (f : Frame) (s : Processor) : Expr Note → Effect → Prop
  | int (a : Note) (n : Int) : Effects f s (.lit a (.int n)) { ax := .ofInt 16 n }
  | zero {e : Expr Note} (hlines : exprLines f e = pure [.zero]) (hword : wordIn f s e = none) :
      Effects f s e { ax := 0 }
  | var (a : Note) {x : String} {k : Nat} {w : BitVec 16} (hk : f.offset? x = some k)
      (hw : s.read? (s.bp - .ofNat 16 k) = some w) : Effects f s (.var a x) { ax := w }
  | addrVar (a b : Note) {x : String} {k : Nat} (hk : f.offset? x = some k) :
      Effects f s (.addr a (.var b x)) { ax := s.bp - .ofNat 16 k }
  | neg (a : Note) {e : Expr Note} {r : Effect} (h : Effects f s e r) :
      Effects f s (.unary a .neg e) (Effect.after { ax := -r.ax } r)
  | binary (a : Note) {op : BinaryOp} {x y : Expr Note} {p q z : Effect} (hx : Effects f s x p) (hy : Effects f s y q)
      (hz : operatorEffect p.ax q.ax op = some z) : Effects f s (.binary a op x y) (z.after (q.after p))
  | index (a : Note) {x i : Expr Note} {k : Nat} {r : Effect} {w : BitVec 16} (hk : f.varOffset? x = some k)
      (hi : Effects f s i r) (hw : s.read? (s.elementAt k r.ax) = some w) :
      Effects f s (.index a x i) (Effect.after { ax := w, si := some (scaled r.ax) } r)
  | addrIndex (a b : Note) {x i : Expr Note} {k : Nat} {r : Effect} (hk : f.varOffset? x = some k)
      (hi : Effects f s i r) :
      Effects f s (.addr a (.index b x i)) (Effect.after { ax := s.elementAt k r.ax, si := some (scaled r.ax) } r)

theorem effects_of_effect (e : Expr Note) : ∀ {r : Effect}, effect f s e = some r → Effects f s e r := by
  induction e using Expr.induction with
  | lit a v =>
    intro r hr
    cases v with
    | int n =>
      obtain rfl := some.inj hr
      exact .int a n
    | bool | str | none => cases hr
  | var a x =>
    intro r hr
    rw [effect] at hr
    split at hr
    · obtain ⟨w, hw, rfl⟩ := map_eq_some_iff.1 hr
      exact .var a ‹_› hw
    · obtain rfl := some.inj hr
      exact .zero (by rw [exprLines, ‹f.offset? x = none›]) (by rw [wordIn, Frame.word?, ‹f.offset? x = none›]; rfl)
  | addrVar a b x =>
    intro r hr
    rw [effect] at hr
    split at hr <;> obtain rfl := some.inj hr
    · exact .addrVar a b ‹_›
    · exact .zero (by rw [exprLines, ‹f.offset? x = none›]) rfl
  | unary a op e ih =>
    intro r hr
    cases op with
    | not | other => cases hr
    | neg =>
      obtain ⟨p, hp, rfl⟩ := map_eq_some_iff.1 hr
      exact .neg a (ih hp)
  | binary a op l r ihl ihr =>
    intro z hz
    rw [effect] at hz
    obtain ⟨p, hp, hz⟩ := bind_eq_some_iff.1 hz
    obtain ⟨q, hq, hz⟩ := bind_eq_some_iff.1 hz
    obtain ⟨o, ho, rfl⟩ := map_eq_some_iff.1 hz
    exact .binary a (ihl hp) (ihr hq) ho
  | index a x i _ ih =>
    intro r hr
    rw [effect] at hr
    split at hr
    · obtain ⟨p, hp, hr⟩ := bind_eq_some_iff.1 hr
      obtain ⟨w, hw, rfl⟩ := map_eq_some_iff.1 hr
      exact .index a ‹_› (ih hp) hw
    · rename_i hk
      obtain rfl := some.inj hr
      refine .zero (by rw [exprLines, hk]) (eq_none_iff_forall_ne_some.2 fun w hw => ?_)
      obtain ⟨b, y, v, rfl, -, hword⟩ := wordIn_index hw
      rw [Frame.word?, show f.offset? y = none from hk] at hword
      cases hword
  | addrIndex a b x i _ ih =>
    intro r hr
    rw [effect] at hr
    split at hr
    · obtain ⟨p, hp, rfl⟩ := map_eq_some_iff.1 hr
      exact .addrIndex a b ‹_› (ih hp)
    · obtain rfl := some.inj hr
      exact .zero (by rw [exprLines, ‹f.varOffset? x = none›]) rfl
  | call | hole => exact fun hr => absurd hr (by simp [effect])
  | addr a t hvar hindex _ =>
    intro r hr
    cases t with
    | var b x => exact absurd rfl (hvar b x)
    | index b x i => exact absurd rfl (hindex b x i)
    | _ => cases hr

/-- **The registers that an expression uses**: an expression that is accepted and has an effect has its code, and the code
has the effect. -/
theorem exists_computes {table : Signatures} {scope : Scope} {t : Ty} (ht : HasType table scope e t)
    (h : effect f s e = some r) : ∃ code, Computes f s e r code := by
  replace h := effects_of_effect e h
  induction h generalizing t with
  | int => exact ⟨_, computes_line (fun _ => rfl) fun lines t _ => ⟨t.flags, rfl⟩⟩
  | zero hlines => exact ⟨_, computes_zero hlines⟩
  | @var _ _ k _ hk hw =>
    refine ⟨[.instr (.two .mov (.reg .ax) (.local k))], computes_line (fun pool => ?_) fun lines t hu => ⟨t.flags, ?_⟩⟩
    · rw [exprLines, hk]
      rfl
    · rw [← read?_under hu hw, ← hu.bp]
      rfl
  | @addrVar _ _ _ k hk =>
    refine ⟨[.instr (.two .lea (.reg .ax) (.local k))], computes_line (fun pool => ?_) fun lines t hu => ⟨t.flags, ?_⟩⟩
    · rw [exprLines, hk]
      rfl
    · rw [← hu.bp]
      rfl
  | neg _ _ ih =>
    cases ht with
    | unary ht =>
      obtain ⟨c, hc⟩ := ih ht
      exact ⟨_, computes_neg hc⟩
  | binary _ _ _ hz ihx ihy =>
    cases ht with
    | binary hl hr =>
      obtain ⟨cl, hcl⟩ := ihx hl
      obtain ⟨cr, hcr⟩ := ihy hr
      exact exists_computes_binary hcl hcr hz hl.note_eq hr.note_eq
  | @index _ _ _ k _ _ hk _ hw ih =>
    cases ht with
    | index _ _ hi =>
      obtain ⟨ci, hci⟩ := ih hi
      refine ⟨_, computes_element (j := .two .mov (.reg .ax) (.element k)) hci (fun pool => ?_) rfl
        fun lines t hu hsi => ?_⟩
      · rw [exprLines, hk, ← append_assoc]
        simp only [bind, StateT.bind, hci.lines]
        rfl
      · rw [← read?_under hu hw, Processor.elementAt, ← hu.bp, ← hsi]
        rfl
  | @addrIndex _ _ _ _ k _ hk _ ih =>
    cases ht with
    | addrIndex _ _ hi =>
      obtain ⟨ci, hci⟩ := ih hi
      refine ⟨_, computes_element (j := .two .lea (.reg .ax) (.element k)) hci (fun pool => ?_) rfl
        fun lines t hu hsi => ?_⟩
      · rw [exprLines, hk, ← append_assoc]
        simp only [bind, StateT.bind, hci.lines]
        rfl
      · rw [Processor.elementAt, ← hu.bp, ← hsi]
        rfl

/-- The value that an expression has over the words of a frame is what its lines leave in `ax`. -/
theorem effect_ax {w : BitVec 16} (h : effect f s e = some r) (hw : wordIn f s e = some w) : r.ax = w := by
  have hword : ∀ {x : String} {k i : Nat} {w : BitVec 16}, f.offset? x = some k → f.word? s x i = some w →
      w = s.wordAt (s.bp - .ofNat 16 k + .ofNat 16 (2 * i)) := by
    intro x k i w hk hw
    rw [Frame.word?, hk, bind_some, ite_none_right_eq_some] at hw
    exact (some.inj hw.2).symm
  have hread : ∀ {a w : BitVec 16}, s.read? a = some w → w = s.wordAt a := by
    intro a w hw
    rw [Processor.read?, ite_none_right_eq_some] at hw
    exact (some.inj hw.2).symm
  replace h := effects_of_effect e h
  induction h generalizing w with
  | int => exact some.inj hw
  | zero _ hnone => cases hnone.symm.trans hw
  | var _ hk hv =>
    rw [hword hk hw, hread hv]
    simp
  | neg _ _ ih =>
    obtain ⟨v, hv, rfl⟩ := map_eq_some_iff.1 hw
    exact congrArg (-·) (ih hv)
  | @binary _ op _ _ _ _ _ _ _ hz ihx ihy =>
    obtain ⟨c, happlied, -⟩ := exists_operator hz
    rw [wordIn_binary happlied.ne.1 happlied.ne.2] at hw
    obtain ⟨v, hv, hw⟩ := bind_eq_some_iff.1 hw
    obtain ⟨u, hu, hw⟩ := bind_eq_some_iff.1 hw
    rw [ihx hv, ihy hu] at hz
    cases op with
    | add | sub | mul =>
      obtain rfl := some.inj hz
      exact some.inj hw
    | div => cases hw
    | _ => cases hz
  | index _ hk _ hu ih =>
    obtain ⟨b, y, v, rfl, hv, hword'⟩ := wordIn_index hw
    rw [hword hk hword', ← ih hv, ← Processor.elementAt_eq]
    exact hread hu
  | addrVar | addrIndex => cases hw

/-! ### What is left alone -/

/-- What is written to a register comes from one of the expressions `qs` that needs it. -/
structure Effect.UsedBy (r : Effect) (qs : List (Expr Note)) : Prop where
  bx : r.bx ≠ none → qs.any Expr.isOperation = true
  dx : r.dx ≠ none → qs.any Expr.isProduct = true
  si : r.si ≠ none → qs.any Expr.isElement = true

section UsedBy

variable {p q : Effect} {qs qs' : List (Expr Note)}

theorem Effect.usedBy_value (w : BitVec 16) : Effect.UsedBy { ax := w } qs :=
  ⟨absurd rfl, absurd rfl, absurd rfl⟩

theorem Effect.UsedBy.mono (h : p.UsedBy qs) (hqs : qs ⊆ qs') : p.UsedBy qs' := by
  have hany : ∀ {test : Expr Note → Bool}, qs.any test = true → qs'.any test = true := by
    intro test htest
    obtain ⟨e, he, ht⟩ := any_eq_true.1 htest
    exact any_eq_true.2 ⟨e, hqs he, ht⟩
  exact ⟨fun hp => hany (h.bx hp), fun hp => hany (h.dx hp), fun hp => hany (h.si hp)⟩

theorem Effect.UsedBy.after (hq : q.UsedBy qs) (hp : p.UsedBy qs) : (q.after p).UsedBy qs := by
  have hor : ∀ {a b : Option (BitVec 16)} {P : Prop}, (a ≠ none → P) → (b ≠ none → P) → a.or b ≠ none → P := by
    intro a b P ha hb hab
    cases a with
    | none => exact hb hab
    | some v => exact ha (some_ne_none v)
  exact ⟨hor hq.bx hp.bx, hor hq.dx hp.dx, hor hq.si hp.si⟩

end UsedBy

theorem operatorEffect_usedBy {op : BinaryOp} {x y : BitVec 16} {z : Effect} (h : operatorEffect x y op = some z)
    (a : Note) (l r : Expr Note) : z.UsedBy (.binary a op l r :: (l.parts ++ r.parts)) := by
  cases op with
  | add | sub =>
    obtain rfl := some.inj h
    exact ⟨fun _ => rfl, absurd rfl, absurd rfl⟩
  | mul =>
    obtain rfl := some.inj h
    exact ⟨fun _ => rfl, fun _ => rfl, absurd rfl⟩
  | div =>
    obtain ⟨w, -, rfl⟩ := map_eq_some_iff.1 h
    exact ⟨fun _ => rfl, fun _ => rfl, absurd rfl⟩
  | _ => cases h

/-- **Registers are left alone**: an expression writes to `bx` only if an operation is in it, to `dx` only if there is a
product or a division, and to `si` only if there is an element of an array. -/
theorem effect_usedBy (h : effect f s e = some r) : r.UsedBy e.parts := by
  replace h := effects_of_effect e h
  induction h with
  | int | zero | var | addrVar => exact Effect.usedBy_value _
  | neg _ _ ih => exact (Effect.usedBy_value _).after (ih.mono (subset_cons_self _ _))
  | binary a _ _ hz ihx ihy =>
    refine (operatorEffect_usedBy hz a _ _).after (.after (ihy.mono ?_) (ihx.mono ?_))
    · exact fun q hq => mem_cons_of_mem _ (mem_append_right _ hq)
    · exact fun q hq => mem_cons_of_mem _ (mem_append_left _ hq)
  | index _ _ _ _ ih =>
    refine .after ?_ (ih.mono fun q hq => mem_cons_of_mem _ (mem_append_right _ hq))
    exact ⟨absurd rfl, absurd rfl, fun _ => rfl⟩
  | addrIndex _ _ _ _ ih =>
    refine .after ?_ (ih.mono fun q hq => ?_)
    · exact ⟨absurd rfl, absurd rfl, fun _ => rfl⟩
    · exact mem_cons_of_mem _ (mem_cons_of_mem _ (mem_append_right _ hq))

end Expressions

end Assembly

end Workbench
