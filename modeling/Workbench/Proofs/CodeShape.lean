import Workbench.Proofs.ExprLines

/-!
# The shape of generated code

Whatever code is generated, it is put together from a few patterns: lines that neither jump nor set a label, code
after code, a truth, the two short circuits, a conditional and loops. `Built` says so, with the labels of the code in the
order in which they were handed out, and `stmtsLines_makes` shows it of every generation that succeeds. What holds of all
generated code is then proved by induction on `Built`, one case for each pattern.

`Draws` says which labels a generation was handed out. They are numbered one after the other, so that they differ.
-/

open List

namespace Workbench

namespace Stmt

variable {α : Type}

mutual

/-- A statement without assembly and machine instructions in it. -/
def asmFree : Stmt α → Bool
  | .asm _ | .vmAsm _ => false
  | .cond _ yes none => allAsmFree yes
  | .cond _ yes (some no) => allAsmFree yes && allAsmFree no
  | .loop _ body | .block body => allAsmFree body
  | _ => true
termination_by structural s => s

/-- Statements without assembly and machine instructions in them. -/
def allAsmFree : List (Stmt α) → Bool
  | [] => true
  | s :: ss => asmFree s && allAsmFree ss
termination_by structural ss => ss

end

end Stmt

namespace Assembly

open Typing (Note)

/-! ### Labels that are handed out -/

/-- The generation `g` gives `a` and takes the pool from `p` to `q`, and `xs` are the labels that it is handed out, in
order. -/
inductive Draws : {α : Type} → Gen α → Pool → α → Pool → List String → Prop
  | pure {α : Type} (a : α) (p : Pool) : Draws (pure a) p a p []
  | fresh (base : String) (p : Pool) : Draws (fresh base) p (p.fresh base).1 (p.fresh base).2 [(p.fresh base).1]
  | intern (s : String) (p : Pool) : Draws (intern s) p (p.intern s).1 (p.intern s).2 []
  | bind {α β : Type} {g : Gen α} {h : α → Gen β} {p q r : Pool} {a : α} {b : β} {xs ys : List String}
      (hg : Draws g p a q xs) (hh : Draws (h a) q b r ys) : Draws (g >>= h) p b r (xs ++ ys)

theorem labels_intern (s : String) (p : Pool) : (p.intern s).2.labels = p.labels := by
  unfold Pool.intern
  split <;> rfl

/-- If the generation succeeds, the labels that it is handed out are numbered from those of the pool on, and `Q` holds of
them and of what it gives. -/
def Makes {α : Type} (g : Gen α) (Q : α → List String → Prop) : Prop :=
  ∀ p a q, g p = .ok (a, q) → ∃ xs, Draws g p a q xs ∧ Numbered p.labels q.labels xs ∧ Q a xs

def IsLabel (base x : String) : Prop := ∃ n : Nat, x = base ++ toString n

namespace Makes

variable {α β : Type} {g : Gen α} {h : α → Gen β} {R : α → List String → Prop} {Q : β → List String → Prop}

theorem pure {a : α} (ha : R a []) : Makes (Pure.pure a) R := by
  rintro p _ _ ⟨⟩
  exact ⟨[], .pure a p, .nil _, ha⟩

theorem fresh {base : String} (hbase : endsPlain base = true) :
    Makes (Assembly.fresh base) fun x xs => xs = [x] ∧ IsLabel base x := by
  rintro p _ _ ⟨⟩
  exact ⟨_, .fresh base p, .fresh hbase, rfl, p.labels + 1, rfl⟩

theorem intern (s : String) : Makes (Assembly.intern s) fun _ xs => xs = [] := by
  intro p x q hok
  obtain ⟨rfl, rfl⟩ : (p.intern s).1 = x ∧ (p.intern s).2 = q := Prod.ext_iff.1 (Except.ok.inj hok)
  exact ⟨[], .intern s p, labels_intern s p ▸ .nil _, rfl⟩

theorem fail (e : EmitError) : Makes (throw e : Gen β) Q := by
  intro p b q hok
  cases hok

theorem bind (hg : Makes g R) (hh : ∀ a xs, R a xs → Makes (h a) fun b ys => Q b (xs ++ ys)) : Makes (g >>= h) Q := by
  intro p b r hok
  have hbind : (g >>= h) p = g p >>= fun s => h s.1 s.2 := rfl
  rw [hbind] at hok
  obtain ⟨⟨a, q⟩, ha, hb⟩ := bind_eq_ok.1 hok
  obtain ⟨xs, hxs, hnum, hR⟩ := hg p a q ha
  obtain ⟨ys, hys, hnum', hQ⟩ := hh a xs hR q b r hb
  exact ⟨xs ++ ys, .bind hxs hys, hnum.append hnum', hQ⟩

theorem freshTwo {base base' : String} {h : String → String → Gen β} (hbase : endsPlain base = true)
    (hbase' : endsPlain base' = true)
    (hh : ∀ x y, IsLabel base x → IsLabel base' y → Makes (h x y) fun b ys => Q b (x :: y :: ys)) :
    Makes (do let x ← Assembly.fresh base; let y ← Assembly.fresh base'; h x y) Q := by
  refine .bind (.fresh hbase) ?_
  rintro x _ ⟨rfl, hx⟩
  refine .bind (.fresh hbase') ?_
  rintro y _ ⟨rfl, hy⟩
  exact hh x y hx hy

theorem typeOf (e : Expr Note) : Makes (Assembly.typeOf e) fun _ xs => xs = [] := by
  unfold Assembly.typeOf
  split
  · exact .pure rfl
  · exact .fail _

end Makes

/-! ### Patterns -/

/-- The offset of the place below the frame base that a line writes to. -/
def Line.target? : Line → Option Nat
  | .instr (.two op (.local k) _) | .instr (.two op (.element k) _) => if op = .cmp then none else some k
  | .instr (.one _ (.local k)) | .instr (.one _ (.element k)) => some k
  | _ => none

/-- Lines that neither jump nor set a label. If they write below the frame base, it is `ax` to the place of a variable or
an element from there on; lines from the program itself are among them if `raw` holds. -/
def Line.isPlain (f : Frame) (raw : Prop) : Line → Prop
  | .label _ | .exported _ | .instr (.jump _ _) => False
  | .written _ => raw
  | l => ∀ k, l.target? = some k →
    (l = .mov (.local k) (.reg .ax) ∨ l = .mov (.element k) (.reg .ax)) ∧ ∃ x, f.offset? x = some k

def loopCode (top done : String) (test body : List Line) : List Line :=
  .label top :: (test ++ Line.jump .e done :: (body ++ [Line.jump .always top, .label done]))

/-- The lines of a conditional, after its test. -/
def condCode (no done : String) (yes other : List Line) : List Line :=
  .twoImm .cmp .ax 0 :: .jump .e no :: (yes ++ Line.jump .always done :: .label no :: (other ++ [Line.label done]))

/-- The names of labels that loops begin with. -/
def loopBases : List String := ["WHL", "MEMCPY_LOOP", "MEMSET_LOOP"]

def IsTop (x : String) : Prop := ∃ base ∈ loopBases, IsLabel base x

/-- Code as it is generated, and its labels in the order in which they are handed out. -/
inductive Built (f : Frame) (raw : Prop) : List Line → List String → Prop
  | plain {c : List Line} (hc : ∀ l ∈ c, l.isPlain f raw) : Built f raw c []
  | append {c d : List Line} {xs ys : List String} (hc : Built f raw c xs) (hd : Built f raw d ys) :
      Built f raw (c ++ d) (xs ++ ys)
  | truth (j : Jump) (yes done : String) : Built f raw (truthCode j yes done) [yes, done]
  | circuit {l r : List Line} {xs ys : List String} (d : Bool) (exit done : String) (hl : Built f raw l xs)
      (hr : Built f raw r ys) : Built f raw (l ++ circuitCode d exit done r) (done :: exit :: (xs ++ ys))
  | cond {test yes other : List Line} {xs ys zs : List String} (no done : String) (htest : Built f raw test xs)
      (hyes : Built f raw yes ys) (hother : Built f raw other zs) :
      Built f raw (test ++ condCode no done yes other) (no :: done :: (xs ++ (ys ++ zs)))
  | loop {test body : List Line} {xs ys : List String} {top : String} (done : String) (htop : IsTop top)
      (htest : Built f raw test xs) (hbody : Built f raw body ys) :
      Built f raw (loopCode top done test body) (top :: done :: (xs ++ ys))

/-! ### Plain lines -/

section Plain

variable {f : Frame} {raw : Prop} {l : Line}

/-- Lines that write to registers, or through them, only. -/
def Line.isLocal : Line → Bool
  | .label _ | .exported _ | .written _ | .instr (.jump _ _) => false
  | l => l.target? = none

theorem isPlain_of_isLocal (h : l.isLocal = true) : l.isPlain f raw := by
  unfold Line.isPlain
  unfold Line.isLocal at h
  split at h <;> simp_all

theorem isPlain_all {c : List Line} (h : c.all Line.isLocal = true) : ∀ l ∈ c, l.isPlain f raw :=
  fun l hl => isPlain_of_isLocal (all_eq_true.1 h l hl)

theorem isPlain_element {x : String} {k : Nat} (hk : f.offset? x = some k) :
    (Line.mov (.element k) (.reg .ax)).isPlain f raw := by
  rintro _ ⟨⟩
  exact ⟨.inr rfl, x, hk⟩

end Plain

namespace Built

variable {f : Frame} {raw : Prop} {c d e : List Line} {xs ys : List String}

theorem congr (h : Built f raw c xs) (hxs : xs = ys) : Built f raw c ys := hxs ▸ h

theorem lines (h : c.all Line.isLocal = true) : Built f raw c [] := .plain (isPlain_all h)

theorem concat (h : Built f raw c xs) (hd : ∀ l ∈ d, l.isPlain f raw) : Built f raw (c ++ d) xs :=
  (h.append (.plain hd)).congr (append_nil xs)

theorem ends (h : Built f raw c xs) (hd : d.all Line.isLocal = true) : Built f raw (c ++ d) xs :=
  h.concat (isPlain_all hd)

theorem join (h : Built f raw c xs) (h' : Built f raw e ys) (hd : d.all Line.isLocal = true) :
    Built f raw (c ++ d ++ e) (xs ++ ys) := (h.ends hd).append h'

/-- The lines between those of the parts are plain, labels or jumps. -/
theorem lines_of {P : Line → Prop} (h : Built f raw c xs) (hplain : ∀ l : Line, l.isPlain f raw → P l)
    (hlabel : ∀ x, P (.label x)) (hjump : ∀ j x, P (.jump j x)) : ∀ l ∈ c, P l := by
  have hlocal : ∀ l : Line, l.isLocal = true → P l := fun l hl => hplain l (isPlain_of_isLocal hl)
  induction h with
  | plain hc => exact fun l hl => hplain l (hc l hl)
  | append _ _ ihc ihd => exact forall_mem_append.2 ⟨ihc, ihd⟩
  | truth j yes done =>
    simp [truthCode, hlabel, hjump, hlocal .zero rfl, hlocal (.movAx 1) rfl]
  | circuit d exit done _ _ ihl ihr =>
    have hconstant : ∀ b, P (constant b) := fun b => hlocal _ (by cases b <;> rfl)
    have htest : P (.twoImm .cmp .ax 0) := hlocal _ rfl
    simp only [circuitCode, circuitEnd, forall_mem_append, forall_mem_cons]
    exact ⟨ihl, htest, hjump _ _, ihr, htest, hjump _ _, hconstant _, hjump _ _, hlabel _, hconstant _, hlabel _, by simp⟩
  | cond no done _ _ _ iht ihy iho =>
    simp only [condCode, forall_mem_append, forall_mem_cons]
    exact ⟨iht, hlocal _ rfl, hjump _ _, ihy, hjump _ _, hlabel _, iho, hlabel _, by simp⟩
  | loop done _ _ _ iht ihb =>
    simp only [loopCode, forall_mem_append, forall_mem_cons]
    exact ⟨hlabel _, iht, hjump _ _, ihb, hjump _ _, hlabel _, by simp⟩

end Built

/-! ### Expressions -/

section Leaves

variable (f : Frame) (raw : Prop)

theorem truthLines_makes (j : Jump) : Makes (truthLines j) (Built f raw) :=
  .freshTwo rfl rfl fun yes done _ _ => .pure (.truth j yes done)

theorem compared_makes (j : Jump) {l : Line} (hl : l.isLocal = true) :
    Makes (do return l :: (← truthLines j)) (Built f raw) := by
  refine .bind (truthLines_makes f raw j) fun c xs hc => .pure ?_
  have hcons : Built f raw ([l] ++ c) ([] ++ xs) := (Built.lines (by simp [hl])).append hc
  exact hcons.congr (by simp)

theorem unaryLines_makes (op : UnaryOp) : Makes (unaryLines op) (Built f raw) := by
  cases op with
  | neg => exact .pure (.lines rfl)
  | not => exact compared_makes f raw .e rfl
  | other => exact .pure (.lines rfl)

theorem arithmeticLines_makes (op : BinaryOp) : Makes (arithmeticLines op) (Built f raw) := by
  unfold arithmeticLines
  split
  case h_5 =>
    split
    · exact compared_makes f raw _ rfl
    · exact .pure (.lines rfl)
  all_goals exact .pure (.lines rfl)

theorem literalLines_makes (v : Literal) : Makes (literalLines v) (Built f raw) := by
  cases v with
  | str s =>
    refine .bind (.intern s) ?_
    rintro x _ rfl
    exact .pure (.lines rfl)
  | bool b => exact .pure (.lines (by cases b <;> rfl))
  | int | none => exact .pure (.lines rfl)

theorem copyLines_makes : Makes copyLines (Built f raw) := by
  refine .freshTwo rfl rfl fun top done htop _ => .pure ?_
  show Built f raw (loopCode top done [.twoImm .cmp .cx 0] [.mov (.reg .al) (.at .si), .mov (.at .di) (.reg .al),
    .one .inc .si, .one .inc .di, .one .dec .cx]) [top, done]
  exact .loop done ⟨_, by simp [loopBases], htop⟩ (.lines rfl) (.lines rfl)

theorem fillLines_makes : Makes fillLines (Built f raw) := by
  refine .freshTwo rfl rfl fun top done htop _ => .pure ?_
  show Built f raw (loopCode top done [.twoImm .cmp .cx 0] [.mov (.at .di) (.reg .dl), .one .inc .di, .one .dec .cx])
    [top, done]
  exact .loop done ⟨_, by simp [loopBases], htop⟩ (.lines rfl) (.lines rfl)

end Leaves

section Binary

variable {f : Frame} {raw : Prop} {left right : Gen (List Line)} (hl : Makes left (Built f raw))
  (hr : Makes right (Built f raw))

include hl hr

theorem circuitLines_makes (d : Bool) (base base' : String) (hbase : endsPlain base = true)
    (hbase' : endsPlain base' = true) :
    Makes (do
      let done ← fresh base
      let exit ← fresh base'
      let l ← left
      let r ← right
      return l ++ circuitCode d exit done r) (Built f raw) := by
  refine .freshTwo hbase hbase' fun done exit _ _ => .bind hl fun l xs hl => .bind hr fun r ys hr => .pure ?_
  exact (Built.circuit d exit done hl hr).congr (by simp)

theorem wordLines_makes (op : BinaryOp) : Makes (wordLines op left right) (Built f raw) := by
  refine .bind hl fun l xs hl => .bind hr fun r ys hr => .bind (arithmeticLines_makes f raw op) fun c zs hc => .pure ?_
  exact ((hl.join hr rfl).join hc rfl).congr (by simp)

theorem stringLines_makes (j : Jump) : Makes (stringLines j left right) (Built f raw) := by
  refine .bind hl fun l xs hl => .bind hr fun r ys hr => .bind (truthLines_makes f raw j) fun c zs hc => .pure ?_
  exact ((hl.join hr rfl).join hc rfl).congr (by simp)

theorem binaryLines_makes (op : BinaryOp) (lt rt : Ty) : Makes (binaryLines op lt rt left right) (Built f raw) := by
  unfold binaryLines
  split
  · have hand := circuitLines_makes hl hr false "AND_END" "AND_FALSE" rfl rfl
    simpa [andLines, circuitCode, circuitEnd, constant] using hand
  · have hor := circuitLines_makes hl hr true "OR_END" "OR_TRUE" rfl rfl
    simpa [orLines, circuitCode, circuitEnd, constant] using hor
  · split
    · split
      · exact stringLines_makes hl hr _
      · exact wordLines_makes hl hr _
    · exact wordLines_makes hl hr _

end Binary

section Gen

variable {f : Frame} {raw : Prop}

theorem placed_makes {a : Expr Note} {g : Nat → Gen (List Line)} {lines : List Line}
    (hlines : lines.all Line.isLocal = true) (hg : ∀ x k, f.offset? x = some k → Makes (g k) (Built f raw)) :
    Makes (match f.varOffset? a with
      | some k => g k
      | none => pure lines) (Built f raw) := by
  split
  · obtain ⟨x, -, hx⟩ := Option.bind_eq_some_iff.1 ‹_›
    exact hg x _ hx
  · exact .pure (.lines hlines)

theorem then_makes {g : Gen (List Line)} {d : List Line} (hg : Makes g (Built f raw)) (hd : ∀ l ∈ d, l.isPlain f raw) :
    Makes (do return (← g) ++ d) (Built f raw) :=
  .bind hg fun _ xs hc => .pure ((hc.concat hd).congr (append_nil xs).symm)

/-- The code of a call is put together from that of its arguments. -/
theorem callLines_makes {n : Note} {name : String} {args : List (Expr Note)}
    (h : ∀ a ∈ args, Makes (exprLines f a) (Built f raw)) : Makes (exprLines f (.call n name args)) (Built f raw) := by
  unfold exprLines
  -- The first eight equations are not about calls.
  split <;> rename_i heq <;> cases heq
  case h_9 =>
    -- `load16`
    exact then_makes (h _ (by simp)) (isPlain_all rfl)
  case h_10 =>
    -- `store16`
    refine .bind (h _ (by simp)) fun a xs ha => .bind (h _ (by simp)) fun b ys hb => .pure ?_
    exact ((ha.join hb rfl).ends rfl).congr (by simp)
  case h_11 =>
    -- `memcpy`
    refine .bind (h _ (by simp)) fun a xs ha => .bind (h _ (by simp)) fun b ys hb =>
      .bind (h _ (by simp)) fun c zs hc => .bind (copyLines_makes f raw) fun d us hd => .pure ?_
    exact (((ha.join hb rfl).join hc rfl).join hd rfl).congr (by simp)
  case h_12 =>
    -- `memset`
    refine .bind (h _ (by simp)) fun a xs ha => .bind (h _ (by simp)) fun b ys hb =>
      .bind (h _ (by simp)) fun c zs hc => .bind (fillLines_makes f raw) fun d us hd => .pure ?_
    exact (((ha.join hb rfl).join hc rfl).join hd rfl).congr (by simp)
  case h_13 =>
    -- `ct_eq`
    refine .bind (h _ (by simp)) fun a xs ha => .bind (h _ (by simp)) fun b ys hb => .pure ?_
    exact (((ha.join hb rfl).ends rfl).ends rfl).congr (by simp)
  case h_14 =>
    -- `ct_select`
    refine .bind (h _ (by simp)) fun a xs ha => .bind (h _ (by simp)) fun b ys hb =>
      .bind (h _ (by simp)) fun c zs hc => .pure ?_
    exact (((((ha.ends rfl).join hb rfl).join hc rfl).ends rfl).ends rfl).congr (by simp)
  case h_15 =>
    -- `array_push`
    refine placed_makes rfl fun x k hk => .bind (h _ (by simp)) fun a xs ha => .bind (h _ (by simp)) fun b ys hb =>
      .pure ?_
    have hrest : ∀ l ∈ ([.mov (.element k) (.reg .ax), .movR .ax .dx, .one .inc .ax] : List Line), l.isPlain f raw :=
      forall_mem_cons.2 ⟨isPlain_element hk, isPlain_all rfl⟩
    exact (((ha.ends rfl).join hb rfl).concat hrest).congr (by simp)
  case h_16 =>
    -- `array_pop`
    refine placed_makes rfl fun x k _ => .bind (h _ (by simp)) fun a xs ha => .pure ?_
    exact (((ha.ends rfl).ends rfl).ends rfl).congr (by simp)
  case h_17 =>
    -- The arguments of other functions are left out.
    exact .pure (.lines rfl)

variable (f raw)

/-- **The code of an expression has the shape of generated code.** -/
theorem exprLines_makes (e : Expr Note) : Makes (exprLines f e) (Built f raw) := by
  induction e using Expr.induction with
  | lit a v => exact literalLines_makes f raw v
  | var a x | addrVar a b x =>
    rw [exprLines]
    split <;> exact .pure (.lines rfl)
  | unary a op e ih =>
    refine .bind ih fun c xs hc => .bind (unaryLines_makes f raw op) fun d ys hd => .pure ?_
    exact (hc.append hd).congr (by simp)
  | binary a op l r ihl ihr =>
    refine .bind (.typeOf l) ?_
    rintro lt _ rfl
    refine .bind (.typeOf r) ?_
    rintro rt _ rfl
    exact binaryLines_makes ihl ihr op lt rt
  | call a name args ih => exact callLines_makes ih
  | index a x i _ ih | addrIndex a b x i _ ih =>
    refine placed_makes rfl fun y k _ => .bind ih fun c xs hc => .pure ?_
    exact ((hc.ends rfl).ends rfl).congr (by simp)
  | addr a t hvar hindex _ =>
    have hzero : exprLines f (.addr a t) = pure [.zero] := by
      cases t with
      | var b x => exact absurd rfl (hvar b x)
      | index b x i => exact absurd rfl (hindex b x i)
      | _ => rfl
    rw [hzero]
    exact .pure (.lines rfl)
  | hole a => exact .pure (.lines rfl)

/-! ### Statements -/

theorem storeLines_plain (x : String) : ∀ l ∈ storeLines f x, l.isPlain f raw := by
  unfold storeLines
  split
  · rintro _ (_ | ⟨_, ⟨⟩⟩) _ ⟨⟩
    exact ⟨.inl rfl, x, ‹_›⟩
  · simp

theorem assignLines_makes (target value : Expr Note) : Makes (assignLines f target value) (Built f raw) := by
  unfold assignLines
  split
  · exact then_makes (exprLines_makes f raw value) (storeLines_plain f raw _)
  · refine placed_makes rfl fun x k hk => .bind (exprLines_makes f raw value) fun c xs hc =>
      .bind (exprLines_makes f raw _) fun d ys hd => .pure ?_
    have hrest : ∀ l ∈ ([.one .pop .ax, .mov (.element k) (.reg .ax)] : List Line), l.isPlain f raw :=
      forall_mem_cons.2 ⟨isPlain_of_isLocal rfl, forall_mem_singleton.2 (isPlain_element hk)⟩
    exact (((hc.join hd rfl).ends rfl).concat hrest).congr (by simp)
  · exact .pure (.lines rfl)

variable {f raw}

theorem condLines_makes {test yes other : Gen (List Line)} (htest : Makes test (Built f raw))
    (hyes : Makes yes (Built f raw)) (hother : Makes other (Built f raw)) :
    Makes (do
      let no ← fresh "ELSE"
      let done ← fresh "ENDIF"
      let ct ← test
      let cThen ← yes
      let cElse ← other
      return ct ++ [Line.twoImm .cmp .ax 0, .jump .e no] ++ cThen ++ [Line.jump .always done, .label no] ++ cElse ++
        [Line.label done]) (Built f raw) := by
  refine .freshTwo rfl rfl fun no done _ _ => .bind htest fun c xs hc => .bind hyes fun d ys hd =>
    .bind hother fun e zs he => .pure ?_
  have hcond := Built.cond no done hc hd he
  simpa [condCode] using hcond

theorem or_of_and {a b : Bool} (h : raw ∨ (a && b) = true) : (raw ∨ a = true) ∧ (raw ∨ b = true) := by
  rwa [Bool.and_eq_true, or_and_left] at h

/-- **The code of statements has the shape of generated code.** Lines of the program itself are in it only if there is
assembly among the statements. -/
theorem stmtsLines_makes (ss : List (Stmt Note)) : (raw ∨ Stmt.allAsmFree ss = true) →
    Makes (stmtsLines f ss) (Built f raw) := by
  induction ss using Stmt.parts_induction (P := fun s => (raw ∨ s.asmFree = true) →
      Makes (stmtLines f s) (Built f raw)) with
  | nil => exact fun _ => .pure (.lines rfl)
  | cons s ss ihs ih =>
    intro h
    obtain ⟨hs, hss⟩ := or_of_and h
    exact .bind (ihs hs) fun _ _ hc => .bind (ih hss) fun _ _ hd => .pure ((hc.append hd).congr (by simp))
  | expr e => exact exprLines_makes f raw e
  | decl x t init =>
    cases init with
    | none => exact .pure (.plain (forall_mem_cons.2 ⟨isPlain_of_isLocal rfl, storeLines_plain f raw x⟩))
    | some e => exact then_makes (exprLines_makes f raw e) (storeLines_plain f raw x)
  | assign t v => exact assignLines_makes f raw t v
  | print nl e =>
    refine .bind (exprLines_makes f raw e) fun c xs hc => .bind (.typeOf e) ?_
    rintro t _ rfl
    have hprint : (printLines nl t).all Line.isLocal = true := by
      unfold printLines
      split <;> cases nl <;> rfl
    exact .pure ((hc.ends hprint).congr (by simp))
  | ret v =>
    cases v with
    | none => exact .pure (.lines rfl)
    | some e => exact then_makes (exprLines_makes f raw e) (isPlain_all rfl)
  | asm text h =>
    refine .pure (.plain fun l hl => ?_)
    obtain ⟨t, -, rfl⟩ := mem_map.1 hl
    exact h.elim id fun h => absurd h Bool.false_ne_true
  | vmAsm text => exact .fail _
  | condThen test yes ihy h => exact condLines_makes (exprLines_makes f raw test) (ihy h) (.pure (.lines rfl))
  | cond test yes b ihy ihn h =>
    obtain ⟨hyes, hno⟩ := or_of_and h
    exact condLines_makes (exprLines_makes f raw test) (ihy hyes) (ihn hno)
  | loop test body ihb h =>
    refine .freshTwo rfl rfl fun top done htop _ => .bind (exprLines_makes f raw test) fun c xs hc =>
      .bind (ihb h) fun d ys hd => .pure ?_
    have htest : Built f raw (c ++ [.twoImm .cmp .ax 0]) xs := hc.ends rfl
    have hloop := Built.loop done ⟨_, by simp [loopBases], htop⟩ htest hd
    simpa [loopCode] using hloop
  | block body => exact .pure (.lines rfl)

/-- The lines that enter a function. -/
def prologue (f : Frame) : List Line :=
  .one .push .bp :: .movR .bp .sp :: if 0 < f.size then [.twoImm .sub .sp f.size] else []

/-- **The code of a function**, below its name, has the shape of generated code. -/
theorem functionLines_makes (raw : Prop) {fn : Function Note} (h : raw ∨ Stmt.allAsmFree fn.body = true) :
    Makes (functionLines fn) fun c xs => ∃ lines, c = .exported fn.name :: .label fn.name :: lines ∧
      Built (Frame.ofFunction fn) raw lines xs := by
  refine .bind (stmtsLines_makes fn.body h) fun body xs hbody => .pure ?_
  have hprologue : (prologue (.ofFunction fn)).all Line.isLocal = true := by
    unfold prologue
    split <;> rfl
  have hlines := ((Built.lines hprologue).append hbody).ends (d := epilogue) rfl
  exact ⟨_, by simp [prologue], hlines.congr (by simp)⟩

end Gen

end Assembly

end Workbench
