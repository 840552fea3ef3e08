import Workbench.Proofs.Notes

/-!
# Typing rules

The analysis as rules on the program that it gives back: `HasType` for expressions, `Checked` for statements
and `Accepted` for programs. The analysis accepts exactly the programs that can be given notes that obey
the rules (`check_iff`), so later proofs go by cases on a rule and never open the analysis.
-/

open List

namespace Workbench.Typing

open Signatures

/-- The types of expressions, as noted on them. -/
inductive HasType (table : Signatures) (scope : Scope) : Expr Note → Ty → Prop
  | lit (v : Literal) : HasType table scope (.lit (some (literalType v)) v) (literalType v)
  | var {x : String} {t : Ty} (hx : scope.resolve? x = some t) : HasType table scope (.var (some t) x) t
  | unary {op : UnaryOp} {e : Expr Note} {t u : Ty} (he : HasType table scope e t) (hop : unaryType op t = .ok u) :
      HasType table scope (.unary (some u) op e) u
  | binary {op : BinaryOp} {l r : Expr Note} {t t' u : Ty} (hl : HasType table scope l t)
      (hr : HasType table scope r t') (hop : binaryType op t t' = .ok u) :
      HasType table scope (.binary (some u) op l r) u
  | index {a i : Expr Note} {t : Ty} (ha : HasType table scope a t) (ht : t.isArray = true)
      (hi : HasType table scope i .int) : HasType table scope (.index (some .int) a i) .int
  | addrVar {x : String} {t : Ty} (hx : scope.resolve? x = some t) :
      HasType table scope (.addr (some .ptr) (.var none x)) .ptr
  | addrIndex {a i : Expr Note} {t : Ty} (ha : HasType table scope a t) (ht : t.isArray = true)
      (hi : HasType table scope i .int) : HasType table scope (.addr (some .ptr) (.index none a i)) .ptr
  | push {a n v : Expr Note} {t : Ty} (ha : HasType table scope a t) (ht : t.isArray = true)
      (hn : HasType table scope n .int) (hv : HasType table scope v .int) :
      HasType table scope (.call (some .int) "array_push" [a, n, v]) .int
  | pop {a n : Expr Note} {t : Ty} (ha : HasType table scope a t) (ht : t.isArray = true)
      (hn : HasType table scope n .int) : HasType table scope (.call (some .int) "array_pop" [a, n]) .int
  | call {f : String} {args : List (Expr Note)} {sig : Signature} (hpush : f ≠ "array_push") (hpop : f ≠ "array_pop")
      (hf : table.lookup f = some sig) (hlen : args.length = sig.params.length)
      (hargs : ∀ a t, (a, t) ∈ args.zip sig.params → HasType table scope a t) :
      HasType table scope (.call (some sig.result) f args) sig.result

variable {t : Ty} {e : Expr Note}

theorem unaryType_cases {op : UnaryOp} {t u : Ty} (h : unaryType op t = .ok u) : u = t ∧ (t = .int ∨ t = .bool) := by
  unfold unaryType at h
  repeat' split at h
  all_goals cases h <;> simp [*]

/-- A binary operator gives a truth value, or a number from two numbers. -/
theorem binaryType_cases {op : BinaryOp} {t t' u : Ty} (h : binaryType op t t' = .ok u) :
    u = .bool ∨ u = .int ∧ (t = .int ∧ t' = .int) ∧ op ≠ .and ∧ op ≠ .or := by
  unfold binaryType at h
  repeat' split at h
  all_goals cases h <;> simp [*]

theorem HasType.note_eq {table : Signatures} {scope : Scope} (h : HasType table scope e t) : e.note = some t := by
  cases h <;> rfl

/-- The type of a declared variable: the written one, which its initial value must have, or else the type of that
value. -/
def DeclaredAs (table : Signatures) (scope : Scope) (written : Option String) (init : Option (Expr Note)) (t : Ty) :
    Prop :=
  (∀ e, init = some e → HasType table scope e t) ∧
    match Ty.written? written with
    | some name => t = Ty.ofName name
    | none => init ≠ none

/-- Statements that are accepted where `scope` is visible. -/
inductive Checked (table : Signatures) : Scope → List (Stmt Note) → Prop
  | nil {scope : Scope} : Checked table scope []
  | expr {scope : Scope} {e : Expr Note} {t : Ty} {ss : List (Stmt Note)} (he : HasType table scope e t)
      (hs : Checked table scope ss) : Checked table scope (.expr e :: ss)
  | decl {scope scope' : Scope} {x : String} {written : Option String} {init : Option (Expr Note)} {t : Ty}
      {ss : List (Stmt Note)} (ht : DeclaredAs table scope written init t) (hx : scope.declare? x t = some scope')
      (hs : Checked table scope' ss) : Checked table scope (.decl x written init :: ss)
  | assignVar {scope : Scope} {x : String} {e : Expr Note} {t : Ty} {ss : List (Stmt Note)}
      (hx : scope.resolve? x = some t) (he : HasType table scope e t) (hs : Checked table scope ss) :
      Checked table scope (.assign (.var none x) e :: ss)
  | assignIndex {scope : Scope} {a i e : Expr Note} {t : Ty} {ss : List (Stmt Note)}
      (ha : HasType table scope a t) (ht : t.isArray = true) (hi : HasType table scope i .int)
      (he : HasType table scope e .int) (hs : Checked table scope ss) :
      Checked table scope (.assign (.index none a i) e :: ss)
  | print {scope : Scope} {newline : Bool} {e : Expr Note} {t : Ty} {ss : List (Stmt Note)}
      (he : HasType table scope e t) (ht : t = .int ∨ t = .str) (hs : Checked table scope ss) :
      Checked table scope (.print newline e :: ss)
  | ret {scope : Scope} {value : Option (Expr Note)} {ss : List (Stmt Note)}
      (he : ∀ e, value = some e → ∃ t, HasType table scope e t) (hs : Checked table scope ss) :
      Checked table scope (.ret value :: ss)
  | asm {scope : Scope} {text : String} {ss : List (Stmt Note)} (hs : Checked table scope ss) :
      Checked table scope (.asm text :: ss)
  | vmAsm {scope : Scope} {text : String} {ss : List (Stmt Note)} (hs : Checked table scope ss) :
      Checked table scope (.vmAsm text :: ss)
  | cond {scope : Scope} {test : Expr Note} {yes : List (Stmt Note)} {no : Option (List (Stmt Note))} {t : Ty}
      {ss : List (Stmt Note)} (he : HasType table scope test t) (hyes : Checked table scope.enter yes)
      (hno : ∀ b, no = some b → Checked table scope.enter b) (hs : Checked table scope ss) :
      Checked table scope (.cond test yes no :: ss)
  | loop {scope : Scope} {test : Expr Note} {body : List (Stmt Note)} {t : Ty} {ss : List (Stmt Note)}
      (he : HasType table scope test t) (hbody : Checked table scope.enter body) (hs : Checked table scope ss) :
      Checked table scope (.loop test body :: ss)
  | block {scope : Scope} {body : List (Stmt Unit)} {ss : List (Stmt Note)} (hs : Checked table scope ss) :
      Checked table scope (.block (Stmt.annotateAll none body) :: ss)

variable {ss : List (Stmt Note)} {f : Function Note}

section Sound

variable {table : Signatures} {scope : Scope}

theorem checkArgs_sound {args : List (Expr Unit)}
    (h : ∀ a ∈ args, ∀ {e t}, checkExpr table scope a = .ok (e, t) → HasType table scope e t ∧ e.annotate () = a) :
    ∀ {params : List Ty} {es : List (Expr Note)}, args.length = params.length →
      checkArgs table scope params args = .ok es →
      (∀ e t, (e, t) ∈ es.zip params → HasType table scope e t) ∧ es.map (Expr.annotate ()) = args := by
  induction args with
  | nil =>
    intro params es hlen hes
    cases eq_nil_of_length_eq_zero hlen.symm
    cases hes
    simp
  | cons a args ih =>
    intro params es hlen hes
    cases params with
    | nil => simp at hlen
    | cons p params =>
      simp only [checkArgs, bind_eq_ok, require_eq_ok, pure_eq_ok, Prod.exists] at hes
      obtain ⟨e, t, he, -, ht, es', hes', rfl⟩ := hes
      simp only [decide_eq_true_eq] at ht
      subst ht
      obtain ⟨hall, hargs⟩ := ih (fun a ha => h a (by simp [ha])) (by simpa using hlen) hes'
      obtain ⟨he, ha⟩ := h a (by simp) he
      refine ⟨fun e' t' hmem => ?_, by rw [map_cons, ha, hargs]⟩
      rw [zip_cons_cons, mem_cons] at hmem
      rcases hmem with hmem | hmem
      · cases hmem
        exact he
      · exact hall e' t' hmem

/-- An expression that passes the check has the type that is found, and the notes are all that is added to it. -/
theorem checkExpr_sound {e₀ : Expr Unit} {e : Expr Note} {t : Ty} (h : checkExpr table scope e₀ = .ok (e, t)) :
    HasType table scope e t ∧ e.annotate () = e₀ := by
  induction e₀ using Expr.induction generalizing e t with
  | lit a v =>
    cases h
    exact ⟨.lit v, rfl⟩
  | var a x =>
    rw [checkExpr] at h
    split at h
    · cases h
      exact ⟨.var ‹_›, rfl⟩
    · cases h
  | unary a op e₀ ih =>
    simp only [checkExpr, bind_eq_ok, Prod.exists] at h
    obtain ⟨e', t', he, u, hu, rfl, rfl⟩ := h
    obtain ⟨he', rfl⟩ := ih he
    exact ⟨.unary he' hu, rfl⟩
  | binary a op l r ihl ihr =>
    simp only [checkExpr, bind_eq_ok, Prod.exists] at h
    obtain ⟨l', tl, hl, r', tr, hr, u, hu, rfl, rfl⟩ := h
    obtain ⟨hl', rfl⟩ := ihl hl
    obtain ⟨hr', rfl⟩ := ihr hr
    exact ⟨.binary hl' hr' hu, rfl⟩
  | index a x i ihx ihi =>
    simp only [checkExpr, bind_eq_ok, element_eq_ok, Prod.exists] at h
    obtain ⟨x', i', ⟨u, hx, hu, hi⟩, rfl, rfl⟩ := h
    obtain ⟨hx', rfl⟩ := ihx hx
    obtain ⟨hi', rfl⟩ := ihi hi
    exact ⟨.index hx' hu hi', rfl⟩
  | addrVar a b x =>
    rw [checkExpr] at h
    split at h
    · cases h
      exact ⟨.addrVar ‹_›, rfl⟩
    · cases h
  | addrIndex a b x i ihx ihi =>
    simp only [checkExpr, bind_eq_ok, element_eq_ok, Prod.exists] at h
    obtain ⟨x', i', ⟨u, hx, hu, hi⟩, rfl, rfl⟩ := h
    obtain ⟨hx', rfl⟩ := ihx hx
    obtain ⟨hi', rfl⟩ := ihi hi
    exact ⟨.addrIndex hx' hu hi', rfl⟩
  | addr a target hv hi _ =>
    rw [checkExpr] at h
    · cases h
    · exact hv
    · exact hi
  | call a f args ih =>
    by_cases hpush : f = "array_push"
    · subst hpush
      obtain ⟨x, n, v, rfl, h'⟩ := checkExpr_push h
      simp only [bind_eq_ok, require_eq_ok, Prod.exists, decide_eq_true_eq] at h'
      obtain ⟨x', u, hx, -, hu, n', _, hn, -, rfl, v', _, hv, -, rfl, rfl, rfl⟩ := h'
      obtain ⟨hx, hx₀⟩ := ih x (by simp) hx
      obtain ⟨hn, hn₀⟩ := ih n (by simp) hn
      obtain ⟨hv, hv₀⟩ := ih v (by simp) hv
      exact ⟨.push hx hu hn hv, by simp [Expr.annotate, Expr.annotateAll, hx₀, hn₀, hv₀]⟩
    by_cases hpop : f = "array_pop"
    · subst hpop
      obtain ⟨x, n, rfl, h'⟩ := checkExpr_pop h
      simp only [bind_eq_ok, require_eq_ok, Prod.exists, decide_eq_true_eq] at h'
      obtain ⟨x', u, hx, -, hu, n', _, hn, -, rfl, rfl, rfl⟩ := h'
      obtain ⟨hx, hx₀⟩ := ih x (by simp) hx
      obtain ⟨hn, hn₀⟩ := ih n (by simp) hn
      exact ⟨.pop hx hu hn, by simp [Expr.annotate, Expr.annotateAll, hx₀, hn₀]⟩
    rw [checkExpr_call hpush hpop] at h
    split at h
    · cases h
    · rename_i sig hsig
      simp only [bind_eq_ok, require_eq_ok, decide_eq_true_eq] at h
      obtain ⟨-, hlen, es, hes, rfl, rfl⟩ := h
      obtain ⟨hall', rfl⟩ := checkArgs_sound ih hlen hes
      exact ⟨.call hpush hpop hsig (by simpa using hlen) hall', by rw [Expr.annotate, Expr.annotateAll_eq_map]⟩
  | hole a => cases h

theorem checkOptional_sound {e₀ : Option (Expr Unit)} {o : Option Typed}
    (h : checkOptional table scope e₀ = .ok o) :
    (∀ e t, o = some (e, t) → HasType table scope e t) ∧ (o.map (·.1)).map (Expr.annotate ()) = e₀ := by
  cases e₀ with
  | none =>
    cases h
    simp
  | some e₀ =>
    simp only [checkOptional, bind_eq_ok, pure_eq_ok] at h
    obtain ⟨⟨e', t'⟩, he, rfl⟩ := h
    obtain ⟨he', rfl⟩ := checkExpr_sound he
    refine ⟨fun e t heq => ?_, rfl⟩
    cases heq
    exact he'

theorem declaredType_sound {x : String} {written : Option String} {o : Option Typed}
    (ho : ∀ e t, o = some (e, t) → HasType table scope e t) (h : declaredType x written o = .ok t) :
    DeclaredAs table scope written (o.map (·.1)) t := by
  unfold DeclaredAs
  cases hw : Ty.written? written with
  | some name =>
    cases o with
    | none =>
      simp only [declaredType, hw, Option.map_some, Except.ok.injEq] at h
      exact ⟨by simp, h.symm⟩
    | some p =>
      obtain ⟨e, u⟩ := p
      simp only [declaredType, hw, Option.map_some] at h
      split at h
      · cases h
        rename_i heq
        subst heq
        refine ⟨fun e' he' => ?_, rfl⟩
        cases he'
        exact ho _ _ rfl
      · cases h
  | none =>
    cases o with
    | none => simp [declaredType, hw] at h
    | some p =>
      simp only [declaredType, hw, Option.map_none, Except.ok.injEq] at h
      subst h
      refine ⟨fun e' he' => ?_, by simp⟩
      cases he'
      exact ho _ _ rfl

theorem checkAssign_sound {target value : Expr Unit} {s : Stmt Note}
    (h : checkAssign table scope target value = .ok s) :
    (∀ ss, Checked table scope ss → Checked table scope (s :: ss)) ∧ s.annotate () = .assign target value := by
  unfold checkAssign at h
  split at h
  · split at h
    · cases h
    · rename_i d hx
      simp only [bind_eq_ok, require_eq_ok, pure_eq_ok, Prod.exists, decide_eq_true_eq] at h
      obtain ⟨v, t, hv, -, rfl, rfl⟩ := h
      obtain ⟨hv', rfl⟩ := checkExpr_sound hv
      exact ⟨fun _ => .assignVar hx hv', rfl⟩
  · simp only [bind_eq_ok, require_eq_ok, pure_eq_ok, element_eq_ok, Prod.exists, decide_eq_true_eq] at h
    obtain ⟨a, i, ⟨u, ha, hu, hi⟩, v, _, hv, -, rfl, rfl⟩ := h
    obtain ⟨ha', rfl⟩ := checkExpr_sound ha
    obtain ⟨hi', rfl⟩ := checkExpr_sound hi
    obtain ⟨hv', rfl⟩ := checkExpr_sound hv
    exact ⟨fun _ => .assignIndex ha' hu hi' hv', rfl⟩
  · cases h

/-- Statements that pass the analysis obey the rules, and only notes are written on them. -/
theorem checkStmts_sound {ss₀ : List (Stmt Unit)} (h : checkStmts table scope ss₀ = .ok ss) :
    Checked table scope ss ∧ Stmt.annotateAll () ss = ss₀ := by
  induction ss₀ using Stmt.parts_induction (P := fun s₀ => ∀ scope s scope', checkStmt table scope s₀ = .ok (s, scope') →
      (∀ ss, Checked table scope' ss → Checked table scope (s :: ss)) ∧ s.annotate () = s₀) generalizing scope ss with
  | nil =>
    cases h
    exact ⟨.nil, rfl⟩
  | cons s₀ ss₀ ihs ih =>
    simp only [checkStmts, bind_eq_ok, pure_eq_ok, Prod.exists] at h
    obtain ⟨s, scope', hs, ss', hss, rfl⟩ := h
    obtain ⟨hs', rfl⟩ := ihs _ _ _ hs
    obtain ⟨hss', rfl⟩ := ih hss
    exact ⟨hs' _ hss', rfl⟩
  | expr e scope s scope' hs =>
    simp only [checkStmt, bind_eq_ok, Prod.exists] at hs
    obtain ⟨e', t, he, rfl, rfl⟩ := hs
    obtain ⟨he', rfl⟩ := checkExpr_sound he
    exact ⟨fun _ => .expr he', rfl⟩
  | decl x written init scope s scope' hs =>
    simp only [checkStmt, bind_eq_ok, declare_eq_ok] at hs
    obtain ⟨o, ho, t, ht, _, hx, rfl, rfl⟩ := hs
    obtain ⟨ho', rfl⟩ := checkOptional_sound ho
    exact ⟨fun _ => .decl (declaredType_sound ho' ht) hx, Stmt.annotate_decl ..⟩
  | assign target value scope s scope' hs =>
    simp only [checkStmt, bind_eq_ok] at hs
    obtain ⟨s', hs', rfl, rfl⟩ := hs
    exact checkAssign_sound hs'
  | print newline e scope s scope' hs =>
    simp only [checkStmt, bind_eq_ok, require_eq_ok, Prod.exists, Bool.or_eq_true,
      decide_eq_true_eq] at hs
    obtain ⟨e', t, he, -, ht, rfl, rfl⟩ := hs
    obtain ⟨he', rfl⟩ := checkExpr_sound he
    exact ⟨fun _ => .print he' ht, rfl⟩
  | ret value scope s scope' hs =>
    simp only [checkStmt, bind_eq_ok] at hs
    obtain ⟨o, ho, rfl, rfl⟩ := hs
    obtain ⟨ho', rfl⟩ := checkOptional_sound ho
    refine ⟨fun _ => .ret fun e he => ?_, Stmt.annotate_ret ..⟩
    obtain ⟨⟨e', t⟩, rfl, rfl⟩ := Option.map_eq_some_iff.1 he
    exact ⟨t, ho' _ _ rfl⟩
  | asm text scope s scope' hs =>
    cases hs
    exact ⟨fun _ => .asm, rfl⟩
  | vmAsm text scope s scope' hs =>
    cases hs
    exact ⟨fun _ => .vmAsm, rfl⟩
  | condThen test yes ihy scope s scope' hs =>
    simp only [checkStmt, bind_eq_ok, Prod.exists] at hs
    obtain ⟨e', t, he, yes', hyes, rfl, rfl⟩ := hs
    obtain ⟨he', rfl⟩ := checkExpr_sound he
    obtain ⟨hyes', rfl⟩ := ihy hyes
    exact ⟨fun _ => .cond he' hyes' (by simp), rfl⟩
  | cond test yes b ihy ihn scope s scope' hs =>
    simp only [checkStmt, bind_eq_ok, Prod.exists] at hs
    obtain ⟨e', t, he, yes', hyes, no', hno, rfl, rfl⟩ := hs
    obtain ⟨he', rfl⟩ := checkExpr_sound he
    obtain ⟨hyes', rfl⟩ := ihy hyes
    obtain ⟨hno', rfl⟩ := ihn hno
    refine ⟨fun _ => .cond he' hyes' fun b' hb' => ?_, rfl⟩
    cases hb'
    exact hno'
  | loop test body ihb scope s scope' hs =>
    simp only [checkStmt, bind_eq_ok, Prod.exists] at hs
    obtain ⟨e', t, he, body', hbody, rfl, rfl⟩ := hs
    obtain ⟨he', rfl⟩ := checkExpr_sound he
    obtain ⟨hbody', rfl⟩ := ihb hbody
    exact ⟨fun _ => .loop he' hbody', rfl⟩
  | block body ihb scope s scope' hs =>
    cases hs
    exact ⟨fun _ => .block, by rw [Stmt.annotate, Stmt.annotateAll_unit]⟩

theorem checkFunction_annotate {f₀ : Function Unit} (h : checkFunction table f₀ = .ok f) : f.annotate () = f₀ := by
  simp only [checkFunction, bind_eq_ok, pure_eq_ok] at h
  obtain ⟨scope, -, body, hbody, -, -, rfl⟩ := h
  simp [Function.annotate, (checkStmts_sound hbody).2]

end Sound

/-! ### Completeness -/

section Complete

variable {table : Signatures} {scope : Scope}

theorem checkArgs_complete {args : List (Expr Note)} : ∀ {params : List Ty}, args.length = params.length →
    (∀ a t, (a, t) ∈ args.zip params → checkExpr table scope (a.annotate ()) = .ok (a, t)) →
      checkArgs table scope params (Expr.annotateAll () args) = .ok args := by
  induction args with
  | nil =>
    intro params hlen _
    cases eq_nil_of_length_eq_zero hlen.symm
    rfl
  | cons a args ih =>
    intro params hlen h
    cases params with
    | nil => simp at hlen
    | cons p params =>
      have ha := h a p (by simp)
      have hargs := ih (by simpa using hlen) fun a' t ha' => h a' t (by simp [ha'])
      simp only [Expr.annotateAll, checkArgs, bind_eq_ok, require_eq_ok, Prod.exists]
      exact ⟨a, p, ha, (), by simp, args, hargs, rfl⟩

/-- A typed expression passes the check when its notes are taken off. -/
theorem HasType.check (h : HasType table scope e t) : checkExpr table scope (e.annotate ()) = .ok (e, t) := by
  induction h with
  | lit v => rfl
  | var hx => simp only [Expr.annotate, checkExpr, hx]
  | unary he hop ih =>
    simp only [Expr.annotate, checkExpr, bind_eq_ok, Prod.exists]
    exact ⟨_, _, ih, _, hop, rfl⟩
  | binary hl hr hop ihl ihr =>
    simp only [Expr.annotate, checkExpr, bind_eq_ok, Prod.exists]
    exact ⟨_, _, ihl, _, _, ihr, _, hop, rfl⟩
  | index ha ht hi iha ihi =>
    simp only [Expr.annotate, checkExpr, bind_eq_ok, element_eq_ok, Prod.exists]
    exact ⟨_, _, ⟨_, iha, ht, ihi⟩, rfl⟩
  | addrVar hx => simp only [Expr.annotate, checkExpr, hx]
  | addrIndex ha ht hi iha ihi =>
    simp only [Expr.annotate, checkExpr, bind_eq_ok, element_eq_ok, Prod.exists]
    exact ⟨_, _, ⟨_, iha, ht, ihi⟩, rfl⟩
  | push ha ht hn hv iha ihn ihv =>
    simp only [Expr.annotate, Expr.annotateAll, checkExpr, beq_self_eq_true, if_true, bind_eq_ok, require_eq_ok,
      Prod.exists]
    exact ⟨_, _, iha, (), ht, _, _, ihn, (), by simp, _, _, ihv, (), by simp, rfl⟩
  | pop ha ht hn iha ihn =>
    simp only [Expr.annotate, Expr.annotateAll, checkExpr, show ("array_pop" == "array_push") = false by decide,
      beq_self_eq_true, if_true, Bool.false_eq_true, if_false, bind_eq_ok, require_eq_ok, Prod.exists]
    exact ⟨_, _, iha, (), ht, _, _, ihn, (), by simp, rfl⟩
  | call hpush hpop hf hlen hargs ih =>
    rw [Expr.annotate, checkExpr_call hpush hpop]
    simp only [hf, bind_eq_ok, require_eq_ok, Expr.annotateAll_eq_map]
    refine ⟨(), by simpa using hlen, _, ?_, rfl⟩
    rw [← Expr.annotateAll_eq_map]
    exact checkArgs_complete hlen ih

theorem DeclaredAs.check {x : String} {written : Option String} {init : Option (Expr Note)}
    (h : DeclaredAs table scope written init t) :
    checkOptional table scope (init.map (Expr.annotate ())) = .ok (init.map (·, t)) ∧
      declaredType x written (init.map (·, t)) = .ok t := by
  obtain ⟨hinit, ht⟩ := h
  cases init with
  | none =>
    refine ⟨rfl, ?_⟩
    split at ht
    · rename_i name hname
      simp [declaredType, hname, ht]
    · exact absurd rfl ht
  | some e =>
    refine ⟨?_, ?_⟩
    · simp only [Option.map_some, checkOptional, bind_eq_ok]
      exact ⟨_, (hinit e rfl).check, rfl⟩
    · split at ht
      · rename_i name hname
        simp [declaredType, hname, ht]
      · rename_i hname
        simp [declaredType, hname]

theorem checkStmts_of_cons {s₀ : Stmt Unit} {ss₀ : List (Stmt Unit)} {s : Stmt Note}
    {scope' : Scope} (hs : checkStmt table scope s₀ = .ok (s, scope')) (hss : checkStmts table scope' ss₀ = .ok ss) :
    checkStmts table scope (s₀ :: ss₀) = .ok (s :: ss) := by
  simp only [checkStmts, bind_eq_ok, Prod.exists]
  exact ⟨s, scope', hs, ss, hss, rfl⟩

/-- Statements that are checked pass the check when their notes are taken off. -/
theorem Checked.check (h : Checked table scope ss) : checkStmts table scope (Stmt.annotateAll () ss) = .ok ss := by
  induction h with
  | nil => rfl
  | expr he hs ih =>
    refine checkStmts_of_cons ?_ ih
    simp only [Stmt.annotate, checkStmt, bind_eq_ok, Prod.exists]
    exact ⟨_, _, he.check, rfl⟩
  | @decl scope scope' x written init t ss ht hx hs ih =>
    refine checkStmts_of_cons ?_ ih
    obtain ⟨hinit, htype⟩ := ht.check
    simp only [Stmt.annotate_decl, checkStmt, bind_eq_ok, declare_eq_ok]
    exact ⟨_, hinit, _, htype, _, hx, by rw [Option.map_map]; cases init <;> rfl⟩
  | assignVar hx he hs ih =>
    refine checkStmts_of_cons ?_ ih
    simp only [Stmt.annotate, Expr.annotate, checkStmt, checkAssign, hx, bind_eq_ok, require_eq_ok,
      Prod.exists]
    exact ⟨_, ⟨_, _, he.check, (), by simp, rfl⟩, rfl⟩
  | assignIndex ha ht hi he hs ih =>
    refine checkStmts_of_cons ?_ ih
    simp only [Stmt.annotate, Expr.annotate, checkStmt, checkAssign, bind_eq_ok, require_eq_ok, element_eq_ok, Prod.exists]
    exact ⟨_, ⟨_, _, ⟨_, ha.check, ht, hi.check⟩, _, _, he.check, (), by simp, rfl⟩, rfl⟩
  | print he ht hs ih =>
    refine checkStmts_of_cons ?_ ih
    simp only [Stmt.annotate, checkStmt, bind_eq_ok, require_eq_ok, Prod.exists]
    exact ⟨_, _, he.check, (), by simpa using ht, rfl⟩
  | @ret scope value ss he hs ih =>
    refine checkStmts_of_cons ?_ ih
    simp only [Stmt.annotate_ret, checkStmt, bind_eq_ok]
    cases value with
    | none => exact ⟨none, rfl, rfl⟩
    | some e =>
      obtain ⟨t, ht⟩ := he e rfl
      refine ⟨some (e, t), ?_, rfl⟩
      simp only [Option.map_some, checkOptional, bind_eq_ok]
      exact ⟨_, ht.check, rfl⟩
  | asm hs ih | vmAsm hs ih => exact checkStmts_of_cons rfl ih
  | @cond scope test yes no t ss he hyes hno hs ihy ihn ih =>
    refine checkStmts_of_cons ?_ ih
    cases no with
    | none =>
      simp only [Stmt.annotate, checkStmt, bind_eq_ok, Prod.exists]
      exact ⟨_, _, he.check, _, ihy, rfl⟩
    | some no =>
      simp only [Stmt.annotate, checkStmt, bind_eq_ok, Prod.exists]
      exact ⟨_, _, he.check, _, ihy, _, ihn no rfl, rfl⟩
  | loop he hbody hs ihb ih =>
    refine checkStmts_of_cons ?_ ih
    simp only [Stmt.annotate, checkStmt, bind_eq_ok, Prod.exists]
    exact ⟨_, _, he.check, _, ihb, rfl⟩
  | @block scope body ss hs ih =>
    refine checkStmts_of_cons ?_ ih
    rw [Stmt.annotate, Stmt.annotateAll_unit]
    rfl

end Complete

/-! ### Programs -/

/-- The signatures of the built-in functions and of the functions `fs`. -/
def signatures {α : Type} (fs : List (Function α)) : Signatures :=
  Signatures.withBuiltins [] ++ fs.map fun f => (f.name, Signatures.ofFunction f)

/-- A function that is accepted. -/
structure CheckedFunction (table : Signatures) (f : Function Note) : Prop where
  body : ∃ scope, declareParams [[]] f.params (Signatures.ofFunction f).params = .ok scope ∧
    Checked table scope f.body
  returns : (Signatures.ofFunction f).result = .void ∨ f.body.any Stmt.isReturn = true

/-- Functions with names of their own. -/
structure Entered {α : Type} (fs : List (Function α)) : Prop where
  nodup : (fs.map (·.name)).Nodup
  fresh : ∀ f ∈ fs, (Signatures.withBuiltins []).lookup f.name = none

/-- A program that is accepted. -/
structure Accepted (prog : Program Note) : Prop where
  entered : Entered prog.functions
  main : "main" ∈ prog.functions.map (·.name)
  checked : ∀ f ∈ prog.functions, CheckedFunction (signatures prog.functions) f

section Signatures

variable {α : Type} {fs : List (Function α)}

theorem lookup_map_signature (hnodup : (fs.map (·.name)).Nodup) : ∀ f ∈ fs,
    (fs.map fun f => (f.name, ofFunction f)).lookup f.name = some (ofFunction f) := by
  induction fs with
  | nil => simp
  | cons g fs ih =>
    intro f hf
    rw [map_cons, nodup_cons] at hnodup
    rw [map_cons, lookup_cons]
    rcases mem_cons.1 hf with rfl | hf
    · simp
    · have hne : (f.name == g.name) = false := by
        rw [beq_eq_false_iff_ne]
        rintro heq
        exact hnodup.1 (heq ▸ mem_map_of_mem hf)
      rw [hne]
      exact ih hnodup.2 f hf

theorem Entered.lookup (h : Entered fs) {f : Function α} (hf : f ∈ fs) :
    (signatures fs).lookup f.name = some (ofFunction f) := by
  rw [signatures, lookup_append, h.fresh f hf, lookup_map_signature h.nodup f hf]
  rfl

theorem lookup_signatures {g : String} {sig : Signature} (h : (signatures fs).lookup g = some sig) :
    (withBuiltins []).lookup g = some sig ∨ ∃ f ∈ fs, f.name = g ∧ ofFunction f = sig := by
  rw [signatures, lookup_append, Option.or_eq_some_iff] at h
  rcases h with h | ⟨-, h⟩
  · exact .inl h
  · obtain ⟨f, hf, heq⟩ := mem_map.1 (mem_of_lookup h)
    cases heq
    exact .inr ⟨f, hf, rfl, rfl⟩

end Signatures

theorem enterFunctions_ok {fs : List (Function Unit)} : ∀ {table table' : Signatures} {u : Unit},
    enterFunctions table fs = (table', .ok u) →
      table' = table ++ fs.map (fun f => (f.name, ofFunction f)) ∧ (fs.map (·.name)).Nodup ∧
        ∀ f ∈ fs, table.lookup f.name = none := by
  induction fs with
  | nil =>
    intro table table' u h
    cases h
    simp
  | cons f fs ih =>
    intro table table' u h
    rw [enterFunctions] at h
    split at h
    · cases h
    · rename_i hf
      obtain ⟨rfl, hnodup, hfresh⟩ := ih h
      have hapart : ∀ g ∈ fs, table.lookup g.name = none ∧ g.name ≠ f.name := by
        intro g hg
        have hg' := hfresh g hg
        rw [lookup_append, Option.or_eq_none_iff] at hg'
        exact ⟨hg'.1, by simpa using hg'.2⟩
      refine ⟨by simp, ?_, ?_⟩
      · rw [map_cons, nodup_cons]
        refine ⟨fun hmem => ?_, hnodup⟩
        obtain ⟨g, hg, hname⟩ := mem_map.1 hmem
        exact (hapart g hg).2 hname
      · intro g hg
        rcases mem_cons.1 hg with rfl | hg
        · exact Option.not_isSome_iff_eq_none.1 hf
        · exact (hapart g hg).1

theorem enterFunctions_eq {fs : List (Function Unit)} : ∀ {table : Signatures}, (fs.map (·.name)).Nodup →
    (∀ f ∈ fs, table.lookup f.name = none) →
      enterFunctions table fs = (table ++ fs.map (fun f => (f.name, ofFunction f)), .ok ()) := by
  induction fs with
  | nil => intro table _ _; simp [enterFunctions]
  | cons f fs ih =>
    intro table hnodup hfresh
    rw [map_cons, nodup_cons] at hnodup
    rw [enterFunctions, hfresh f (by simp), ih hnodup.2]
    · simp
    · intro g hg
      have hne : (g.name == f.name) = false := by
        rw [beq_eq_false_iff_ne]
        rintro heq
        exact hnodup.1 (heq ▸ mem_map_of_mem hg)
      rw [lookup_append, hfresh g (by simp [hg]), lookup_cons, hne]
      rfl

theorem checkFunction_ok {table : Signatures} {f₀ : Function Unit}
    (h : checkFunction table f₀ = .ok f) (hsig : table.lookup f₀.name = some (ofFunction f₀)) :
    CheckedFunction table f := by
  simp only [checkFunction, hsig, bind_eq_ok, require_eq_ok, pure_eq_ok, Bool.or_eq_true,
    decide_eq_true_eq] at h
  obtain ⟨scope, hscope, body, hbody, -, hret, rfl⟩ := h
  obtain ⟨hbody, hnotes⟩ := checkStmts_sound hbody
  refine ⟨⟨scope, hscope, hbody⟩, ?_⟩
  rwa [← hnotes, Stmt.any_isReturn_annotateAll] at hret

theorem CheckedFunction.check {table : Signatures} (h : CheckedFunction table f)
    (hsig : table.lookup f.name = some (ofFunction f)) : checkFunction table (f.annotate ()) = .ok f := by
  obtain ⟨⟨scope, hscope, hbody⟩, hret⟩ := h
  simp only [checkFunction, Function.annotate, hsig, bind_eq_ok, require_eq_ok]
  refine ⟨scope, hscope, f.body, hbody.check, (), ?_, rfl⟩
  rw [Stmt.any_isReturn_annotateAll]
  simpa using hret

/-- The stages of a successful analysis. -/
theorem check_eq_ok {p : Program Unit} {prog : Program Note} : check p = .ok prog ↔
    Entered p.functions ∧ ((signatures p.functions).lookup "main").isSome = true ∧
      p.functions.mapM (checkFunction (signatures p.functions)) = .ok prog.functions := by
  constructor
  · intro h
    rcases he : enterFunctions (withBuiltins []) p.functions with ⟨table, entered⟩
    simp only [check, checkAfter, he, checkFunctions, bind_eq_ok, require_eq_ok, pure_eq_ok] at h
    obtain ⟨u, rfl, fs, ⟨-, hmain, hfs⟩, rfl⟩ := h
    obtain ⟨rfl, hnodup, hfresh⟩ := enterFunctions_ok he
    exact ⟨⟨hnodup, hfresh⟩, hmain, hfs⟩
  · rintro ⟨⟨hnodup, hfresh⟩, hmain, hfs⟩
    have he : enterFunctions (withBuiltins []) p.functions = (signatures p.functions, .ok ()) :=
      enterFunctions_eq hnodup hfresh
    simp only [check, checkAfter, he, checkFunctions, bind_eq_ok, require_eq_ok]
    exact ⟨(), trivial, prog.functions, ⟨(), hmain, hfs⟩, rfl⟩

section Annotated

variable {α β : Type} (b : β) (fs : List (Function α))

theorem names_annotate : (fs.map (Function.annotate b)).map (·.name) = fs.map (·.name) := by
  rw [map_map]
  rfl

theorem signatures_annotate : signatures (fs.map (Function.annotate b)) = signatures fs := by
  rw [signatures, map_map]
  rfl

theorem entered_annotate : Entered (fs.map (Function.annotate b)) ↔ Entered fs := by
  constructor
  · rintro ⟨hnodup, hfresh⟩
    exact ⟨names_annotate b fs ▸ hnodup, fun f hf => hfresh _ (mem_map_of_mem hf)⟩
  · rintro ⟨hnodup, hfresh⟩
    refine ⟨(names_annotate b fs).symm ▸ hnodup, fun f hf => ?_⟩
    obtain ⟨g, hg, rfl⟩ := mem_map.1 hf
    exact hfresh g hg

end Annotated

theorem checkFunctions_annotate {table : Signatures} {fs₀ : List (Function Unit)} {fs : List (Function Note)}
    (h : List.Forall₂ (fun f₀ f => checkFunction table f₀ = .ok f) fs₀ fs) :
    fs.map (Function.annotate ()) = fs₀ := by
  induction h with
  | nil => rfl
  | cons hf _ ih => rw [map_cons, checkFunction_annotate hf, ih]

theorem isSome_main {α : Type} {fs : List (Function α)} (h : Entered fs) :
    ((signatures fs).lookup "main").isSome = true ↔ "main" ∈ fs.map (·.name) := by
  constructor
  · intro hmain
    obtain ⟨sig, hsig⟩ := Option.isSome_iff_exists.1 hmain
    rcases lookup_signatures hsig with hb | ⟨f, hf, hname, -⟩
    · cases hb
    · exact hname ▸ mem_map_of_mem hf
  · intro hmem
    obtain ⟨f, hf, hname⟩ := mem_map.1 hmem
    rw [← hname, h.lookup hf]
    rfl

/-- **The analysis decides the rules**: it gives back a program exactly if that is the program it was given, with
notes that obey the rules. -/
theorem check_iff {p : Program Unit} {prog : Program Note} :
    check p = .ok prog ↔ prog.annotate () = p ∧ Accepted prog := by
  rw [check_eq_ok]
  constructor
  · rintro ⟨hentered, hmain, hfs⟩
    have herase := checkFunctions_annotate (mapM_eq_ok.1 hfs)
    refine ⟨by rw [Program.annotate, herase], ?_, ?_, fun f hf => ?_⟩
    · rwa [← herase, entered_annotate] at hentered
    · rwa [isSome_main hentered, ← herase, names_annotate] at hmain
    · obtain ⟨f₀, hf₀, hok⟩ := exists_of_mapM_ok hfs f hf
      rw [← signatures_annotate (), herase]
      exact checkFunction_ok hok (hentered.lookup hf₀)
  · rintro ⟨rfl, hentered, hmain, hchecked⟩
    refine ⟨(entered_annotate () _).2 hentered, ?_, ?_⟩
    · rw [Program.annotate, signatures_annotate]
      exact (isSome_main hentered).2 hmain
    · rw [Program.annotate, signatures_annotate, mapM_eq_ok, forall₂_map_left_iff]
      exact forall₂_same.2 fun f hf => (hchecked f hf).check (hentered.lookup hf)

end Workbench.Typing
