import Workbench.Proofs.Link

/-!
# What the shape of code depends on

The shape of the code of a function depends on which functions are known only as far as it calls them
(`View.stmts_known`), and without string literals its code refers to no strings (`View.strings_stmts`). A run
depends on the numbers of strings only where they are pushed or where strings are printed by number: libraries
that differ in nothing else run alike (`Library.Agree.exec`).
-/

open List

namespace Workbench

section Traversal

variable {α : Type}

mutual

/-- The functions that an expression calls. -/
def Expr.callees : Expr α → List String
  | .lit .. | .var .. | .hole _ => []
  | .unary _ _ e | .addr _ e => e.callees
  | .binary _ _ l r | .index _ l r => l.callees ++ r.callees
  | .call _ f args => f :: Expr.allCallees args
termination_by structural e => e

/-- The functions that expressions call. -/
def Expr.allCallees : List (Expr α) → List String
  | [] => []
  | e :: es => e.callees ++ Expr.allCallees es
termination_by structural es => es

end

theorem Expr.allCallees_eq (es : List (Expr α)) : Expr.allCallees es = es.flatMap Expr.callees := by
  induction es with
  | nil => rfl
  | cons e es ih => rw [allCallees, ih, flatMap_cons]

namespace Stmt

/-- The functions that statements call. -/
def callees (ss : List (Stmt α)) : List String := (exprs ss ++ prints ss).flatMap Expr.callees

/-- Statements without string literals. -/
def textless (ss : List (Stmt α)) : Bool := (exprs ss ++ prints ss).all Expr.textless

end Stmt

end Traversal

/-- What is printed is a string literal, or has none in it and is no string. -/
def Expr.spoken : Expr Typing.Note → Bool
  | .lit (some .str) (.str _) => true
  | e => e.textless && decide (e.note ≠ some .str)

/-- String literals are printed where they are written, and no other strings are printed. -/
def Stmt.spoken (ss : List (Stmt Typing.Note)) : Bool :=
  (Stmt.exprs ss).all Expr.textless && (Stmt.prints ss).all Expr.spoken

end Workbench

namespace Workbench.Bytecode

open Machine (Instr Op)
open Typing (Note)
open View

/-! ### Which functions are known -/

section Known

variable {α : Type} {slots : Slots} {known known' : String → Bool}

theorem View.call_known {f : String} (h : known f = known' f) (base : Option Nat) (as : List Shape) :
    call ⟨slots, known⟩ f base as = call ⟨slots, known'⟩ f base as := by
  fun_cases call ⟨slots, known⟩ f base as
  case case11 hf | case12 hf =>
    rw [call]
    · simp_all
    all_goals assumption
  all_goals rfl

/-- The shape of an expression depends on what is known of its callees only. -/
theorem View.expr_known {e : Expr α} (h : ∀ f ∈ e.callees, known f = known' f) :
    expr ⟨slots, known⟩ e = expr ⟨slots, known'⟩ e := by
  induction e using Expr.induction with
  | lit a l => cases l <;> rfl
  | var a x => rfl
  | unary a o e ih => rw [expr, expr, ih h]
  | binary a o l r ihl ihr =>
    rw [Expr.callees] at h
    have hl := ihl fun f hf => h f (mem_append_left _ hf)
    have hr := ihr fun f hf => h f (mem_append_right _ hf)
    cases o with
    | and | or => rw [expr, expr, hl, hr]
    | _ => simp only [expr, hl, hr]
  | call a f as ih =>
    rw [Expr.callees, Expr.allCallees_eq] at h
    rw [expr, expr, args_eq_map, args_eq_map]
    have hargs : as.map (expr ⟨slots, known⟩) = as.map (expr ⟨slots, known'⟩) :=
      map_congr_left fun e he => ih e he fun g hg =>
        h g (mem_cons_of_mem _ (mem_flatMap.2 ⟨e, he, hg⟩))
    rw [hargs]
    exact call_known (h f (by simp)) _ _
  | index a x i _ ih | addrIndex a b x i _ ih =>
    simp only [Expr.callees] at h
    rw [expr, expr, ih fun f hf => h f (mem_append_right _ hf)]
    rfl
  | addrVar => rfl
  | addr a t hv hi _ =>
    rw [expr, expr]
    all_goals assumption
  | hole a => rfl

theorem fits_of_callees {v : View} {e : Expr α} (h : e.callees = []) : (v.expr e).Fits fun _ => False := by
  have hknown : v.expr e = expr ⟨v.slots, fun _ => false⟩ e := expr_known (by simp [h])
  rw [hknown]
  exact expr_fits (fun _ hf => absurd hf Bool.false_ne_true) e

theorem View.assign_known {target value : Expr α} (htarget : ∀ f ∈ target.callees, known f = known' f)
    (hvalue : ∀ f ∈ value.callees, known f = known' f) :
    assign ⟨slots, known⟩ target value = assign ⟨slots, known'⟩ target value := by
  unfold assign
  rw [expr_known hvalue]
  cases target with
  | index a x i =>
    dsimp only
    rw [expr_known fun f hf => htarget f (mem_append_right _ hf)]
    rfl
  | _ => rfl

/-- The shape of statements depends on what is known of their callees only. -/
theorem View.stmts_known (ss : List (Stmt Note)) (hexprs : ∀ e ∈ Stmt.exprs ss, ∀ f ∈ e.callees, known f = known' f)
    (hprints : ∀ e ∈ Stmt.prints ss, ∀ f ∈ e.callees, known f = known' f) :
    stmts ⟨slots, known⟩ ss = stmts ⟨slots, known'⟩ ss := by
  induction ss using Stmt.parts_induction (P := fun s => (∀ e ∈ s.exprsOf, ∀ f ∈ e.callees, known f = known' f) →
      (∀ e ∈ s.printsOf, ∀ f ∈ e.callees, known f = known' f) →
      stmt ⟨slots, known⟩ s = stmt ⟨slots, known'⟩ s) with
  | nil => rfl
  | cons s ss ihs ih =>
    simp only [Stmt.exprs, Stmt.prints, forall_mem_append] at hexprs hprints
    rw [stmts, stmts, ihs hexprs.1 hprints.1, ih hexprs.2 hprints.2]
  | expr e hexprs => simp only [stmt, expr_known (hexprs e (by simp [Stmt.exprsOf]))]
  | decl x t init hexprs =>
    cases init with
    | none => rfl
    | some e => simp only [stmt, decl, Option.map_some, expr_known (hexprs e (by simp [Stmt.exprsOf]))]
  | assign t e hexprs =>
    simp only [Stmt.exprsOf, forall_mem_cons] at hexprs
    simp only [stmt, assign_known hexprs.1 hexprs.2.1]
  | print nl e _ hprints =>
    simp only [stmt]
    unfold print
    split
    · rfl
    · rw [expr_known (hprints e (by simp [Stmt.printsOf]))]
  | ret e hexprs =>
    cases e with
    | none => rfl
    | some e => simp only [stmt, expr_known (hexprs e (by simp [Stmt.exprsOf]))]
  | cond c yes b ihy ihn hexprs hprints =>
    simp only [Stmt.exprsOf, Stmt.printsOf, forall_mem_append, forall_mem_cons] at hexprs hprints
    simp only [stmt, expr_known hexprs.1, ihy hexprs.2.1 hprints.1, ihn hexprs.2.2 hprints.2]
  | condThen c body ihb hexprs hprints | loop c body ihb hexprs hprints =>
    simp only [Stmt.exprsOf, forall_mem_cons] at hexprs
    simp only [stmt, expr_known hexprs.1, ihb hexprs.2 hprints]
  | _ => rfl

end Known

/-! ### Shapes without strings -/

/-- The instructions that tell no strings apart. -/
def Unspoken (i : Instr) : Prop := i.op ≠ .printStr ∧ i.op ≠ .printlnStr

theorem Slots.Emits.unspoken {s : Slots} {neg : Prop} {xs ds : List String} {i : Instr} (h : s.Emits neg xs ds i) :
    Unspoken i := by
  cases h with
  | op ho =>
    have hall : ∀ o ∈ bareOps, o ≠ .printStr ∧ o ≠ .printlnStr := by decide
    exact hall _ ho
  | _ => simp [Unspoken]

theorem View.Closed.expr_of_textless {α : Type} {v : View} {P : Shape → Prop} (h : v.Closed Unspoken P) {e : Expr α}
    (he : e.textless = true) : P (v.expr e) := by
  have hemits : v.Closed (v.slots.Emits True e.pushTargets []) P := h.mono fun _ hi => hi.unspoken
  exact hemits.expr e (.inl trivial) (List.Subset.refl _) (.inr he)

theorem View.ClosedAll.stmts_of_textless {v : View} {P : Shape → Prop} (h : v.ClosedAll Unspoken P)
    {ss : List (Stmt Note)} (hexprs : ∀ e ∈ Stmt.exprs ss, e.textless = true)
    (hprints : ∀ e ∈ Stmt.prints ss, ∀ newline, P (v.print newline e)) : P (v.stmts ss) := by
  have hemits : v.ClosedAll (v.slots.Emits True (Stmt.stored ss) ((Stmt.decls ss).map (·.1))) P :=
    { h with instr := fun i hi => h.instr i hi.unspoken }
  exact hemits.stmts ss (.inl trivial) (List.Subset.refl _) (fun d => mem_map_of_mem)
    (.inr ⟨hexprs, hprints⟩)

theorem View.closed_strings (v : View) : v.ClosedAll Unspoken fun s => s.strings = [] where
  skip := rfl
  instr _ _ := rfl
  call _ _ := rfl
  ret := rfl
  seq ha hb := by rw [Shape.strings, ha, hb]; rfl
  circuit ha := ha
  branch ha hb := by rw [Shape.strings, ha, hb]; rfl
  loop ha hb := by rw [Shape.strings, ha, hb]; rfl
  drop ha := ha

theorem View.strings_stmts {v : View} {ss : List (Stmt Note)} (h : Stmt.textless ss = true) :
    (v.stmts ss).strings = [] := by
  simp only [Stmt.textless, all_eq_true, forall_mem_append] at h
  refine v.closed_strings.stmts_of_textless h.1 fun e he newline => ?_
  unfold print
  split
  · simpa [Expr.textless] using h.2 _ he
  · split
    · rw [Shape.strings, v.closed_strings.expr_of_textless (h.2 e he)]
      rfl
    · rfl

/-! ### Libraries that agree -/

namespace Shape

/-- The shape does not tell the two libraries apart, where its first string has the number `k` with the one and `k'`
with the other. -/
def Stable (lib lib' : Library) : Shape → (k k' : Nat) → Prop
  | .instr i, _, _ => ∀ a : Act, a.perform lib i = a.perform lib' i
  | .text _, k, k' => k = k'
  | .seq s t, k, k' | .branch s t, k, k' | .loop s t, k, k' =>
    s.Stable lib lib' k k' ∧ t.Stable lib lib' (k + s.strings.length) (k' + s.strings.length)
  | .circuit _ s, k, k' | .drop s, k, k' => s.Stable lib lib' k k'
  | .skip, _, _ | .say .., _, _ | .call _, _, _ | .ret, _, _ => True

variable {lib lib' : Library}

theorem closed_stable (v : View) (lib lib' : Library) :
    v.ClosedAll Unspoken fun s => ∀ k k', s.Stable lib lib' k k' where
  skip _ _ := trivial
  instr i hi _ _ a := by
    obtain ⟨op, arg⟩ := i
    cases op
    case printStr => exact absurd rfl hi.1
    case printlnStr => exact absurd rfl hi.2
    all_goals rfl
  call _ _ _ _ := trivial
  ret _ _ := trivial
  seq ha hb k k' := ⟨ha k k', hb _ _⟩
  circuit ha := ha
  branch ha hb k k' := ⟨ha k k', hb _ _⟩
  loop ha hb k k' := ⟨ha k k', hb _ _⟩
  drop ha := ha

/-- With the same strings, shapes are told apart by the numbers of their strings only. -/
theorem stable_of_strings (h : lib.strings = lib'.strings) (s : Shape) :
    ∀ k k', k = k' ∨ s.strings = [] → s.Stable lib lib' k k' := by
  induction s with
  | skip | say | call | ret => exact fun _ _ _ => trivial
  | instr i =>
    intro _ _ _ a
    rw [Act.perform, Library.image, h]
    rfl
  | text s => exact fun k k' hk => hk.resolve_right (by simp [strings])
  | seq s t ihs iht | branch s t ihs iht | loop s t ihs iht =>
    intro k k' hk
    rw [strings, append_eq_nil_iff] at hk
    exact ⟨ihs k k' (hk.imp_right (·.1)), iht _ _ (hk.imp (by rintro rfl; rfl) (·.2))⟩
  | circuit d s ih | drop s ih => exact ih

end Shape

/-- The routines of the two libraries are the same, but for numbers of strings that they do not use. -/
structure Library.Agree (lib lib' : Library) (known : String → Prop) : Prop where
  routine : ∀ f, known f → lib'.routine f = { lib.routine f with string := (lib'.routine f).string }
  fits : ∀ f, known f → (lib.routine f).body.Fits known
  stable : ∀ f, known f →
    (lib.routine f).body.Stable lib lib' (lib.routine f).string (lib'.routine f).string

section Agree

variable {lib lib' : Library} {known : String → Prop} {deeper deeper' : Nat → Shape → Act → Result Act}

/-- What a step deeper does not tell apart, runs do not tell apart. -/
theorem Shape.run_agree (hcall : ∀ f, known f → ∀ a : Act,
      a.enter (lib.routine f) (deeper (lib.routine f).string (lib.routine f).body) =
        a.enter (lib'.routine f) (deeper' (lib'.routine f).string (lib'.routine f).body))
    (hgo : ∀ s : Shape, s.Fits known → ∀ k k', s.Stable lib lib' k k' → ∀ a, deeper k s a = deeper' k' s a)
    (s : Shape) : s.Fits known → ∀ k k', s.Stable lib lib' k k' → ∀ a,
      s.run lib deeper k a = s.run lib' deeper' k' a := by
  induction s with
  | skip | say | ret => exact fun _ _ _ _ _ => rfl
  | instr i => exact fun _ _ _ h => h
  | text s =>
    rintro - k _ rfl a
    rfl
  | call f => exact fun hf _ _ _ => hcall f hf
  | seq s t ihs iht =>
    intro hfits k k' h a
    rw [run, run, ihs hfits.1 k k' h.1 a, funext (iht hfits.2 _ _ h.2)]
  | circuit d s ih =>
    intro hfits k k' h a
    rw [run, run]
    simp only [ih hfits k k' h]
  | branch s t ihs iht =>
    intro hfits k k' h a
    rw [run, run]
    simp only [ihs hfits.1 k k' h.1, iht hfits.2 _ _ h.2]
  | loop s t ihs iht =>
    intro hfits k k' h a
    rw [run, run, ihs hfits.1 k k' h.1 a]
    simp only [iht hfits.2 _ _ h.2, funext (hgo _ hfits k k' h)]
  | drop s ih =>
    intro hfits k k' h a
    rw [run, run, ih hfits k k' h a]

theorem Library.Agree.exec (h : lib.Agree lib' known) (n : Nat) : ∀ s : Shape, s.Fits known →
    ∀ k k', s.Stable lib lib' k k' → ∀ a, s.exec lib n k a = s.exec lib' n k' a := by
  induction n with
  | zero => exact fun _ _ _ _ _ _ => rfl
  | succ n ih =>
    refine Shape.run_agree (fun f hf a => ?_) ih
    rw [h.routine f hf]
    simp only [Act.enter, ih _ (h.fits f hf) _ _ (h.stable f hf)]
    rfl

theorem Library.Agree.start (h : lib.Agree lib' known) {f : String} (hf : known f) (n : Nat) :
    (lib.routine f).start lib n = (lib'.routine f).start lib' n := by
  rw [h.routine f hf, Routine.start, Routine.start, h.exec n _ (h.fits f hf) _ _ (h.stable f hf)]
  rfl

end Agree

/-- Printing string literals where they are written does not tell libraries apart. -/
theorem View.stable_of_spoken {v : View} {ss : List (Stmt Note)} (h : Stmt.spoken ss = true) (lib lib' : Library) :
    ∀ k k', (v.stmts ss).Stable lib lib' k k' := by
  simp only [Stmt.spoken, Bool.and_eq_true, all_eq_true] at h
  have hclosed := Shape.closed_stable v lib lib'
  refine hclosed.stmts_of_textless h.1 fun e he newline k k' => ?_
  have hspoken := h.2 e he
  unfold print
  split
  · trivial
  · rename_i hlit
    rw [Expr.spoken, Bool.and_eq_true, decide_eq_true_eq] at hspoken
    · split
      · rename_i t ht
        have hprint : printOp newline t ≠ .printStr ∧ printOp newline t ≠ .printlnStr := by
          have hstr : t ≠ .str := fun hstr => hspoken.2 (hstr ▸ ht)
          cases newline <;> simp [printOp, hstr]
        exact ⟨hclosed.expr_of_textless hspoken.1 k k', hclosed.instr ⟨_, none⟩ hprint _ _⟩
      · trivial
    · exact hlit

end Workbench.Bytecode
