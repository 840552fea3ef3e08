import Workbench.Proofs.Notes
import Workbench.Proofs.Prediction

/-!
# What literals and names denote

A literal without a value is part of the tree, and so are negative literals and empty names of types, but no
program that is read holds one (`Program.Written.valued`).
-/

namespace Workbench

section Valued

variable {α β : Type}

mutual

/-- Every literal in the expression has a value, and no number is negative. -/
def Expr.valued : Expr α → Bool
  | .lit _ .none => false
  | .lit _ (.int n) => decide (0 ≤ n)
  | .lit _ _ | .var .. | .hole _ => true
  | .unary _ _ e | .addr _ e => e.valued
  | .binary _ _ l r | .index _ l r => l.valued && r.valued
  | .call _ _ args => Expr.allValued args
termination_by structural e => e

def Expr.allValued : List (Expr α) → Bool
  | [] => true
  | e :: es => e.valued && Expr.allValued es
termination_by structural es => es

end

mutual

/-- `Expr.valued` of all expressions in the statement. -/
def Stmt.valued : Stmt α → Bool
  | .expr e | .print _ e | .decl _ _ (some e) | .ret (some e) => e.valued
  | .assign t v => t.valued && v.valued
  | .decl _ _ none | .ret none | .asm _ | .vmAsm _ => true
  | .cond c yes none => c.valued && Stmt.allValued yes
  | .cond c yes (some no) => c.valued && Stmt.allValued yes && Stmt.allValued no
  | .loop c body => c.valued && Stmt.allValued body
  | .block body => Stmt.allValued body
termination_by structural s => s

/-- `Expr.valued` of all expressions in the statements. -/
def Stmt.allValued : List (Stmt α) → Bool
  | [] => true
  | s :: ss => s.valued && Stmt.allValued ss
termination_by structural ss => ss

end

/-- Every literal in the program has a value, no number is negative, and no name of a result type is empty. -/
def Program.valued (p : Program α) : Bool :=
  p.functions.all fun f => Stmt.allValued f.body && decide (f.returnType ≠ some "")

theorem Expr.allValued_eq (es : List (Expr α)) : Expr.allValued es = es.all Expr.valued := by
  induction es with
  | nil => rfl
  | cons e es ih => rw [Expr.allValued, ih, List.all_cons]

theorem Expr.valued_annotate (b : β) (e : Expr α) : (e.annotate b).valued = e.valued := by
  induction e using Expr.induction with
  | lit a v => cases v <;> rfl
  | var | addrVar | hole => rfl
  | unary a op e ih => exact ih
  | binary a op l r ihl ihr | index a l r ihl ihr | addrIndex a b l r ihl ihr =>
    simp only [Expr.annotate, Expr.valued, ihl, ihr]
  | call a f args ih =>
    simp only [Expr.annotate, Expr.valued, Expr.allValued_eq, Expr.annotateAll_eq_map, List.all_map]
    rw [Bool.eq_iff_iff, List.all_eq_true, List.all_eq_true]
    exact forall₂_congr fun e he => by rw [Function.comp_apply, ih e he]
  | addr a t _ _ ih => exact ih

theorem Stmt.allValued_annotateAll (b : β) (ss : List (Stmt α)) :
    Stmt.allValued (Stmt.annotateAll b ss) = Stmt.allValued ss := by
  induction ss using Stmt.parts_induction (P := fun s => (s.annotate b).valued = s.valued) with
  | nil => rfl
  | cons s ss ihs ih => rw [Stmt.annotateAll, Stmt.allValued, Stmt.allValued, ihs, ih]
  | decl x t init => cases init <;> simp only [Stmt.annotate, Stmt.valued, Expr.valued_annotate]
  | ret v => cases v <;> simp only [Stmt.annotate, Stmt.valued, Expr.valued_annotate]
  | cond test yes no ihy ihn => simp only [Stmt.annotate, Stmt.valued, Expr.valued_annotate, ihy, ihn]
  | condThen test body ihb | loop test body ihb => simp only [Stmt.annotate, Stmt.valued, Expr.valued_annotate, ihb]
  | block body ihb => simp only [Stmt.annotate, Stmt.valued, ihb]
  | _ => simp only [Stmt.annotate, Stmt.valued, Expr.valued_annotate]

end Valued

/-! ### Programs that are read -/

theorem Expr.Written.valued {e : Expr Unit} (h : e.Written) : e.valued = true := by
  induction h with
  | int n => exact decide_eq_true (Int.natCast_nonneg n)
  | bool | str | var => rfl
  | unary _ _ ih | addr _ ih => exact ih
  | binary _ _ _ ihl ihr | index _ _ ihl ihr => rw [Expr.valued, ihl, ihr]; rfl
  | call _ _ ih =>
    rw [Expr.valued, Expr.allValued_eq, List.all_eq_true]
    exact ih

theorem Stmt.allValued_eq {α : Type} (ss : List (Stmt α)) : Stmt.allValued ss = ss.all Stmt.valued := by
  induction ss with
  | nil => rfl
  | cons s ss ih => rw [Stmt.allValued, ih, List.all_cons]

theorem Stmt.Written.valued {s : Stmt Unit} (h : s.Written) : s.valued = true := by
  have hall : ∀ {ss : List (Stmt Unit)}, (∀ s ∈ ss, s.valued = true) → Stmt.allValued ss = true := by
    intro ss hss
    rw [Stmt.allValued_eq, List.all_eq_true]
    exact hss
  induction h with
  | expr he | print he => exact he.valued
  | @decl x t? init? _ _ hinit =>
    cases init? with
    | none => rfl
    | some e => exact (hinit e rfl).valued
  | assign he hv => rw [Stmt.valued, he.valued, hv.valued]; rfl
  | @ret value? hvalue =>
    cases value? with
    | none => rfl
    | some e => exact (hvalue e rfl).valued
  | asm | vmAsm => rfl
  | @cond c yes no? hc _ _ ihyes ihno =>
    cases no? with
    | none => rw [Stmt.valued, hc.valued, hall ihyes]; rfl
    | some no => rw [Stmt.valued, hc.valued, hall ihyes, hall (ihno no rfl)]; rfl
  | loop hc _ ihbody => rw [Stmt.valued, hc.valued, hall ihbody]; rfl

theorem IsType.ne_empty {x : String} (h : IsType x) : x ≠ "" := by
  cases h with
  | word h =>
    rintro rfl
    simp at h
  | name h => exact h.ne_empty
  | sized n => simp

theorem Program.Written.valued {p : Program Unit} (h : p.Written) : p.valued = true := by
  rw [Program.valued, List.all_eq_true]
  intro f hf
  rw [Bool.and_eq_true, Stmt.allValued_eq, List.all_eq_true, decide_eq_true_eq]
  refine ⟨fun s hs => ((h f hf).body s hs).valued, fun hempty => ?_⟩
  exact ((h f hf).result "" hempty).ne_empty rfl

theorem Program.valued_annotate {α β : Type} (b : β) (p : Program α) : (p.annotate b).valued = p.valued := by
  rw [Program.valued, Program.annotate, List.all_map, Program.valued]
  congr 1
  funext f
  simp only [Function.comp_apply, Function.annotate, Stmt.allValued_annotateAll]
  rfl

end Workbench
