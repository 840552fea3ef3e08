import Workbench.Proofs.Syntax
import Workbench.Typing.Check

/-!
# Notes

The analysis writes the types that it finds into the program as notes. The notes of a program can be replaced or taken
away, and the first lemmas of the analysis take its successes apart.
-/

namespace Workbench

section Annotate

variable {α β : Type}

namespace Expr

theorem annotateAll_eq_map (b : β) (es : List (Expr α)) : annotateAll b es = es.map (annotate b) := by
  induction es with
  | nil => rfl
  | cons e es ih => rw [annotateAll, ih, List.map_cons]

theorem annotate_unit (b : β) (e : Expr Unit) : (e.annotate b).annotate () = e := by
  induction e using Expr.induction with
  | lit | var | addrVar | hole => rfl
  | unary a op e ih => simp only [annotate, ih]
  | binary a op l r ihl ihr | index a l r ihl ihr | addrIndex a b l r ihl ihr => simp only [annotate, ihl, ihr]
  | call a f args ih =>
    simp only [annotate, annotateAll_eq_map, List.map_map, call.injEq, true_and]
    exact (List.map_congr_left ih).trans (List.map_id' args)
  | addr a t _ _ ih => simp only [annotate, ih]

end Expr

namespace Stmt

theorem annotateAll_unit (b : β) (ss : List (Stmt Unit)) : annotateAll () (annotateAll b ss) = ss := by
  induction ss using Stmt.parts_induction (P := fun s => (s.annotate b).annotate () = s) with
  | nil => rfl
  | cons s ss ihs ih => rw [annotateAll, annotateAll, ihs, ih]
  | decl x t init => cases init <;> simp only [annotate, Expr.annotate_unit]
  | ret v => cases v <;> simp only [annotate, Expr.annotate_unit]
  | cond test yes no ihy ihn => simp only [annotate, Expr.annotate_unit, ihy, ihn]
  | condThen test body ihb | loop test body ihb => simp only [annotate, Expr.annotate_unit, ihb]
  | block body ihb => simp only [annotate, ihb]
  | _ => simp only [annotate, Expr.annotate_unit]

theorem any_isReturn_annotateAll (b : β) (ss : List (Stmt α)) : (annotateAll b ss).any isReturn = ss.any isReturn := by
  induction ss with
  | nil => rfl
  | cons s ss ih =>
    have hs : (s.annotate b).isReturn = s.isReturn := by
      cases s with
      | decl x t init => cases init <;> rfl
      | ret v => cases v <;> rfl
      | cond c t e => cases e <;> rfl
      | _ => rfl
    rw [annotateAll, List.any_cons, List.any_cons, hs, ih]

end Stmt

end Annotate

namespace Typing

theorem require_eq_ok {c : Bool} {e : SemanticError} {u : Unit} : require c e = .ok u ↔ c = true := by
  unfold require
  split <;> simp [*]

theorem element_eq_ok {notArray : SemanticError} {array index : Except SemanticError Typed} {p : Expr Note × Expr Note} :
    element notArray array index = .ok p ↔
      ∃ t, array = .ok (p.1, t) ∧ t.isArray = true ∧ index = .ok (p.2, .int) := by
  obtain ⟨a, i⟩ := p
  simp only [element, bind_eq_ok, require_eq_ok, pure_eq_ok, Prod.exists, Prod.mk.injEq]
  constructor
  · rintro ⟨a', t, ha, -, ht, i', u, hi, -, hu, rfl, rfl⟩
    simp only [decide_eq_true_eq] at hu
    exact ⟨t, ha, ht, hu ▸ hi⟩
  · rintro ⟨t, ha, ht, hi⟩
    exact ⟨a, t, ha, (), ht, i, .int, hi, (), by simp, rfl, rfl⟩

section Analysis

variable {table : Signatures} {scope : Scope}

variable {args : List (Expr Unit)} {a : Unit} {r : Typed}

theorem checkExpr_call {f : String} (hpush : f ≠ "array_push") (hpop : f ≠ "array_pop") :
    checkExpr table scope (.call a f args) = match table.lookup f with
      | none => .error (.undeclaredFunction f)
      | some sig => do
        require (args.length = sig.params.length) (.arity f sig.params.length args.length)
        let args' ← checkArgs table scope sig.params args
        return (.call (some sig.result) f args', sig.result) := by
  rcases args with _ | ⟨x, _ | ⟨n, _ | ⟨v, _ | ⟨w, r⟩⟩⟩⟩
  all_goals
    rewrite [checkExpr]
    · rewrite [if_neg (by simpa using hpush), if_neg (by simpa using hpop)]
      rfl
    all_goals simp

theorem checkExpr_push (h : checkExpr table scope (.call a "array_push" args) = .ok r) : ∃ x n v, args = [x, n, v] ∧ (do
      let (x', xt) ← checkExpr table scope x
      require xt.isArray .pushArray
      let (n', nt) ← checkExpr table scope n
      require (nt = .int) .pushLength
      let (v', vt) ← checkExpr table scope v
      require (vt = .int) .pushValue
      return (.call (some .int) "array_push" [x', n', v'], .int)) = Except.ok r := by
  rcases args with _ | ⟨x, _ | ⟨n, _ | ⟨v, _ | ⟨w, l⟩⟩⟩⟩
  case cons.cons.cons.nil => exact ⟨x, n, v, rfl, h⟩
  all_goals simp [checkExpr] at h

theorem checkExpr_pop (h : checkExpr table scope (.call a "array_pop" args) = .ok r) : ∃ x n, args = [x, n] ∧ (do
      let (x', xt) ← checkExpr table scope x
      require xt.isArray .popArray
      let (n', nt) ← checkExpr table scope n
      require (nt = .int) .popLength
      return (.call (some .int) "array_pop" [x', n'], .int)) = Except.ok r := by
  rcases args with _ | ⟨x, _ | ⟨n, _ | ⟨v, _ | ⟨w, l⟩⟩⟩⟩
  case cons.cons.nil => exact ⟨x, n, rfl, h⟩
  all_goals simp [checkExpr] at h

theorem declare_eq_ok {scope scope' : Scope} {x : String} {t : Ty} :
    declare scope x t = .ok scope' ↔ scope.declare? x t = some scope' := by
  unfold declare
  split <;> simp [*]

theorem Stmt.annotate_decl {α β : Type} (b : β) (x : String) (t : Option String) (init : Option (Expr α)) :
    (Stmt.decl x t init).annotate b = .decl x t (init.map (Expr.annotate b)) := by
  cases init <;> rfl

theorem Stmt.annotate_ret {α β : Type} (b : β) (v : Option (Expr α)) :
    (Stmt.ret v).annotate b = .ret (v.map (Expr.annotate b)) := by
  cases v <;> rfl

end Analysis

end Typing

end Workbench
