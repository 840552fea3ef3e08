import Mathlib.Logic.Equiv.Basic
import Workbench.Proofs.Link
import Workbench.Proofs.Slots

/-!
# Names of variables

Scopes give every block names of its own, but a function has one slot for each name. So renaming one declaration, with
the uses that it binds (`Stmt.renameLet`), changes nothing as long as the name is declared once in the function: then
every use is bound by that declaration, the whole function is renamed, and renaming all of it by an injection
leaves its types and the shape of its code alone (`renamed_behaviour`).
-/

open List

namespace Workbench

def replace (x y : String) (z : String) : String := if z = x then y else z

/-- The names of variables where `x` is to be called `y` if it is `bound`. -/
def rebind (x y : String) (bound : Bool) : String → String := if bound then replace x y else id

section Rename

variable {α β : Type}

mutual

/-- The expression with its variables renamed. -/
def Expr.rename (ρ : String → String) : Expr α → Expr α
  | .lit a v => .lit a v
  | .var a x => .var a (ρ x)
  | .unary a op e => .unary a op (e.rename ρ)
  | .binary a op l r => .binary a op (l.rename ρ) (r.rename ρ)
  | .call a f args => .call a f (Expr.renameAll ρ args)
  | .index a x i => .index a (x.rename ρ) (i.rename ρ)
  | .addr a t => .addr a (t.rename ρ)
  | .hole a => .hole a
termination_by structural e => e

/-- Expressions with their variables renamed. -/
def Expr.renameAll (ρ : String → String) : List (Expr α) → List (Expr α)
  | [] => []
  | e :: es => e.rename ρ :: Expr.renameAll ρ es
termination_by structural es => es

end

theorem Expr.renameAll_eq (ρ : String → String) (es : List (Expr α)) :
    Expr.renameAll ρ es = es.map (Expr.rename ρ) := by
  induction es with
  | nil => rfl
  | cons e es ih => rw [renameAll, ih, map_cons]

theorem Expr.rename_congr {ρ σ : String → String} {e : Expr α} (h : ∀ x ∈ e.vars, ρ x = σ x) :
    e.rename ρ = e.rename σ := by
  induction e using Expr.induction with
  | lit | hole => rfl
  | var a x => rw [rename, rename, h x (by simp [vars])]
  | unary a op e ih => rw [rename, rename, ih h]
  | binary a op l r ihl ihr | index a l r ihl ihr =>
    rw [vars, forall_mem_append] at h
    rw [rename, rename, ihl h.1, ihr h.2]
  | call a f args ih =>
    rw [vars, allVars_eq] at h
    rw [rename, rename, renameAll_eq, renameAll_eq]
    congr 1
    exact map_congr_left fun e he => ih e he fun x hx => h x (mem_flatMap.2 ⟨e, he, hx⟩)
  | addrVar a b x => rw [rename, rename, rename, rename, h x (by simp [vars])]
  | addrIndex a b l r ihl ihr =>
    rw [vars, vars, forall_mem_append] at h
    rw [rename, rename, rename, rename, ihl h.1, ihr h.2]
  | addr a t _ _ ih => rw [rename, rename, ih h]

theorem Expr.rename_id (e : Expr α) : e.rename id = e := by
  induction e using Expr.induction with
  | lit | hole | var | addrVar => rfl
  | unary a op e ih => rw [rename, ih]
  | binary a op l r ihl ihr | index a l r ihl ihr => rw [rename, ihl, ihr]
  | call a f args ih =>
    rw [rename, renameAll_eq]
    congr 1
    exact (map_congr_left ih).trans (map_id args)
  | addrIndex a b l r ihl ihr => rw [rename, rename, ihl, ihr]
  | addr a t _ _ ih => rw [rename, ih]

theorem Expr.note_rename (ρ : String → String) (e : Expr α) : (e.rename ρ).note = e.note := by
  cases e <;> rfl

theorem Expr.annotate_rename (ρ : String → String) (b : β) (e : Expr α) :
    (e.rename ρ).annotate b = (e.annotate b).rename ρ := by
  induction e using Expr.induction with
  | lit | hole | var | addrVar => rfl
  | unary a op e ih => simp only [rename, annotate, ih]
  | binary a op l r ihl ihr | index a l r ihl ihr => simp only [rename, annotate, ihl, ihr]
  | call a f args ih =>
    simp only [rename, annotate, renameAll_eq, annotateAll_eq_map, map_map, call.injEq, true_and]
    exact map_congr_left ih
  | addrIndex a b l r ihl ihr => simp only [rename, annotate, ihl, ihr]
  | addr a t _ _ ih => simp only [rename, annotate, ih]

namespace Stmt

mutual

/-- The statement with its variables renamed. Bare blocks are left as they are. -/
def rename (ρ : String → String) : Stmt α → Stmt α
  | .expr e => .expr (e.rename ρ)
  | .decl x t init => .decl (ρ x) t (init.map (Expr.rename ρ))
  | .assign target value => .assign (target.rename ρ) (value.rename ρ)
  | .print newline e => .print newline (e.rename ρ)
  | .ret value => .ret (value.map (Expr.rename ρ))
  | .asm text => .asm text
  | .vmAsm text => .vmAsm text
  | .cond test yes none => .cond (test.rename ρ) (renameAll ρ yes) none
  | .cond test yes (some no) => .cond (test.rename ρ) (renameAll ρ yes) (some (renameAll ρ no))
  | .loop test body => .loop (test.rename ρ) (renameAll ρ body)
  | .block body => .block body
termination_by structural s => s

/-- Statements with their variables renamed. -/
def renameAll (ρ : String → String) : List (Stmt α) → List (Stmt α)
  | [] => []
  | s :: ss => rename ρ s :: renameAll ρ ss
termination_by structural ss => ss

end

mutual

/-- The variables of a statement, with what it declares. -/
def varsOf : Stmt α → List String
  | .expr e | .print _ e => e.vars
  | .decl x _ init => x :: init.toList.flatMap Expr.vars
  | .assign target value => target.vars ++ value.vars
  | .ret value => value.toList.flatMap Expr.vars
  | .asm _ | .vmAsm _ | .block _ => []
  | .cond test yes none => test.vars ++ vars yes
  | .cond test yes (some no) => test.vars ++ (vars yes ++ vars no)
  | .loop test body => test.vars ++ vars body
termination_by structural s => s

/-- The variables of statements, with what they declare. -/
def vars : List (Stmt α) → List String
  | [] => []
  | s :: ss => varsOf s ++ vars ss
termination_by structural ss => ss

end

/-- The names that statements declare, in order. -/
def declared (ss : List (Stmt α)) : List String := (decls ss).map (·.1)

end Stmt

namespace Stmt

mutual

/-- `renameFrom` for one statement. -/
def renameStmt (x y : String) (n : Nat) (bound : Bool) (k : Nat) : Stmt α → Stmt α
  | .decl z t init => .decl (if z = x ∧ k = n then y else z) t (init.map (Expr.rename (rebind x y bound)))
  | .expr e => .expr (e.rename (rebind x y bound))
  | .assign target value => .assign (target.rename (rebind x y bound)) (value.rename (rebind x y bound))
  | .print newline e => .print newline (e.rename (rebind x y bound))
  | .ret value => .ret (value.map (Expr.rename (rebind x y bound)))
  | .asm text => .asm text
  | .vmAsm text => .vmAsm text
  | .cond test yes none => .cond (test.rename (rebind x y bound)) (renameFrom x y n bound k yes) none
  | .cond test yes (some no) =>
    .cond (test.rename (rebind x y bound)) (renameFrom x y n bound k yes)
      (some (renameFrom x y n bound (k + (declared yes).count x) no))
  | .loop test body => .loop (test.rename (rebind x y bound)) (renameFrom x y n bound k body)
  | .block body => .block body
termination_by structural s => s

/-- Calls the variable of the `n`-th declaration of `x` by the name `y`, in the declaration and where it is bound by it.
There are `k` declarations of `x` before the statements, and `bound` says whether `x` is bound there by the `n`-th one.
A declaration binds what follows it in its block. -/
def renameFrom (x y : String) (n : Nat) (bound : Bool) (k : Nat) : List (Stmt α) → List (Stmt α)
  | [] => []
  | s :: ss =>
    renameStmt x y n bound k s :: match s with
      | .decl z _ _ => renameFrom x y n (if z = x then decide (k = n) else bound) (k + [z].count x) ss
      | s => renameFrom x y n bound (k + (declared [s]).count x) ss
termination_by structural ss => ss

end

end Stmt

/-- Calls the variable of the `n`-th declaration of `x` in the function by the name `y`. -/
def Function.renameLet (x y : String) (n : Nat) (f : Function α) : Function α :=
  { f with body := Stmt.renameFrom x y n false 0 f.body }

/-- Calls the variable of the `n`-th declaration of `x` in the function `g` by the name `y`. -/
def Program.renameLet (g x y : String) (n : Nat) (p : Program α) : Program α :=
  ⟨p.functions.map fun f => if f.name = g then f.renameLet x y n else f⟩

/-- The names that a function declares: its parameters, and what its body declares. -/
def Function.declared (f : Function α) : List String := f.params.map (·.name) ++ Stmt.declared f.body

/-- The variables that a function mentions. -/
def Function.vars (f : Function α) : List String := f.params.map (·.name) ++ Stmt.vars f.body

def Function.rename (ρ : String → String) (f : Function α) : Function α :=
  { f with params := f.params.map fun p => { p with name := ρ p.name }, body := Stmt.renameAll ρ f.body }

namespace Stmt

theorem renameAll_congr {ρ σ : String → String} (ss : List (Stmt α)) (h : ∀ x ∈ vars ss, ρ x = σ x) :
    renameAll ρ ss = renameAll σ ss := by
  have hoption : ∀ e : Option (Expr α), (∀ x ∈ e.toList.flatMap Expr.vars, ρ x = σ x) →
      e.map (.rename ρ) = e.map (Expr.rename σ) := by
    intro e he
    cases e with
    | none => rfl
    | some e => exact congrArg some (Expr.rename_congr (by simpa using he))
  induction ss using Stmt.parts_induction (P := fun s => (∀ x ∈ varsOf s, ρ x = σ x) → rename ρ s = rename σ s) with
  | nil => rfl
  | cons s ss ihs ih =>
    rw [vars, forall_mem_append] at h
    rw [renameAll, renameAll, ihs h.1, ih h.2]
  | expr e h | print nl e h => simp only [rename, Expr.rename_congr h]
  | decl x t init h =>
    rw [varsOf, forall_mem_cons] at h
    simp only [rename, h.1, hoption init h.2]
  | assign t e h =>
    rw [varsOf, forall_mem_append] at h
    simp only [rename, Expr.rename_congr h.1, Expr.rename_congr h.2]
  | ret e h => simp only [rename, hoption e h]
  | cond c yes b ihy ihn h =>
    rw [varsOf, forall_mem_append, forall_mem_append] at h
    simp only [rename, Expr.rename_congr h.1, ihy h.2.1, ihn h.2.2]
  | condThen c body ihb h | loop c body ihb h =>
    rw [varsOf, forall_mem_append] at h
    simp only [rename, Expr.rename_congr h.1, ihb h.2]
  | _ => rfl

theorem renameAll_id (ss : List (Stmt α)) : renameAll id ss = ss := by
  have hoption : ∀ e : Option (Expr α), e.map (.rename id) = e := by
    intro e
    cases e with
    | none => rfl
    | some e => exact congrArg some e.rename_id
  induction ss using Stmt.parts_induction (P := fun s => rename id s = s) with
  | nil => rfl
  | cons s ss ihs ih => rw [renameAll, ihs, ih]
  | decl x t init => simp only [rename, hoption, id]
  | ret e => simp only [rename, hoption]
  | cond c yes b ihy ihn => simp only [rename, Expr.rename_id, ihy, ihn]
  | condThen c body ihb | loop c body ihb => simp only [rename, Expr.rename_id, ihb]
  | _ => simp only [rename, Expr.rename_id]

theorem any_isReturn_renameAll (ρ : String → String) (ss : List (Stmt α)) :
    (renameAll ρ ss).any isReturn = ss.any isReturn := by
  induction ss with
  | nil => rfl
  | cons s ss ih =>
    have hs : (rename ρ s).isReturn = s.isReturn := by
      cases s with
      | cond c t e => cases e <;> rfl
      | _ => rfl
    rw [renameAll, any_cons, any_cons, hs, ih]

theorem decls_renameAll (ρ : String → String) (ss : List (Stmt α)) :
    decls (renameAll ρ ss) = (decls ss).map fun d => (ρ d.1, d.2) := by
  induction ss using Stmt.parts_induction (P := fun s => declsOf (rename ρ s) = (declsOf s).map fun d => (ρ d.1, d.2))
    with
  | nil => rfl
  | cons s ss ihs ih => rw [renameAll, decls, decls, ihs, ih, map_append]
  | cond c yes b ihy ihn => simp only [rename, declsOf, ihy, ihn, map_append]
  | condThen c body ihb | loop c body ihb => simp only [rename, declsOf, ihb]
  | _ => rfl

theorem allInlineFree_renameAll (ρ : String → String) (ss : List (Stmt α)) :
    allInlineFree (renameAll ρ ss) = allInlineFree ss := by
  induction ss using Stmt.parts_induction (P := fun s => inlineFree (rename ρ s) = inlineFree s) with
  | nil => rfl
  | cons s ss ihs ih => rw [renameAll, allInlineFree, allInlineFree, ihs, ih]
  | cond c yes b ihy ihn => simp only [rename, inlineFree, ihy, ihn]
  | condThen c body ihb | loop c body ihb => simp only [rename, inlineFree, ihb]
  | _ => rfl

/-! ### Renaming one declaration -/

theorem declared_cons (s : Stmt α) (ss : List (Stmt α)) : declared (s :: ss) = declared [s] ++ declared ss := by
  simp [declared, decls]

@[simp] theorem declared_decl (x : String) (t : Option String) (init : Option (Expr α)) :
    declared [.decl x t init] = [x] := rfl

@[simp] theorem declared_cond (c : Expr α) (yes : List (Stmt α)) (no : Option (List (Stmt α))) :
    declared [.cond c yes no] = declared yes ++ declared (no.getD []) := by
  cases no <;> simp [declared, decls, declsOf]

@[simp] theorem declared_loop (c : Expr α) (body : List (Stmt α)) : declared [.loop c body] = declared body := by
  simp [declared, decls, declsOf]

theorem rename_cond (ρ : String → String) (c : Expr α) (yes : List (Stmt α)) (no : Option (List (Stmt α))) :
    rename ρ (.cond c yes no) = .cond (c.rename ρ) (renameAll ρ yes) (no.map (renameAll ρ)) := by
  cases no <;> rfl

theorem renameStmt_cond (x y : String) (n : Nat) (bound : Bool) (k : Nat) (c : Expr α) (yes : List (Stmt α))
    (no : Option (List (Stmt α))) : renameStmt x y n bound k (.cond c yes no) =
      .cond (c.rename (rebind x y bound)) (renameFrom x y n bound k yes)
        (no.map (renameFrom x y n bound (k + (declared yes).count x))) := by
  cases no <;> rfl

theorem rebind_of_ne {x z : String} (h : z ≠ x) (y : String) (bound : Bool) : rebind x y bound z = z := by
  cases bound
  · rfl
  · exact if_neg h

/-- Where the name is not declared, it is bound everywhere or nowhere. -/
theorem renameFrom_of_not_declared {x : String} (y : String) (n : Nat) (ss : List (Stmt α)) :
    x ∉ declared ss → ∀ bound k, renameFrom x y n bound k ss = renameAll (rebind x y bound) ss := by
  induction ss using Stmt.induction with
  | nil => exact fun _ _ _ => rfl
  | decl z t init ss ih =>
    intro h bound k
    rw [declared_cons, declared_decl, singleton_append, mem_cons, not_or] at h
    have hzx : z ≠ x := .symm h.1
    simp only [renameFrom, renameStmt, renameAll, rename, hzx, false_and, if_false, ih h.2, rebind_of_ne hzx]
  | expr _ ss ih | assign _ _ ss ih | print _ _ ss ih | ret _ ss ih | asm _ ss ih | vmAsm _ ss ih | block _ ss _ ih =>
    intro h bound k
    simp only [renameFrom, renameStmt, renameAll, rename, ih h]
  | cond c yes no ss ihy ihn ih =>
    intro h bound k
    rw [declared_cons, declared_cond, mem_append, mem_append, not_or, not_or] at h
    simp only [renameFrom, renameStmt_cond, renameAll, rename_cond, ihy h.1.1, ih h.2]
    congr 2
    refine Option.map_congr fun b hb => ihn b hb ?_ _ _
    cases hb
    exact h.1.2
  | loop c body ss ihb ih =>
    intro h bound k
    rw [declared_cons, declared_loop, mem_append, not_or] at h
    simp only [renameFrom, renameStmt, renameAll, rename, ihb h.1, ih h.2]

/-- Declarations elsewhere do not count if the name is declared once. -/
theorem renameFrom_add {x : String} {names : List String} {ss : List (Stmt α)}
    (h : names.count x + (declared ss).count x ≤ 1) (y : String) (n : Nat) (bound : Bool) (k : Nat) :
    renameFrom x y n bound (k + names.count x) ss = renameFrom x y n bound k ss := by
  by_cases hx : x ∈ declared ss
  · have hpos := count_pos_iff.2 hx
    rw [show names.count x = 0 by omega, Nat.add_zero]
  · rw [renameFrom_of_not_declared y n ss hx, renameFrom_of_not_declared y n ss hx]

theorem declared_annotateAll (b : β) (ss : List (Stmt α)) : declared (annotateAll b ss) = declared ss := by
  suffices h : decls (annotateAll b ss) = decls ss by rw [declared, declared, h]
  induction ss using Stmt.parts_induction (P := fun s => declsOf (s.annotate b) = declsOf s) with
  | nil => rfl
  | cons s ss ihs ih => rw [annotateAll, decls, decls, ihs, ih]
  | decl x t init => cases init <;> rfl
  | ret v => cases v <;> rfl
  | cond c yes b ihy ihn => simp only [annotate, declsOf, ihy, ihn]
  | condThen c body ihb | loop c body ihb => simp only [annotate, declsOf, ihb]
  | _ => rfl

/-- Notes play no part in renaming. -/
theorem annotateAll_renameFrom (x y : String) (n : Nat) (b : β) (ss : List (Stmt α)) : ∀ bound k,
    annotateAll b (renameFrom x y n bound k ss) = renameFrom x y n bound k (annotateAll b ss) := by
  induction ss using Stmt.induction with
  | nil => exact fun _ _ => rfl
  | decl z t init ss ih =>
    intro bound k
    cases init with
    | none => simp only [renameFrom, renameStmt, annotateAll, annotate, ih, Option.map_none]
    | some e => simp only [renameFrom, renameStmt, annotateAll, annotate, ih, Option.map_some, Expr.annotate_rename]
  | expr _ ss ih | assign _ _ ss ih | print _ _ ss ih | asm _ ss ih | vmAsm _ ss ih | block _ ss _ ih =>
    intro bound k
    simp only [renameFrom, renameStmt, annotateAll, annotate, ih, Expr.annotate_rename, declared, decls, declsOf]
  | ret v ss ih =>
    intro bound k
    cases v with
    | none => simp only [renameFrom, renameStmt, annotateAll, annotate, ih, Option.map_none, declared, decls, declsOf]
    | some e =>
      simp only [renameFrom, renameStmt, annotateAll, annotate, ih, Option.map_some, Expr.annotate_rename, declared,
        decls, declsOf]
  | cond c yes no ss ihy ihn ih =>
    intro bound k
    cases no with
    | none =>
      simp only [renameFrom, renameStmt, annotateAll, annotate, ih, ihy, Expr.annotate_rename, declared_cond,
        declared_annotateAll]
      rfl
    | some b =>
      simp only [renameFrom, renameStmt, annotateAll, annotate, ih, ihy, ihn b rfl, Expr.annotate_rename,
        declared_cond, declared_annotateAll, Option.getD]
  | loop c body ss ihb ih =>
    intro bound k
    simp only [renameFrom, renameStmt, annotateAll, annotate, ih, ihb, Expr.annotate_rename, declared_loop,
      declared_annotateAll]

end Stmt

theorem Function.rename_id (f : Function α) : f.rename id = f := by
  rw [Function.rename, Stmt.renameAll_id]
  simp

end Rename

theorem lookup_rename {α : Type} {ρ : String → String} (hρ : Function.Injective ρ) (l : List (String × α))
    (x : String) : (l.map fun p => (ρ p.1, p.2)).lookup (ρ x) = l.lookup x := by
  induction l with
  | nil => rfl
  | cons p l ih =>
    rw [map_cons, lookup_cons, lookup_cons, ih]
    have hbeq : (ρ x == ρ p.1) = (x == p.1) := by
      rw [Bool.eq_iff_iff, beq_iff_eq, beq_iff_eq]
      exact hρ.eq_iff
    rw [hbeq]

/-! ### The types of renamed programs -/

namespace Typing

def Scope.rename (ρ : String → String) (s : Scope) : Scope := s.map fun frame => frame.map fun p => (ρ p.1, p.2)

section Renamed

variable {table : Signatures} {scope scope' : Scope} {ρ : String → String} (hρ : Function.Injective ρ)

include hρ

theorem resolve?_rename (scope : Scope) (x : String) : (scope.rename ρ).resolve? (ρ x) = scope.resolve? x := by
  induction scope with
  | nil => rfl
  | cons frame scope ih =>
    unfold Scope.resolve? at ⊢
    rw [Scope.rename, map_cons, findSome?_cons, findSome?_cons, lookup_rename hρ]
    cases frame.lookup x with
    | none => exact ih
    | some t => rfl

theorem declare?_rename {x : String} {t : Ty} (h : scope.declare? x t = some scope') :
    (scope.rename ρ).declare? (ρ x) t = some (scope'.rename ρ) := by
  cases scope with
  | nil =>
    cases h
    rfl
  | cons frame scope =>
    rw [Scope.declare?] at h
    split at h
    · cases h
    · rename_i hx
      cases h
      rw [Scope.rename, map_cons, Scope.declare?, lookup_rename hρ, if_neg hx]
      simp [Scope.rename]

theorem HasType.rename {e : Expr Note} {t : Ty} (h : HasType table scope e t) :
    HasType table (scope.rename ρ) (e.rename ρ) t := by
  induction h with
  | lit v => exact .lit v
  | var hx => exact .var ((resolve?_rename hρ _ _).trans hx)
  | unary _ hop ih => exact .unary ih hop
  | binary _ _ hop ihl ihr => exact .binary ihl ihr hop
  | index _ ht _ iha ihi => exact .index iha ht ihi
  | addrVar hx => exact .addrVar ((resolve?_rename hρ _ _).trans hx)
  | addrIndex _ ht _ iha ihi => exact .addrIndex iha ht ihi
  | push _ ht _ _ iha ihn ihv => exact .push iha ht ihn ihv
  | pop _ ht _ iha ihn => exact .pop iha ht ihn
  | call hpush hpop hf hlen _ ih =>
    rw [Expr.rename, Expr.renameAll_eq]
    refine .call hpush hpop hf (by simpa using hlen) fun a t hmem => ?_
    rw [zip_map_left] at hmem
    obtain ⟨⟨a', t'⟩, hmem', heq⟩ := mem_map.1 hmem
    obtain ⟨rfl, rfl⟩ : a'.rename ρ = a ∧ t' = t := by simpa using heq
    exact ih a' t' hmem'

theorem Checked.rename {ss : List (Stmt Note)} (h : Checked table scope ss) :
    Checked table (scope.rename ρ) (Stmt.renameAll ρ ss) := by
  induction h with
  | nil => exact .nil
  | expr he _ ih => exact .expr (he.rename hρ) ih
  | decl ht hx _ ih =>
    refine .decl ⟨fun e he => ?_, ?_⟩ (declare?_rename hρ hx) ih
    · obtain ⟨e', he', rfl⟩ := Option.map_eq_some_iff.1 he
      exact (ht.1 e' he').rename hρ
    · have hwritten := ht.2
      split at hwritten <;> simp [*]
  | assignVar hx he _ ih => exact .assignVar ((resolve?_rename hρ _ _).trans hx) (he.rename hρ) ih
  | assignIndex ha ht hi he _ ih => exact .assignIndex (ha.rename hρ) ht (hi.rename hρ) (he.rename hρ) ih
  | print he ht _ ih => exact .print (he.rename hρ) ht ih
  | ret he _ ih =>
    refine .ret (fun e heq => ?_) ih
    obtain ⟨e', he', rfl⟩ := Option.map_eq_some_iff.1 heq
    obtain ⟨t, ht⟩ := he e' he'
    exact ⟨t, ht.rename hρ⟩
  | asm _ ih => exact .asm ih
  | vmAsm _ ih => exact .vmAsm ih
  | @cond scope test yes no t ss he _ _ _ ihy ihn ih =>
    cases no with
    | none => exact .cond (he.rename hρ) ihy (by simp) ih
    | some b =>
      refine .cond (he.rename hρ) ihy (fun b' hb' => ?_) ih
      cases hb'
      exact ihn b rfl
  | loop he _ _ ihb ih => exact .loop (he.rename hρ) ihb ih
  | block _ ih => exact .block ih

theorem declareParams_rename {ps : List Param} : ∀ {scope scope' : Scope} {ts : List Ty},
    declareParams scope ps ts = .ok scope' →
      declareParams (scope.rename ρ) (ps.map fun p => { p with name := ρ p.name }) ts = .ok (scope'.rename ρ) := by
  induction ps with
  | nil =>
    intro scope scope' ts h
    cases h
    rfl
  | cons p ps ih =>
    intro scope scope' ts h
    cases ts with
    | nil =>
      cases h
      rfl
    | cons t ts =>
      simp only [declareParams, bind_eq_ok, declare_eq_ok] at h
      obtain ⟨scope₁, hp, h⟩ := h
      simp only [map_cons, declareParams, bind_eq_ok, declare_eq_ok]
      exact ⟨_, declare?_rename hρ hp, ih h⟩

theorem CheckedFunction.rename {f : Function Note} (h : CheckedFunction table f) :
    CheckedFunction table (f.rename ρ) := by
  obtain ⟨⟨scope, hscope, hbody⟩, hreturns⟩ := h
  have hsig : Signatures.ofFunction (f.rename ρ) = Signatures.ofFunction f := by
    simp [Signatures.ofFunction, Function.rename]
  refine ⟨⟨scope.rename ρ, ?_, hbody.rename hρ⟩, ?_⟩
  · rw [hsig]
    exact declareParams_rename hρ hscope
  · exact hreturns.imp_right (Stmt.any_isReturn_renameAll ρ f.body).trans

end Renamed

/-! ### Renaming what is declared once -/

section Once

variable {table : Signatures} {scope scope' : Scope} {x y z : String}

variable {ss : List (Stmt Note)} {t : Ty}

theorem resolve?_declare (h : scope.declare? x t = some scope') (hz : z ≠ x) :
    scope'.resolve? z = scope.resolve? z := by
  have hlookup : [(x, t)].lookup z = none := by
    have hbeq : (z == x) = false := by simpa using hz
    rw [lookup_cons, hbeq]
    rfl
  cases scope with
  | nil =>
    cases h
    rw [Scope.resolve?, findSome?_cons, hlookup]
    rfl
  | cons frame scope =>
    rw [Scope.declare?] at h
    split at h
    · cases h
    · cases h
      simp only [Scope.resolve?, findSome?_cons, lookup_append, hlookup, Option.or_none]

theorem HasType.isSome_resolve? {e : Expr Note} (h : HasType table scope e t) :
    ∀ z ∈ e.vars, (scope.resolve? z).isSome = true := by
  induction h with
  | lit v => simp [Expr.vars]
  | var hx | addrVar hx => simp [Expr.vars, hx]
  | unary _ _ ih => exact ih
  | binary _ _ _ ihl ihr => exact forall_mem_append.2 ⟨ihl, ihr⟩
  | index _ _ _ iha ihi | addrIndex _ _ _ iha ihi => exact forall_mem_append.2 ⟨iha, ihi⟩
  | push _ _ _ _ iha ihn ihv =>
    simp only [Expr.vars, Expr.allVars, append_nil, forall_mem_append]
    exact ⟨iha, ihn, ihv⟩
  | pop _ _ _ iha ihn =>
    simp only [Expr.vars, Expr.allVars, append_nil, forall_mem_append]
    exact ⟨iha, ihn⟩
  | call _ _ _ hlen _ ih =>
    intro z hz
    rw [Expr.vars, Expr.allVars_eq] at hz
    obtain ⟨a, ha, hz⟩ := mem_flatMap.1 hz
    obtain ⟨t, hmem⟩ := exists_mem_zip hlen ha
    exact ih a t hmem z hz

/-- A name that is declared once is renamed everywhere or nowhere. -/
theorem Checked.renamed (y : String) (n : Nat) (h : Checked table scope ss) : scope.resolve? x = none →
    (Stmt.declared ss).count x ≤ 1 →
      ∀ k, Stmt.renameFrom x y n false k ss = Stmt.renameAll (rebind x y (decide (k = n))) ss := by
  -- What is not in scope is not mentioned.
  have hexpr : ∀ {scope : Scope} {e : Expr Note} {t : Ty}, HasType table scope e t → scope.resolve? x = none →
      ∀ bound, e.rename (rebind x y false) = e.rename (rebind x y bound) := by
    intro scope e t he hx bound
    refine Expr.rename_congr fun z hz => ?_
    have hzx : z ≠ x := by
      rintro rfl
      simpa [hx] using he.isSome_resolve? z hz
    rw [Stmt.rebind_of_ne hzx, Stmt.rebind_of_ne hzx]
  induction h with
  | nil => exact fun _ _ _ => rfl
  | asm _ ih | vmAsm _ ih | block _ ih => exact fun hx hcount k => congrArg _ (ih hx hcount k)
  | expr he _ ih | print he _ _ ih =>
    intro hx hcount k
    simp only [Stmt.renameAll, Stmt.rename, ← hexpr he hx, ← ih hx hcount]
    rfl
  | @assignVar _ z _ _ _ hvar he _ ih =>
    intro hx hcount k
    have hzx : z ≠ x := by
      rintro rfl
      cases hx.symm.trans hvar
    simp only [Stmt.renameAll, Stmt.rename, Expr.rename, Stmt.rebind_of_ne hzx, ← hexpr he hx, ← ih hx hcount]
    rfl
  | assignIndex ha _ hi he _ ih =>
    intro hx hcount k
    simp only [Stmt.renameAll, Stmt.rename, Expr.rename, ← hexpr ha hx, ← hexpr hi hx, ← hexpr he hx, ← ih hx hcount]
    rfl
  | ret he _ ih =>
    intro hx hcount k
    have hvalue := Option.map_congr fun e heq => hexpr (he e heq).choose_spec hx (decide (k = n))
    rw [Stmt.renameAll, Stmt.rename, ← hvalue, ← ih hx hcount]
    rfl
  | @decl scope scope' z t init _ ss ht hdeclare hs ih =>
    intro hx hcount k
    have hinit := Option.map_congr fun e heq => hexpr (ht.1 e heq) hx (decide (k = n))
    rw [Stmt.declared_cons, Stmt.declared_decl, count_append] at hcount
    rw [Stmt.renameFrom, Stmt.renameStmt, hinit, Stmt.renameAll, Stmt.rename]
    by_cases hzx : z = x
    · subst hzx
      have hnot : z ∉ Stmt.declared ss := by
        rw [← count_eq_zero]
        simp only [count_singleton_self] at hcount
        omega
      rw [if_pos rfl, Stmt.renameFrom_of_not_declared y n ss hnot]
      by_cases hk : k = n <;> simp [hk, replace, rebind]
    · rw [if_neg (fun h => hzx h.1), if_neg hzx, Stmt.rebind_of_ne hzx, Stmt.renameFrom_add hcount,
        ih ((resolve?_declare hdeclare (Ne.symm hzx)).trans hx) (by omega)]
  | @cond scope test yes no _ ss he hyes hno hs ihy ihn ih =>
    intro hx hcount k
    rw [Stmt.declared_cons, count_append] at hcount
    simp only [Stmt.renameFrom, Stmt.renameFrom_add hcount, Stmt.renameAll, Stmt.renameStmt_cond, Stmt.rename_cond]
    rw [Stmt.declared_cond, count_append] at hcount
    rw [hexpr he hx (decide (k = n)), ihy hx (by omega), ih hx (by omega)]
    congr 2
    refine Option.map_congr fun b hb => ?_
    cases hb
    rw [Option.getD_some] at hcount
    rw [Stmt.renameFrom_add (by omega), ihn b rfl hx (by omega)]
  | @loop scope test body _ ss he hbody hs ihb ih =>
    intro hx hcount k
    rw [Stmt.declared_cons, count_append] at hcount
    simp only [Stmt.renameFrom, Stmt.renameFrom_add hcount, Stmt.renameAll, Stmt.renameStmt, Stmt.rename]
    rw [Stmt.declared_loop] at hcount
    rw [hexpr he hx (decide (k = n)), ihb hx (by omega), ih hx (by omega)]

end Once

end Typing

/-! ### The code of renamed programs -/

namespace Bytecode

open Machine (SameBehaviour)
open Typing (Note)

namespace Slots

def rename (ρ : String → String) (s : Slots) : Slots where
  cells := s.cells.map fun p => (ρ p.1, p.2)
  arrays := s.arrays.map fun p => (ρ p.1, p.2)
  size := s.size

variable {ρ : String → String} (hρ : Function.Injective ρ)

include hρ

theorem cell?_rename (s : Slots) (x : String) : (s.rename ρ).cell? (ρ x) = s.cell? x := lookup_rename hρ _ _

theorem length?_rename (s : Slots) (x : String) : (s.rename ρ).length? (ρ x) = s.length? x := lookup_rename hρ _ _

theorem arrayCell?_rename (s : Slots) (x : String) : (s.rename ρ).arrayCell? (ρ x) = s.arrayCell? x := by
  rw [arrayCell?, arrayCell?, length?_rename hρ, cell?_rename hρ]

theorem rename_addDeclared (s : Slots) (x : String) (t : Option String) :
    (s.addDeclared x t).rename ρ = (s.rename ρ).addDeclared (ρ x) t := by
  unfold addDeclared
  cases t.bind Ty.arrayLength? with
  | none =>
    dsimp only
    rw [addScalar, addScalar, cell?_rename hρ]
    split <;> simp [rename]
  | some n =>
    dsimp only
    rw [addArray, addArray, cell?_rename hρ]
    split <;> simp [rename]

theorem rename_addDecls (ds : List (String × Option String)) : ∀ s : Slots,
    (s.addDecls ds).rename ρ = (s.rename ρ).addDecls (ds.map fun d => (ρ d.1, d.2)) := by
  induction ds with
  | nil => exact fun s => rfl
  | cons d ds ih => exact fun s => by rw [addDecls_cons, ih, rename_addDeclared hρ, map_cons, addDecls_cons]

theorem ofFunction_rename {α : Type} (f : Function α) : ofFunction (f.rename ρ) = (ofFunction f).rename ρ := by
  rw [ofFunction_eq, ofFunction_eq, rename_addDecls hρ]
  simp [declsOf, Function.rename, Stmt.decls_renameAll, rename, Function.comp_def]

end Slots

namespace View

def rename (ρ : String → String) (v : View) : View := ⟨v.slots.rename ρ, v.known⟩

section Renamed

variable {α : Type} {ρ : String → String} (hρ : Function.Injective ρ) (v : View)

include hρ

theorem arrayCell?_rename (e : Expr α) : (v.rename ρ).arrayCell? (e.rename ρ) = v.arrayCell? e := by
  cases e with
  | var a x => exact Slots.arrayCell?_rename hρ v.slots x
  | _ => rfl

/-- Renaming leaves the shape of an expression alone. -/
theorem expr_rename (e : Expr α) : (v.rename ρ).expr (e.rename ρ) = v.expr e := by
  induction e using Expr.induction with
  | lit a l => cases l <;> rfl
  | var a x =>
    rw [Expr.rename, expr, expr, rename]
    rw [Slots.cell?_rename hρ]
  | unary a o e ih => rw [Expr.rename, expr, expr, ih]
  | binary a o l r ihl ihr =>
    rw [Expr.rename]
    cases o with
    | and | or => rw [expr, expr, ihl, ihr]
    | _ => simp only [expr, ihl, ihr]
  | call a f as ih =>
    have hargs : (as.map (.rename ρ)).map (v.rename ρ).expr = as.map v.expr := by
      rw [map_map]
      exact map_congr_left ih
    have hhead : (as.map (.rename ρ)).head?.bind (v.rename ρ).arrayCell? = as.head?.bind v.arrayCell? := by
      cases as with
      | nil => rfl
      | cons a as => exact arrayCell?_rename hρ v a
    rw [Expr.rename, Expr.renameAll_eq, expr, expr, args_eq_map, args_eq_map, hargs, hhead]
    rfl
  | index a x i _ ih => rw [Expr.rename, expr, expr, arrayCell?_rename hρ, ih]
  | addrVar a b x =>
    rw [Expr.rename, Expr.rename, expr, expr, rename]
    rw [Slots.cell?_rename hρ]
  | addrIndex a b x i _ ih => rw [Expr.rename, Expr.rename, expr, expr, arrayCell?_rename hρ, ih]
  | addr a t hv hi _ =>
    cases t with
    | var b x => exact absurd rfl (hv b x)
    | index b x i => exact absurd rfl (hi b x i)
    | _ => rfl
  | hole a => rfl

theorem decl_rename (x : String) (init : Option (Expr α)) :
    (v.rename ρ).decl (ρ x) (init.map (Expr.rename ρ)) = v.decl x init := by
  have hinit : (init.map (.rename ρ)).map (v.rename ρ).expr = init.map v.expr := by
    rw [Option.map_map]
    exact Option.map_congr fun e _ => expr_rename hρ v e
  unfold decl
  rw [hinit, rename]
  rw [Slots.cell?_rename hρ, Slots.length?_rename hρ]

theorem assign_rename (target value : Expr α) :
    (v.rename ρ).assign (target.rename ρ) (value.rename ρ) = v.assign target value := by
  unfold assign
  rw [expr_rename hρ]
  cases target with
  | var a x =>
    rw [Expr.rename, rename]
    dsimp only
    rw [Slots.cell?_rename hρ]
  | index a x i =>
    rw [Expr.rename]
    dsimp only
    rw [arrayCell?_rename hρ, expr_rename hρ]
  | _ => rfl

theorem print_rename (newline : Bool) (e : Expr Note) :
    (v.rename ρ).print newline (e.rename ρ) = v.print newline e := by
  have hexpr := expr_rename hρ v e
  have hnote := e.note_rename ρ
  cases e with
  | lit a l =>
    rw [Expr.rename] at hexpr ⊢
    unfold print
    split
    · rfl
    · rw [hexpr]
  | _ =>
    rw [Expr.rename] at hexpr hnote ⊢
    rw [print, print, hexpr, hnote]
    all_goals simp

/-- Renaming leaves the shape of statements alone. -/
theorem stmts_rename (ss : List (Stmt Note)) (hfree : Stmt.allInlineFree ss = true) :
    (v.rename ρ).stmts (Stmt.renameAll ρ ss) = v.stmts ss := by
  induction ss using Stmt.parts_induction (P := fun s => s.inlineFree = true →
      (v.rename ρ).stmt (.rename ρ s) = v.stmt s) with
  | nil => rfl
  | cons s ss ihs ih =>
    rw [Stmt.allInlineFree, Bool.and_eq_true] at hfree
    rw [Stmt.renameAll, stmts, stmts, ihs hfree.1, ih hfree.2]
  | expr e => simp only [Stmt.rename, stmt, expr_rename hρ]
  | decl x t init => simp only [Stmt.rename, stmt, decl_rename hρ]
  | assign t e => simp only [Stmt.rename, stmt, assign_rename hρ]
  | print nl e => simp only [Stmt.rename, stmt, print_rename hρ]
  | ret e =>
    cases e with
    | none => rfl
    | some e => simp only [Stmt.rename, stmt, Option.map_some, expr_rename hρ]
  | vmAsm text hfree => cases hfree
  | cond c yes b ihy ihn hfree =>
    rw [Stmt.inlineFree, Bool.and_eq_true] at hfree
    simp only [Stmt.rename, stmt, expr_rename hρ, ihy hfree.1, ihn hfree.2]
  | condThen c body ihb hfree | loop c body ihb hfree => simp only [Stmt.rename, stmt, expr_rename hρ, ihb hfree]
  | _ => rfl

end Renamed

end View

theorem routineOf_rename {ρ : String → String} (hρ : Function.Injective ρ) (known : List String) (k : Nat)
    {f : Function Note} (hfree : Stmt.allInlineFree f.body = true) :
    routineOf known k (f.rename ρ) = routineOf known k f := by
  have hbody : View.stmts ⟨(Slots.ofFunction f).rename ρ, known.contains⟩ (Stmt.renameAll ρ f.body) =
      View.stmts ⟨.ofFunction f, known.contains⟩ f.body := View.stmts_rename hρ ⟨_, _⟩ f.body hfree
  rw [routineOf, Slots.ofFunction_rename hρ]
  simp only [Function.rename, hbody, length_map]
  rfl

/-! ### Programs with functions renamed -/

section Mapped

variable {prog : Program Note} {F : Function Note → Function Note}
  (hF : ∀ f ∈ prog.functions, ∃ ρ, Function.Injective ρ ∧ F f = f.rename ρ)

include hF

theorem names_of_renamed : names (⟨prog.functions.map F⟩ : Program Note) = names prog := by
  simp only [names, map_map]
  refine map_congr_left fun f hf => ?_
  obtain ⟨ρ, -, hf'⟩ := hF f hf
  rw [Function.comp_apply, hf']
  rfl

theorem accepted_of_renamed (h : Typing.Accepted prog) : Typing.Accepted ⟨prog.functions.map F⟩ := by
  have hname : (prog.functions.map F).map (·.name) = prog.functions.map (·.name) := names_of_renamed hF
  have hsignatures : Typing.signatures (prog.functions.map F) = Typing.signatures prog.functions := by
    rw [Typing.signatures, map_map]
    congr 1
    refine map_congr_left fun f hf => ?_
    obtain ⟨ρ, -, hf'⟩ := hF f hf
    rw [Function.comp_apply, hf']
    simp [Typing.Signatures.ofFunction, Function.rename]
  refine ⟨⟨hname.symm ▸ h.entered.nodup, fun f' hf' => ?_⟩, hname.symm ▸ h.main, fun f' hf' => ?_⟩
  · obtain ⟨f, hf, rfl⟩ := mem_map.1 hf'
    obtain ⟨ρ, -, hf'⟩ := hF f hf
    rw [hf']
    exact h.entered.fresh f hf
  · obtain ⟨f, hf, rfl⟩ := mem_map.1 hf'
    obtain ⟨ρ, hρ, hf'⟩ := hF f hf
    rw [hsignatures, hf']
    exact (h.checked f hf).rename hρ

theorem routines_of_renamed (hfree : prog.inlineFree = true) :
    routines [] 0 (prog.functions.map F) = routines [] 0 prog.functions := by
  simp only [Program.inlineFree, all_eq_true] at hfree
  obtain ⟨fs⟩ := prog
  generalize ([] : List String) = known
  generalize (0 : Nat) = k
  induction fs generalizing known k with
  | nil => rfl
  | cons f fs ih =>
    obtain ⟨ρ, hρ, hf⟩ := hF f (by simp)
    rw [map_cons, routines, routines, hf, routineOf_rename hρ _ _ (hfree f (by simp))]
    rw [ih (fun f hf => hF f (by simp [hf])) fun f hf => hfree f (by simp [hf])]
    rfl

/-- Renaming all variables of functions leaves behaviour alone. -/
theorem sameBehaviour_of_renamed (h : Typing.Accepted prog) (hfree : prog.inlineFree = true) :
    ∃ obj obj', emit prog = .ok obj ∧ emit ⟨prog.functions.map F⟩ = .ok obj' ∧ SameBehaviour obj.image obj'.image := by
  have hacc := accepted_of_renamed hF h
  have hfree' : Program.inlineFree ⟨prog.functions.map F⟩ = true := by
    simp only [Program.inlineFree, all_eq_true, forall_mem_map] at hfree ⊢
    intro f hf
    obtain ⟨ρ, -, hf'⟩ := hF f hf
    rw [hf']
    exact (Stmt.allInlineFree_renameAll ρ f.body).trans (hfree f hf)
  have hlibrary : library ⟨prog.functions.map F⟩ = library prog := by
    simp only [library, names_of_renamed hF, routines_of_renamed hF hfree]
  obtain ⟨obj, hobj⟩ := emit_isOk h hfree
  obtain ⟨obj', hobj'⟩ := emit_isOk hacc hfree'
  have hfollows := follows_of_emit hacc.entered.nodup hobj' hacc.main
  rw [hlibrary] at hfollows
  exact ⟨obj, obj', hobj, hobj', (follows_of_emit h.entered.nodup hobj h.main).sameBehaviour hfollows⟩

end Mapped

theorem resolve?_declareParams {x : String} {ps : List Param} : ∀ {scope scope' : Typing.Scope} {ts : List Ty},
    Typing.declareParams scope ps ts = .ok scope' → x ∉ ps.map (·.name) → scope'.resolve? x = scope.resolve? x := by
  induction ps with
  | nil =>
    intro scope scope' ts h _
    cases h
    rfl
  | cons p ps ih =>
    intro scope scope' ts h hx
    rw [map_cons, mem_cons, not_or] at hx
    cases ts with
    | nil =>
      cases h
      rfl
    | cons t ts =>
      simp only [Typing.declareParams, bind_eq_ok, Typing.declare_eq_ok] at h
      obtain ⟨scope₁, hp, h⟩ := h
      rw [ih h hx.2, Typing.resolve?_declare hp hx.1]

/-- Renaming one declaration of a name that is declared once renames all of the function, or nothing. -/
theorem exists_renaming {table : Typing.Signatures} {f : Function Note} (h : Typing.CheckedFunction table f)
    {x y : String} (honce : f.declared.count x ≤ 1) (hfresh : y ∉ f.vars) (n : Nat) :
    ∃ ρ, Function.Injective ρ ∧ f.renameLet x y n = f.rename ρ := by
  obtain ⟨⟨scope, hscope, hbody⟩, -⟩ := h
  rw [Function.declared, count_append] at honce
  rw [Function.vars, mem_append, not_or] at hfresh
  by_cases hx : x ∈ f.params.map (·.name)
  · have hnot : x ∉ Stmt.declared f.body := by
      have := count_pos_iff.2 hx
      rw [← count_eq_zero]
      omega
    have hid : f.renameLet x y n = f.rename id := by
      rw [Function.renameLet, Stmt.renameFrom_of_not_declared y n f.body hnot, Function.rename]
      simp [rebind]
    exact ⟨id, Function.injective_id, hid⟩
  · have hresolve : scope.resolve? x = none := (resolve?_declareParams hscope hx).trans rfl
    rw [Function.renameLet, hbody.renamed y n hresolve (by omega)]
    by_cases hn : 0 = n
    · refine ⟨Equiv.swap x y, (Equiv.swap x y).injective, ?_⟩
      have hparams : f.params.map (fun p => { p with name := Equiv.swap x y p.name }) = f.params := by
        refine (map_congr_left fun p hp => ?_).trans (map_id _)
        have hmem : p.name ∈ f.params.map (·.name) := mem_map_of_mem hp
        have hpx : p.name ≠ x := fun heq => hx (heq ▸ hmem)
        have hpy : p.name ≠ y := fun heq => hfresh.1 (heq ▸ hmem)
        rw [Equiv.swap_apply_of_ne_of_ne hpx hpy, id]
      have hswap : Stmt.renameAll (rebind x y (decide (0 = n))) f.body = Stmt.renameAll (Equiv.swap x y) f.body := by
        refine Stmt.renameAll_congr f.body fun z hz => ?_
        have hzy : z ≠ y := fun heq => hfresh.2 (heq ▸ hz)
        rw [decide_eq_true hn, Equiv.swap_apply_def, if_neg hzy]
        rfl
      rw [hswap, Function.rename, hparams]
    · refine ⟨id, Function.injective_id, ?_⟩
      rw [decide_eq_false hn, Function.rename]
      simp [rebind]

theorem annotate_renameLet (prog : Program Note) (g x y : String) (n : Nat) :
    (prog.renameLet g x y n).annotate () = (prog.annotate ()).renameLet g x y n := by
  simp only [Program.annotate, Program.renameLet, map_map]
  congr 1
  refine map_congr_left fun f _ => ?_
  have hname : (f.annotate ()).name = f.name := rfl
  simp only [Function.comp_apply, hname]
  by_cases hf : f.name = g
  · rw [if_pos hf, if_pos hf, Function.renameLet, Function.annotate, Stmt.annotateAll_renameFrom]
    rfl
  · rw [if_neg hf, if_neg hf]

/-- **Renaming a variable.** Let `x` be declared at most once in the function `g` of a program that is accepted, and let
`g` not mention `y`. Then the program in which a declaration of `x` in `g` and the uses that it binds have the name `y`
is accepted too, and behaves alike. -/
theorem renamed_behaviour {p : Program Unit} {prog : Program Note} (h : Typing.check p = .ok prog)
    (hfree : prog.inlineFree = true) {g x y : String}
    (honce : ∀ f ∈ prog.functions, f.name = g → f.declared.count x ≤ 1)
    (hfresh : ∀ f ∈ prog.functions, f.name = g → y ∉ f.vars) (n : Nat) :
    ∃ prog' obj obj', Typing.check (p.renameLet g x y n) = .ok prog' ∧ emit prog = .ok obj ∧ emit prog' = .ok obj' ∧
      SameBehaviour obj.image obj'.image := by
  obtain ⟨rfl, hacc⟩ := Typing.check_iff.1 h
  have hF : ∀ f ∈ prog.functions, ∃ ρ, Function.Injective ρ ∧
      (if f.name = g then f.renameLet x y n else f) = f.rename ρ := by
    intro f hf
    by_cases hg : f.name = g
    · rw [if_pos hg]
      exact exists_renaming (hacc.checked f hf) (honce f hf hg) (hfresh f hf hg) n
    · rw [if_neg hg]
      exact ⟨id, Function.injective_id, (Function.rename_id f).symm⟩
  obtain ⟨obj, obj', hobj, hobj', hsame⟩ := sameBehaviour_of_renamed hF hacc hfree
  exact ⟨prog.renameLet g x y n, obj, obj', Typing.check_iff.2 ⟨annotate_renameLet prog g x y n,
    accepted_of_renamed hF hacc⟩, hobj, hobj', hsame⟩

/-- A variable that is declared in a block. -/
def halved : String :=
  "fn main(): int \x7b let a: int = 8; if (a > 2) \x7b let b: int = a / 2; a = b; \x7d return a; \x7d"

theorem halved_renamed : ∃ prog prog' obj obj', checkedProgram halved = .ok prog ∧ prog.inlineFree = true ∧
    (∀ f ∈ prog.functions, f.name = "main" → f.declared.count "b" ≤ 1) ∧
    (∀ f ∈ prog.functions, f.name = "main" → "c" ∉ f.vars) ∧
    ((prog.annotate ()).renameLet "main" "b" "c" 0).functions.map Function.declared = [["a", "c"]] ∧
    Typing.check ((prog.annotate ()).renameLet "main" "b" "c" 0) = .ok prog' ∧ emit prog = .ok obj ∧
    emit prog' = .ok obj' ∧ obj.image.Ends [] (.exit 4) ∧ SameBehaviour obj.image obj'.image := by
  obtain ⟨prog, hprog, hfree, honce, hfresh, hdeclared, obj, hobj, hrun⟩ :
      ∃ prog, checkedProgram halved = .ok prog ∧ prog.inlineFree = true ∧
        (∀ f ∈ prog.functions, f.name = "main" → f.declared.count "b" ≤ 1) ∧
        (∀ f ∈ prog.functions, f.name = "main" → "c" ∉ f.vars) ∧
        ((prog.annotate ()).renameLet "main" "b" "c" 0).functions.map Function.declared = [["a", "c"]] ∧
        ∃ obj, emit prog = .ok obj ∧ (obj.image.run 40 {}).ending = .exit 4 ∧ (obj.image.run 40 {}).run.out = [] := by
    decide +kernel
  have hcheck : Typing.check (prog.annotate ()) = .ok prog := Typing.check_iff.2 ⟨rfl, accepted_of_source hprog⟩
  obtain ⟨prog', obj₁, obj', hcheck', hobj₁, hobj', hsame⟩ := renamed_behaviour hcheck hfree honce hfresh 0
  obtain rfl : obj = obj₁ := by simpa using hobj.symm.trans hobj₁
  exact ⟨prog, prog', obj, obj', hprog, hfree, honce, hfresh, hdeclared, hcheck', hobj, hobj',
    ⟨by simp, 40, hrun⟩, hsame⟩

/-- A variable that hides another one of the same name. -/
def shadowed : String :=
  "fn main(): int \x7b let x: int = 1; if (true) \x7b let x: int = 2; \x7d return x; \x7d"

/-- Two variables of one name share a slot: the inner one overwrites the outer one, unless it has a name of its own. -/
theorem shadowed_renamed_differs : ∃ prog prog' obj obj', checkedProgram shadowed = .ok prog ∧
    prog.inlineFree = true ∧ (∀ f ∈ prog.functions, "y" ∉ f.vars) ∧
    ((prog.annotate ()).renameLet "main" "x" "y" 1).functions.map Function.declared = [["x", "y"]] ∧
    Typing.check ((prog.annotate ()).renameLet "main" "x" "y" 1) = .ok prog' ∧ emit prog = .ok obj ∧
    emit prog' = .ok obj' ∧ obj.image.Ends [] (.exit 2) ∧ obj'.image.Ends [] (.exit 1) := by
  obtain ⟨prog, hprog, hfree, hfresh, hdeclared, prog', hprog', obj, hobj, obj', hobj', hends, hends'⟩ :
      ∃ prog, checkedProgram shadowed = .ok prog ∧ prog.inlineFree = true ∧ (∀ f ∈ prog.functions, "y" ∉ f.vars) ∧
        ((prog.annotate ()).renameLet "main" "x" "y" 1).functions.map Function.declared = [["x", "y"]] ∧
        ∃ prog', Typing.check ((prog.annotate ()).renameLet "main" "x" "y" 1) = .ok prog' ∧
        ∃ obj, emit prog = .ok obj ∧ ∃ obj', emit prog' = .ok obj' ∧
          ((obj.image.run 40 {}).ending = .exit 2 ∧ (obj.image.run 40 {}).run.out = []) ∧
          (obj'.image.run 40 {}).ending = .exit 1 ∧ (obj'.image.run 40 {}).run.out = [] := by decide +kernel
  exact ⟨prog, prog', obj, obj', hprog, hfree, hfresh, hdeclared, hprog', hobj, hobj', ⟨by simp, 40, hends⟩,
    ⟨by simp, 40, hends'⟩⟩

end Bytecode

end Workbench
