import Mathlib.Data.List.Nodup
import Workbench.Proofs.Slots
import Workbench.Proofs.Typed

/-!
# Programs that keep strings apart from numbers

Strings and numbers are the same to the machine, and the analysis does not keep them apart everywhere.
`Program.Orderly` says where a program has to do so itself. A function that is declared to give a string returns
nothing else, and it is called for its value only after its declaration. A variable that is no string does not take the
cell of one that is visible, and no string takes the cells of an array. Arguments after a string leave nothing but their
values on the stack, or else the string would come to another parameter; the functions of a list `tidy` do so, which
have no statements that are expressions and call no others. A function without a value is not called for one.
-/

open List

namespace Workbench

open Typing (Note)

namespace Stmt

variable {α : Type}

mutual

/-- A statement and those in it that code is generated for. -/
def nodesOf : Stmt α → List (Stmt α)
  | .cond test yes none => .cond test yes none :: nodes yes
  | .cond test yes (some no) => .cond test yes (some no) :: (nodes yes ++ nodes no)
  | .loop test body => .loop test body :: nodes body
  | s => [s]
termination_by structural s => s

/-- Statements and those in them that code is generated for. -/
def nodes : List (Stmt α) → List (Stmt α)
  | [] => []
  | s :: ss => nodesOf s ++ nodes ss
termination_by structural ss => ss

end

theorem mem_decls {x : String} {w : Option String} (ss : List (Stmt α)) :
    (x, w) ∈ decls ss ↔ ∃ init, .decl x w init ∈ nodes ss := by
  induction ss using Stmt.parts_induction (P := fun s => (x, w) ∈ declsOf s ↔ ∃ init, decl x w init ∈ nodesOf s) with
  | nil => simp [decls, nodes]
  | cons s ss ihs ih => simp [decls, nodes, ihs, ih, exists_or]
  | decl y t init => simp [declsOf, nodesOf]
  | cond c yes b ihy ihn => simp [declsOf, nodesOf, ihy, ihn, exists_or]
  | condThen c body ihb | loop c body ihb => simp [declsOf, nodesOf, ihb]
  | _ => simp [declsOf, nodesOf]

end Stmt

/-! ### Names of strings -/

/-- The type of a declaration: the written one, or else that of the initial value. -/
def declaredTy (written : Option String) (init : Option (Expr Note)) : Option Ty :=
  match Ty.written? written with
  | some name => some (Ty.ofName name)
  | none => init.bind Expr.note

theorem declaredTy_of_declaredAs {table : Typing.Signatures} {scope : Typing.Scope} {w : Option String}
    {init : Option (Expr Note)} {t : Ty} (h : Typing.DeclaredAs table scope w init t) : declaredTy w init = some t := by
  obtain ⟨hinit, ht⟩ := h
  unfold declaredTy
  cases hw : Ty.written? w with
  | some name =>
    rw [hw] at ht
    rw [ht]
  | none =>
    rw [hw] at ht
    obtain ⟨e, rfl⟩ := Option.ne_none_iff_exists'.1 ht
    exact (hinit e rfl).note_eq

def Stmt.seen (visible : List String) : Stmt Note → List String
  | .decl x written init => if declaredTy written init = some .str then x :: visible else visible
  | _ => visible

namespace Stmt

mutual

/-- No number is declared in the statement under the name of a string that is visible. -/
def unshadowedIn (visible : List String) : Stmt Note → Bool
  | .decl x written init => decide (declaredTy written init = some .str) || !visible.contains x
  | .cond _ yes none => unshadowed visible yes
  | .cond _ yes (some no) => unshadowed visible yes && unshadowed visible no
  | .loop _ body => unshadowed visible body
  | _ => true
termination_by structural s => s

/-- No number is declared in the statements under the name of a string that is visible; `visible` are those at the
beginning. -/
def unshadowed (visible : List String) : List (Stmt Note) → Bool
  | [] => true
  | s :: ss => unshadowedIn visible s && unshadowed (s.seen visible) ss
termination_by structural ss => ss

end

end Stmt

namespace Function

variable {f : Function Note} {x : String}

def textParams (f : Function Note) : List String :=
  (f.params.filter fun p => decide (Ty.ofName p.typeName = .str)).map (·.name)

/-- The names that are declared as strings. -/
def texts (f : Function Note) : List String :=
  f.textParams ++ (Stmt.nodes f.body).flatMap (Stmt.seen [])

theorem mem_textParams : x ∈ f.textParams ↔ ∃ p ∈ f.params, p.name = x ∧ Ty.ofName p.typeName = .str := by
  simp only [textParams, mem_map, mem_filter, decide_eq_true_eq]
  constructor
  · rintro ⟨p, ⟨hp, ht⟩, hname⟩
    exact ⟨p, hp, hname, ht⟩
  · rintro ⟨p, hp, hname, ht⟩
    exact ⟨p, ⟨hp, ht⟩, hname⟩

theorem mem_texts : x ∈ f.texts ↔ x ∈ f.textParams ∨
    ∃ w init, .decl x w init ∈ Stmt.nodes f.body ∧ declaredTy w init = some .str := by
  have hseen (s : Stmt Note) : x ∈ s.seen [] ↔ ∃ w init, s = .decl x w init ∧ declaredTy w init = some .str := by
    unfold Stmt.seen
    split
    · rename_i y w init
      split
      · rename_i hstr
        rw [mem_singleton]
        constructor
        · rintro rfl
          exact ⟨w, init, rfl, hstr⟩
        · rintro ⟨w', init', heq, -⟩
          cases heq
          rfl
      · rename_i hstr
        simp only [not_mem_nil, false_iff, not_exists, not_and]
        rintro w' init' heq
        cases heq
        exact hstr
    · rename_i hdecl
      simp only [not_mem_nil, false_iff, not_exists, not_and]
      rintro w init rfl
      exact absurd rfl (hdecl x w init)
  simp only [texts, mem_append, mem_flatMap, hseen]
  refine or_congr_right ⟨?_, ?_⟩
  · rintro ⟨s, hs, w, init, rfl, ht⟩
    exact ⟨w, init, hs, ht⟩
  · rintro ⟨w, init, hs, ht⟩
    exact ⟨_, hs, w, init, rfl, ht⟩

theorem exists_cell_of_declsOf {t : Option String} (h : (x, t) ∈ Bytecode.Slots.declsOf f) :
    ∃ k, (Bytecode.Slots.ofFunction f).cell? x = some k := by
  rw [Bytecode.Slots.ofFunction_eq]
  exact Option.isSome_iff_exists.1 (Bytecode.Slots.isSome_cell?_addDecls _ h)

theorem exists_cell_of_decl {w : Option String} {init : Option (Expr Note)} (h : .decl x w init ∈ Stmt.nodes f.body) :
    ∃ k, (Bytecode.Slots.ofFunction f).cell? x = some k :=
  exists_cell_of_declsOf (mem_append_right _ ((Stmt.mem_decls _).2 ⟨init, h⟩))

theorem exists_cell (hx : x ∈ f.texts) : ∃ k, (Bytecode.Slots.ofFunction f).cell? x = some k := by
  rcases mem_texts.1 hx with hx | ⟨w, init, hs, -⟩
  · obtain ⟨p, hp, rfl, -⟩ := mem_textParams.1 hx
    exact exists_cell_of_declsOf (mem_append_left _ (mem_map_of_mem hp))
  · exact exists_cell_of_decl hs

end Function

/-! ### Functions in use -/

/-- What matters of functions where they are called. -/
structure Usage where
  takes : String → List Bool
  /-- The function may be called for its value. -/
  valued : String → Bool
  /-- The function is one of the program. -/
  own : String → Bool
  /-- A call leaves nothing but its value. -/
  tidy : String → Bool

namespace Expr

mutual

/-- The functions that an expression calls may be called for their values, and arguments after a string leave nothing
else; nor does the expression with `exact`. -/
def orderly (u : Usage) (exact : Bool) : Expr Note → Bool
  | .lit .. | .var .. | .hole _ => true
  | .unary _ _ e | .addr _ e => e.orderly u exact
  | .binary _ _ l r | .index _ l r => l.orderly u exact && r.orderly u exact
  | .call _ g args => u.valued g && (!exact || u.tidy g) && orderlyArgs u exact (u.takes g) args
termination_by structural e => e

/-- `Expr.orderly` of arguments for parameters that are strings by `takes`. -/
def orderlyArgs (u : Usage) (exact : Bool) (takes : List Bool) : List (Expr Note) → Bool
  | [] => true
  | e :: es => e.orderly u exact && orderlyArgs u (exact || takes.headD false) takes.tail es
termination_by structural es => es

end

/-- An expression that may be a statement: its value is not used. -/
def stated (u : Usage) (e : Expr Note) : Bool :=
  e.orderly u false || match e with
    | .call _ g args => u.own g && orderlyArgs u false (u.takes g) args
    | _ => false

end Expr

/-- The expressions of the statement are orderly; with `exact` it leaves nothing on the stack, and with `giving` it
returns nothing but strings. -/
def Stmt.orderly (u : Usage) (exact giving : Bool) : Stmt Note → Bool
  | .expr e => !exact && e.stated u
  | .decl _ _ init => init.all (·.orderly u exact)
  | .assign target value => target.orderly u exact && value.orderly u exact
  | .print _ e | .cond e .. | .loop e _ => e.orderly u exact
  | .ret value => value.all (·.orderly u exact) && (!giving || value.any fun e => decide (e.note = some .str))
  | .vmAsm _ => false
  | .asm _ | .block _ => true

/-- A function keeps strings apart from numbers; with `exact` it leaves nothing but its value. -/
structure Function.Orderly (u : Usage) (exact : Bool) (f : Function Note) : Prop where
  result : exact = true → f.returnType ≠ some "void"
  scalars : ∀ x ∈ f.texts, (Bytecode.Slots.ofFunction f).length? x = none
  unshadowed : Stmt.unshadowed f.textParams f.body = true
  body : ∀ s ∈ Stmt.nodes f.body, s.orderly u exact (decide (f.returnType = some "str")) = true

instance (u : Usage) (exact : Bool) (f : Function Note) : Decidable (f.Orderly u exact) :=
  decidable_of_iff ((exact = true → f.returnType ≠ some "void") ∧
    (∀ x ∈ f.texts, (Bytecode.Slots.ofFunction f).length? x = none) ∧ Stmt.unshadowed f.textParams f.body = true ∧
    ∀ s ∈ Stmt.nodes f.body, s.orderly u exact (decide (f.returnType = some "str")) = true)
    ⟨fun h => ⟨h.1, h.2.1, h.2.2.1, h.2.2.2⟩, fun h => ⟨h.result, h.scalars, h.unshadowed, h.body⟩⟩

namespace Program

variable {prog : Program Note} {tidy known : List String} {g : Function Note}

def function? (prog : Program Note) (g : String) : Option (Function Note) := prog.functions.find? fun f => f.name == g

/-- The functions of a program in use where those of `known` have been declared. -/
def usage (prog : Program Note) (tidy known : List String) : Usage where
  takes g := (prog.function? g).elim [] fun f => (Typing.Signatures.ofFunction f).params.map fun t => decide (t = .str)
  valued g := decide (g ∉ ["store16", "memcpy", "memset"]) && (prog.function? g).all fun f =>
    decide (f.returnType ≠ some "void" ∧ (f.returnType = some "str" → g ∈ known))
  own g := (prog.function? g).isSome
  tidy g := (prog.function? g).isNone || tidy.contains g

/-- The functions of the program keep strings apart from numbers, and those of `tidy` leave nothing but their values. -/
def Orderly (prog : Program Note) (tidy : List String) : Prop :=
  ∀ p ∈ prog.functions.zipIdx,
    p.1.Orderly (prog.usage tidy ((prog.functions.map (·.name)).take (p.2 + 1))) (tidy.contains p.1.name)

instance (prog : Program Note) (tidy : List String) : Decidable (prog.Orderly tidy) :=
  inferInstanceAs (Decidable (∀ _ ∈ _, _))

section Nodup

variable (hnodup : (prog.functions.map (·.name)).Nodup) (hg : g ∈ prog.functions)
include hnodup hg

end Nodup

end Program

end Workbench
