import Workbench.Proofs.Agreement
import Workbench.Proofs.Elements
import Workbench.Proofs.ScalarCorrect
import Workbench.Proofs.StringTypes

/-!
# What is laid out as an array

The analysis gives a variable the type of the declaration that is visible: that of a parameter, the one that a `let`
writes, or that of its initial value. The layout of a function only looks at what is written, and only in the first
declaration of a name, where a parameter has nothing written (`Slots.length?_ofFunction`). So the two agree on variables
that are declared as arrays in all their declarations. Other arrays are single cells, and the accesses to them are
compiled to a zero or to nothing (`array_layout`).
-/

open List

namespace Workbench

open Typing (Note Signatures Scope HasType Checked)

/-! ### The types of variables -/

namespace Expr

mutual

/-- The variables of an expression that have types noted on them, with these. -/
def notedVars : Expr Note → List (String × Ty)
  | .var (some t) x => [(x, t)]
  | .var none _ | .lit .. | .hole _ => []
  | .unary _ _ e | .addr _ e => e.notedVars
  | .binary _ _ l r | .index _ l r => l.notedVars ++ r.notedVars
  | .call _ _ args => allNotedVars args
termination_by structural e => e

/-- `Expr.notedVars` of all expressions. -/
def allNotedVars : List (Expr Note) → List (String × Ty)
  | [] => []
  | e :: es => e.notedVars ++ allNotedVars es
termination_by structural es => es

end

theorem allNotedVars_eq (es : List (Expr Note)) : allNotedVars es = es.flatMap notedVars := by
  induction es with
  | nil => rfl
  | cons e es ih => rw [allNotedVars, ih, flatMap_cons]

end Expr

section Noted

variable {table : Signatures} {scope scope' : Scope} {x : String} {t u : Ty}

variable {D : String → Ty → Prop} {ss : List (Stmt Note)} {s : Stmt Note} {e : Expr Note}

/-- The noted type of a variable is that of the declaration that is visible. -/
theorem Typing.HasType.resolve?_of_noted (h : HasType table scope e t) (hmem : (x, u) ∈ e.notedVars) :
    scope.resolve? x = some u := by
  induction h with
  | lit | addrVar => cases hmem
  | var hx =>
    cases mem_singleton.1 hmem
    exact hx
  | unary _ _ ih => exact ih hmem
  | binary _ _ _ ihl ihr | index _ _ _ ihl ihr | addrIndex _ _ _ ihl ihr => exact (mem_append.1 hmem).elim ihl ihr
  | push _ _ _ _ iha ihn ihv =>
    simp only [Expr.notedVars, Expr.allNotedVars, append_nil, mem_append] at hmem
    rcases hmem with hmem | hmem | hmem
    · exact iha hmem
    · exact ihn hmem
    · exact ihv hmem
  | pop _ _ _ iha ihn =>
    simp only [Expr.notedVars, Expr.allNotedVars, append_nil, mem_append] at hmem
    exact hmem.elim iha ihn
  | call _ _ _ hlen _ ih =>
    rw [Expr.notedVars, Expr.allNotedVars_eq] at hmem
    obtain ⟨a, ha, hmem⟩ := mem_flatMap.1 hmem
    obtain ⟨v, hv⟩ := exists_mem_zip hlen ha
    exact ih a v hv hmem

/-- The noted types in the expression are those of declarations of `D`. -/
def Expr.NotedIn (D : String → Ty → Prop) (e : Expr Note) : Prop := ∀ x t, (x, t) ∈ e.notedVars → D x t

theorem Typing.HasType.notedIn (h : HasType table scope e t) (hscope : ∀ x t, scope.resolve? x = some t → D x t) :
    e.NotedIn D :=
  fun x t hx => hscope x t (h.resolve?_of_noted hx)

/-- The declarations among the statements are in `D`. -/
def Stmt.DeclaredIn (D : String → Ty → Prop) (ss : List (Stmt Note)) : Prop :=
  ∀ x w init t, .decl x w init ∈ ss → declaredTy w init = some t → D x t

theorem Stmt.DeclaredIn.mono {ss ss' : List (Stmt Note)} (h : DeclaredIn D ss) (hsub : ss' ⊆ ss) :
    DeclaredIn D ss' := fun x w init t hx => h x w init t (hsub hx)

theorem Stmt.DeclaredIn.rest (h : DeclaredIn D (nodes (s :: ss))) :
    DeclaredIn D (nodes ss) := h.mono (subset_append_right _ _)

theorem Stmt.DeclaredIn.inner {parts ss : List (Stmt Note)} (h : DeclaredIn D (s :: parts ++ nodes ss)) :
    DeclaredIn D parts :=
  h.mono fun _ hs => mem_append_left _ (mem_cons_of_mem _ hs)

/-- The noted types in the statements are those of declarations of `D`. -/
def Stmt.NotedIn (D : String → Ty → Prop) (ss : List (Stmt Note)) : Prop :=
  (∀ e ∈ exprs ss, e.NotedIn D) ∧ ∀ e ∈ prints ss, e.NotedIn D

theorem Stmt.NotedIn.cons (hexprs : ∀ e ∈ exprsOf s, e.NotedIn D) (hprints : ∀ e ∈ printsOf s, e.NotedIn D)
    (h : NotedIn D ss) : NotedIn D (s :: ss) :=
  ⟨forall_mem_append.2 ⟨hexprs, h.1⟩, forall_mem_append.2 ⟨hprints, h.2⟩⟩

/-- If `D` has all that is visible or declared, it has the noted types. -/
theorem Typing.Checked.noted (h : Checked table scope ss) (hscope : ∀ x t, scope.resolve? x = some t → D x t)
    (hdecls : Stmt.DeclaredIn D (Stmt.nodes ss)) : Stmt.NotedIn D ss := by
  have hnone : ∀ e ∈ ([] : List (Expr Note)), e.NotedIn D := forall_mem_nil _
  induction h with
  | nil => exact ⟨hnone, hnone⟩
  | expr he _ ih => exact .cons (forall_mem_singleton.2 (he.notedIn hscope)) hnone (ih hscope hdecls.rest)
  | @decl scope scope' x w init t ss ht hx _ ih =>
    have hself : D x t :=
      hdecls x w init t (mem_append_left _ (mem_singleton.2 rfl)) (declaredTy_of_declaredAs ht)
    refine .cons (fun e he => (ht.1 e (Option.mem_toList.1 he)).notedIn hscope) hnone (ih (fun y u hy => ?_) hdecls.rest)
    by_cases hyx : y = x
    · subst hyx
      rw [Bytecode.Body.resolve?_declare_self hx] at hy
      cases hy
      exact hself
    · rw [Typing.resolve?_declare hx hyx] at hy
      exact hscope y u hy
  | @assignVar scope x e t ss _ he _ ih =>
    have htarget : (Expr.var none x).NotedIn D := fun y u hy => absurd hy not_mem_nil
    exact .cons (forall_mem_cons.2 ⟨htarget, forall_mem_singleton.2 (he.notedIn hscope)⟩) hnone
      (ih hscope hdecls.rest)
  | @assignIndex scope a i e t ss ha ht hi he _ ih =>
    have htarget : (Expr.index none a i).NotedIn D := (HasType.index ha ht hi).notedIn hscope
    exact .cons (forall_mem_cons.2 ⟨htarget, forall_mem_singleton.2 (he.notedIn hscope)⟩) hnone
      (ih hscope hdecls.rest)
  | print he _ _ ih => exact .cons hnone (forall_mem_singleton.2 (he.notedIn hscope)) (ih hscope hdecls.rest)
  | ret he _ ih =>
    refine .cons (fun e hmem => ?_) hnone (ih hscope hdecls.rest)
    obtain ⟨t, ht⟩ := he e (Option.mem_toList.1 hmem)
    exact ht.notedIn hscope
  | asm _ ih | vmAsm _ ih | block _ ih => exact ih hscope hdecls.rest
  | @cond scope test yes no t ss he _ _ _ ihyes ihno ih =>
    cases no with
    | none =>
      obtain ⟨hyes, hyes'⟩ := ihyes hscope hdecls.inner
      exact .cons (forall_mem_cons.2 ⟨he.notedIn hscope, hyes⟩) hyes' (ih hscope hdecls.rest)
    | some b =>
      have hinner : Stmt.DeclaredIn D (Stmt.nodes yes ++ Stmt.nodes b) := hdecls.inner
      obtain ⟨hyes, hyes'⟩ := ihyes hscope (hinner.mono (subset_append_left _ _))
      obtain ⟨hno, hno'⟩ := ihno b rfl hscope (hinner.mono (subset_append_right _ _))
      exact .cons (forall_mem_cons.2 ⟨he.notedIn hscope, forall_mem_append.2 ⟨hyes, hno⟩⟩)
        (forall_mem_append.2 ⟨hyes', hno'⟩) (ih hscope hdecls.rest)
  | loop he _ _ ihbody ih =>
    obtain ⟨hbody, hbody'⟩ := ihbody hscope hdecls.inner
    exact .cons (forall_mem_cons.2 ⟨he.notedIn hscope, hbody⟩) hbody' (ih hscope hdecls.rest)

end Noted

/-- The function declares the variable with the type, as a parameter or with a `let`. -/
def Function.Declares (f : Function Note) (x : String) (t : Ty) : Prop :=
  (∃ p ∈ f.params, p.name = x ∧ Ty.ofName p.typeName = t) ∨
    ∃ w init, .decl x w init ∈ Stmt.nodes f.body ∧ declaredTy w init = some t

theorem Function.declares_of_noted {table : Signatures} {f : Function Note} (h : Typing.CheckedFunction table f)
    {e : Expr Note} (he : e ∈ Stmt.exprs f.body ++ Stmt.prints f.body) {x : String} {t : Ty}
    (hx : (x, t) ∈ e.notedVars) : f.Declares x t := by
  obtain ⟨⟨scope, hscope, hbody⟩, -⟩ := h
  have hlen : f.params.length = (Signatures.ofFunction f).params.length := by simp [Signatures.ofFunction]
  obtain rfl := Scalar.declareParams_eq hlen hscope
  have hparams : ∀ y u, Scope.resolve? y [[] ++ (f.params.map (·.name)).zip (Signatures.ofFunction f).params] = some u →
      f.Declares y u := by
    intro y u hy
    have hlookup : ((f.params.map (·.name)).zip (Signatures.ofFunction f).params).lookup y = some u := by
      simpa [Scope.resolve?] using hy
    have hmem := mem_of_lookup hlookup
    rw [Signatures.ofFunction, zip_map'] at hmem
    obtain ⟨p, hp, heq⟩ := mem_map.1 hmem
    cases heq
    exact .inl ⟨p, hp, rfl, rfl⟩
  obtain ⟨hexprs, hprints⟩ := hbody.noted hparams fun y w init u hdecl hu => .inr ⟨w, init, hdecl, hu⟩
  exact (mem_append.1 he).elim (fun he => hexprs e he x t hx) fun he => hprints e he x t hx

namespace Bytecode

open Machine (Image)

/-! ### The lengths of arrays -/

variable {a : String} {env : Env} {n : Nat}

theorem arrayLength?_of_ofName {t name : String} (h : Ty.ofName t = .array name n) : Ty.arrayLength? t = some n := by
  unfold Ty.ofName at h
  split at h
  · rename_i m hm
    cases h
    exact hm
  · repeat' split at h
    all_goals cases h

/-- A variable whose declarations all write one type has the length that the analysis gives it. -/
theorem length?_of_declares {f : Function Note} {x name : String} (h : f.Declares x (.array name n)) {t : String}
    (ht : ∀ d ∈ Slots.declsOf f, d.1 = x → Ty.written? d.2 = some t) : (Slots.ofFunction f).length? x = some n := by
  rcases h with ⟨p, hp, rfl, -⟩ | ⟨w, init, hdecl, hty⟩
  · have hnone := ht (p.name, none) (mem_append_left _ (mem_map_of_mem hp)) rfl
    cases hnone
  · have hmem : (x, w) ∈ Slots.declsOf f := mem_append_right _ ((Stmt.mem_decls _).2 ⟨init, hdecl⟩)
    have hlength : Ty.arrayLength? t = some n := by
      rw [declaredTy, ht _ hmem rfl] at hty
      exact arrayLength?_of_ofName (Option.some.inj hty)
    rw [Slots.length?_ofFunction]
    cases hfirst : (Slots.declsOf f).lookup x with
    | none => exact absurd (lookup_eq_none_iff.1 hfirst _ hmem) (by simp)
    | some w' =>
      obtain rfl : w' = some t := (Option.filter_eq_some_iff.1 (ht _ (mem_of_lookup hfirst) rfl)).1
      exact hlength

/-- The code of accesses to a name that is not laid out as an array. -/
structure FallbackCode (env : Env) (a : String) : Prop where
  assign : ∀ p (x y : Note) i v, assignCode env p (.index x (.var y a) i) v = .ofCode []
  push : ∀ p (x y : Note) i v, exprCode env p (.call x "array_push" [.var y a, i, v]) =
    exprCode env p i ++ .push 1 ++ .op .add
  index : ∀ p (x y : Note) i, exprCode env p (.index x (.var y a) i) = .push 0
  pop : ∀ p (x y : Note) n, exprCode env p (.call x "array_pop" [.var y a, n]) = .push 0
  addr : ∀ p (x y z : Note) i, exprCode env p (.addr x (.index y (.var z a) i)) = .push 0

theorem fallbackCode (h : env.slots.length? a = none) : FallbackCode env a := by
  have hcell (y : Note) : env.arrayCell? (.var y a) = none := by
    simp [Env.arrayCell?, Expr.varName?, Slots.arrayCell?, h]
  constructor
  · intro p x y i v
    simp only [assignCode, hcell]
  · intro p x y i v
    simp only [exprCode, hcell]
  · intro p x y i
    simp only [exprCode, hcell]
  · intro p x y n
    simp only [exprCode, hcell]
  · intro p x y z i
    simp only [exprCode, hcell]

/-- **What is an array to the analysis and to the layout.** A variable to which the analysis gives an array type is
listed with the length that is written in its first declaration, and not at all if none is. The accesses to a variable
that is listed are compiled to accesses to its elements; to one that is not, they are zero, or nothing. -/
theorem array_layout {source : String} {prog : Program Note} (hprog : checkedProgram source = .ok prog)
    {f : Function Note} (hf : f ∈ prog.functions) {e : Expr Note} (he : e ∈ Stmt.exprs f.body ++ Stmt.prints f.body)
    {x name : String} {n : Nat} (hx : (x, .array name n) ∈ e.notedVars) :
    f.Declares x (.array name n) ∧
    (Slots.ofFunction f).length? x = ((Slots.declsOf f).lookup x).bind (·.bind Ty.arrayLength?) ∧
    (∀ t, (∀ d ∈ Slots.declsOf f, d.1 = x → Ty.written? d.2 = some t) → (Slots.ofFunction f).length? x = some n) ∧
    ∀ env : Env, env.slots = Slots.ofFunction f →
      (∀ m, (Slots.ofFunction f).length? x = some m → ∃ base, (Slots.ofFunction f).Holds x base m ∧
        AccessCode env x base ∧ ∀ p (a b c : Note) i, exprCode env p (.addr a (.index b (.var c x) i)) =
          exprCode env p i ++ .push base ++ .op .add) ∧
      ((Slots.ofFunction f).length? x = none → FallbackCode env x) := by
  have hdeclares := Function.declares_of_noted ((accepted_of_source hprog).checked f hf) he hx
  refine ⟨hdeclares, Slots.length?_ofFunction f x, fun t => length?_of_declares hdeclares, fun env henv => ?_⟩
  refine ⟨fun m hm => ?_, fun hnone => fallbackCode (henv ▸ hnone)⟩
  obtain ⟨base, hholds⟩ := Slots.exists_holds_of_length? hm
  refine ⟨base, hholds, accessCode (henv ▸ hholds), fun p a b c i => ?_⟩
  have hcell : env.arrayCell? (.var c x) = some base := (henv ▸ hholds).arrayCell?
  simp only [exprCode, hcell]

/-- Uses the last element of an array that is declared in the function. -/
def lastOfTwo : String := "fn main(): int \x7b let a: int[2]; a[1] = 5; return a[1]; \x7d"

theorem lastOfTwo_listed : ∃ prog f, checkedProgram lastOfTwo = .ok prog ∧ f ∈ prog.functions ∧
    (∃ e ∈ Stmt.exprs f.body ++ Stmt.prints f.body, ("a", .array "int[2]" 2) ∈ e.notedVars) ∧
    Slots.declsOf f = [("a", some "int[2]")] ∧ (Slots.ofFunction f).length? "a" = some 2 ∧
    ∃ base, ∀ env : Env, env.slots = Slots.ofFunction f → AccessCode env "a" base := by
  obtain ⟨prog, hprog, f, hf, ⟨e, he, hx⟩, hdecls⟩ : ∃ prog, checkedProgram lastOfTwo = .ok prog ∧
      ∃ f ∈ prog.functions, (∃ e ∈ Stmt.exprs f.body ++ Stmt.prints f.body, ("a", .array "int[2]" 2) ∈ e.notedVars) ∧
        Slots.declsOf f = [("a", some "int[2]")] := by
    rw [checkedProgram, show Token.tokens lastOfTwo = _ from Token.tokens_ofList _]
    decide +kernel
  obtain ⟨-, -, hlisted, hcode⟩ := array_layout hprog hf he hx
  have hlength := hlisted "int[2]" (by
    rw [hdecls]
    simp only [List.forall_mem_singleton]
    exact fun _ => by decide +kernel)
  obtain ⟨base, hbase⟩ := Slots.exists_holds_of_length? hlength
  refine ⟨prog, f, hprog, hf, ⟨e, he, hx⟩, hdecls, hlength, base, fun env henv => ?_⟩
  obtain ⟨base', hbase', haccess, -⟩ := (hcode env henv).1 2 hlength
  obtain rfl : base = base' := Option.some.inj (hbase.cell.symm.trans hbase'.cell)
  exact haccess

/-- Uses the last element of an array that is a parameter. -/
def lastOfParam : String :=
  "fn g(a: int[2]): int \x7b a[1] = 5; return a[1]; \x7d fn main(): int \x7b let a: int[2]; return g(a); \x7d"

/-- The code of `lastOfParam`. -/
def lastOfParamImage : Image where
  code := #[⟨.pushInt, some 0⟩, ⟨.ret, none⟩, ⟨.pushInt, some 0⟩, ⟨.ret, none⟩,
    ⟨.pushInt, some 0⟩, ⟨.storeLocal, some 0⟩, ⟨.pushInt, some 0⟩, ⟨.storeLocal, some 1⟩, ⟨.loadLocal, some 0⟩,
    ⟨.call, some 0⟩, ⟨.ret, none⟩, ⟨.pushInt, some 0⟩, ⟨.ret, none⟩]
  functions := #[⟨"g", 0, 1, 1⟩, ⟨"main", 4, 2, 0⟩]
  strings := []

/-- A parameter has an array type and is not laid out as an array: there is no code for the store, and the element is
zero. -/
theorem lastOfParam_not_listed : (∃ prog f, checkedProgram lastOfParam = .ok prog ∧ f ∈ prog.functions ∧
      (∃ e ∈ Stmt.exprs f.body ++ Stmt.prints f.body, ("a", .array "int[2]" 2) ∈ e.notedVars) ∧
      (Slots.ofFunction f).length? "a" = none) ∧
    imageOf lastOfParam = .ok lastOfParamImage ∧ lastOfParamImage.Ends [] (.exit 0) := by
  obtain ⟨prog, hprog, f, hf, hnoted, hlength⟩ : ∃ prog, checkedProgram lastOfParam = .ok prog ∧
      ∃ f ∈ prog.functions, (∃ e ∈ Stmt.exprs f.body ++ Stmt.prints f.body, ("a", .array "int[2]" 2) ∈ e.notedVars) ∧
        (Slots.ofFunction f).length? "a" = none := by
    rw [checkedProgram, show Token.tokens lastOfParam = _ from Token.tokens_ofList _]
    decide +kernel
  have himage : imageOf lastOfParam = .ok lastOfParamImage := by
    rw [imageOf, checkedProgram, show Token.tokens lastOfParam = _ from Token.tokens_ofList _]
    decide +kernel
  exact ⟨⟨prog, f, hprog, hf, hnoted, hlength⟩, himage, by simp, 20, by decide⟩

end Bytecode

end Workbench
