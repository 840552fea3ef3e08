import Mathlib.Data.List.Forall2
import Workbench.Program

/-!
# Induction on programs

Expressions hold lists of expressions and statements hold lists of statements, so the recursors that come with
them speak of several types at once. The two principles here have one motive each. For expressions it is
passed to every argument of a call, and the targets of `&` are told apart the way the rest of the program
tells them apart. For statements it speaks of a list, by the statement that the list starts with.

What is read, checked or generated may fail on the way; `bind_eq_ok` takes a success apart, and `failure?` is what goes
wrong first.
-/

open List

namespace Workbench

section Success

variable {ε α β : Type}

variable {x : Except ε α} {f : α → Except ε β} {as : List α} {b : β}

theorem bind_eq_ok : (x >>= f) = .ok b ↔ ∃ a, x = .ok a ∧ f a = .ok b := by
  cases x with
  | error e => simp [bind, Except.bind]
  | ok a => simp [bind, Except.bind]

theorem pure_eq_ok {a b : α} : (pure a : Except ε α) = .ok b ↔ a = b := by
  simp [pure, Except.pure]

theorem map_eq_ok {f : α → β} : x.map f = .ok b ↔ ∃ a, x = .ok a ∧ f a = b := by
  cases x <;> simp [Except.map]

theorem map_eq_error {f : α → β} {e : ε} : x.map f = .error e ↔ x = .error e := by
  cases x <;> simp [Except.map]

theorem mapError_eq_ok {δ : Type} {f : ε → δ} {a : α} : x.mapError f = .ok a ↔ x = .ok a := by
  cases x <;> simp [Except.mapError]

instance decidableEqOk {a : α} [DecidableEq α] : Decidable (x = .ok a) :=
  match x with
  | .error _ => isFalse nofun
  | .ok b => decidable_of_iff (b = a) ⟨congrArg Except.ok, Except.ok.inj⟩

instance decidableExistsOk {P : α → Prop} [DecidablePred P] : Decidable (∃ a, x = .ok a ∧ P a) :=
  match x with
  | .error _ => isFalse fun ⟨_, h, _⟩ => nomatch h
  | .ok a => decidable_of_iff (P a) ⟨fun h => ⟨a, rfl, h⟩, fun ⟨_, h, hp⟩ => Except.ok.inj h ▸ hp⟩

instance decidableExistsSome {o : Option α} {P : α → Prop} [DecidablePred P] : Decidable (∃ a, o = some a ∧ P a) :=
  match o with
  | none => isFalse fun ⟨_, h, _⟩ => nomatch h
  | some a => decidable_of_iff (P a) ⟨fun h => ⟨a, rfl, h⟩, fun ⟨_, h, hp⟩ => Option.some.inj h ▸ hp⟩

theorem mapM_eq_ok : ∀ {bs : List β}, as.mapM f = .ok bs ↔ List.Forall₂ (fun a b => f a = .ok b) as bs := by
  induction as with
  | nil =>
    intro bs
    rw [mapM_nil, pure_eq_ok, forall₂_nil_left_iff, eq_comm]
  | cons a as ih =>
    intro bs
    simp only [mapM_cons, bind_eq_ok, pure_eq_ok, forall₂_cons_left_iff, ih]
    constructor
    · rintro ⟨b, hb, bs, hbs, rfl⟩
      exact ⟨b, bs, hb, hbs, rfl⟩
    · rintro ⟨b, bs, hb, hbs, rfl⟩
      exact ⟨b, hb, bs, hbs, rfl⟩

theorem exists_of_mapM_ok {bs : List β} (h : as.mapM f = .ok bs) : ∀ b ∈ bs, ∃ a ∈ as, f a = .ok b := by
  have hall := mapM_eq_ok.1 h
  clear h
  induction hall with
  | nil => simp
  | cons hb _ ih =>
    intro b hmem
    rcases mem_cons.1 hmem with rfl | hmem
    · exact ⟨_, by simp, hb⟩
    · obtain ⟨a, ha, hab⟩ := ih b hmem
      exact ⟨a, by simp [ha], hab⟩

end Success

section Failure

variable {ε α β : Type}

/-- What goes wrong in a computation, if anything does. -/
def failure? : Except ε α → Option ε
  | .ok _ => none
  | .error e => some e

variable {x : Except ε α}

theorem failure?_eq_none : failure? x = none ↔ ∃ a, x = .ok a := by
  cases x <;> simp [failure?]

theorem failure?_eq_some {e : ε} : failure? x = some e ↔ x = .error e := by
  cases x <;> simp [failure?]

/-- If the second part goes wrong in the same way whatever the first one gives, the first failure counts. -/
theorem failure?_bind {f : α → Except ε β} {o : Option ε} (hf : ∀ a, failure? (f a) = o) :
    failure? (x >>= f) = (failure? x).or o := by
  cases x with
  | error e => rfl
  | ok a => exact hf a

theorem failure?_mapM (f : α → Except ε β) (as : List α) : failure? (as.mapM f) = as.findSome? fun a => failure? (f a) := by
  induction as with
  | nil => rfl
  | cons a as ih =>
    have hrest : ∀ b, failure? (as.mapM f >>= fun bs => pure (b :: bs)) = failure? (as.mapM f) := by
      intro b
      rw [failure?_bind (o := none) fun _ => rfl, Option.or_none]
    rw [mapM_cons, failure?_bind hrest, ih, findSome?_cons]
    cases failure? (f a) <;> rfl

end Failure

theorem mem_of_lookup {α : Type} {k : String} {a : α} {l : List (String × α)} (h : l.lookup k = some a) :
    (k, a) ∈ l := by
  obtain ⟨l₁, l₂, rfl, -⟩ := lookup_eq_some_iff.1 h
  simp

theorem exists_mem_zip {α β : Type} {as : List α} {bs : List β} (h : as.length = bs.length) {a : α} (ha : a ∈ as) :
    ∃ b, (a, b) ∈ as.zip bs := by
  obtain ⟨i, hi, rfl⟩ := getElem_of_mem ha
  have hlt : i < (as.zip bs).length := by
    rw [length_zip]
    omega
  exact ⟨bs[i], mem_iff_getElem.2 ⟨i, hlt, getElem_zip⟩⟩

/-- A first operand of the truth `d` decides a short circuit; any other operator has both operands evaluated. -/
theorem BinaryOp.circuit_cases (op : BinaryOp) : (∃ d : Bool, op = if d then .or else .and) ∨ op ≠ .and ∧ op ≠ .or := by
  cases op with
  | and => exact .inl ⟨false, rfl⟩
  | or => exact .inl ⟨true, rfl⟩
  | _ => exact .inr ⟨nofun, nofun⟩

@[elab_as_elim]
theorem Expr.induction {α : Type} {motive : Expr α → Prop}
    (lit : ∀ a v, motive (.lit a v))
    (var : ∀ a x, motive (.var a x))
    (unary : ∀ a op e, motive e → motive (.unary a op e))
    (binary : ∀ a op l r, motive l → motive r → motive (.binary a op l r))
    (call : ∀ a f args, (∀ e ∈ args, motive e) → motive (.call a f args))
    (index : ∀ a x i, motive x → motive i → motive (.index a x i))
    (addrVar : ∀ a b x, motive (.addr a (.var b x)))
    (addrIndex : ∀ a b x i, motive x → motive i → motive (.addr a (.index b x i)))
    (addr : ∀ a t, (∀ b x, t ≠ .var b x) → (∀ b x i, t ≠ .index b x i) → motive t → motive (.addr a t))
    (hole : ∀ a, motive (.hole a)) (e : Expr α) : motive e := by
  refine (@Expr.rec α (fun e => motive e ∧ ∀ a, motive (.addr a e)) (fun es => ∀ e ∈ es, motive e) ?_ ?_ ?_ ?_ ?_ ?_ ?_ ?_
    ?_ ?_ e).1
  · exact fun a v => ⟨lit a v, fun b => addr b _ nofun nofun (lit a v)⟩
  · exact fun a x => ⟨var a x, fun b => addrVar b a x⟩
  · exact fun a op e he => ⟨unary a op e he.1, fun b => addr b _ nofun nofun (unary a op e he.1)⟩
  · exact fun a op l r hl hr =>
      ⟨binary a op l r hl.1 hr.1, fun b => addr b _ nofun nofun (binary a op l r hl.1 hr.1)⟩
  · exact fun a f args h => ⟨call a f args h, fun b => addr b _ nofun nofun (call a f args h)⟩
  · exact fun a x i hx hi => ⟨index a x i hx.1 hi.1, fun b => addrIndex b a x i hx.1 hi.1⟩
  · exact fun a t ht => ⟨ht.2 a, fun b => addr b _ nofun nofun (ht.2 a)⟩
  · exact fun a => ⟨hole a, fun b => addr b _ nofun nofun (hole a)⟩
  · exact nofun
  · exact fun e es he hes => forall_mem_cons.2 ⟨he.1, hes⟩

/-- Induction on statements and on lists of them. -/
theorem Stmt.parts_induction {α : Type} {P : Stmt α → Prop} {R : List (Stmt α) → Prop} (nil : R [])
    (cons : ∀ s ss, P s → R ss → R (s :: ss)) (expr : ∀ e, P (.expr e)) (decl : ∀ x t init, P (.decl x t init))
    (assign : ∀ t v, P (.assign t v)) (print : ∀ nl e, P (.print nl e)) (ret : ∀ v, P (.ret v))
    (asm : ∀ text, P (.asm text)) (vmAsm : ∀ text, P (.vmAsm text)) (condThen : ∀ c yes, R yes → P (.cond c yes none))
    (cond : ∀ c yes no, R yes → R no → P (.cond c yes (some no))) (loop : ∀ c body, R body → P (.loop c body))
    (block : ∀ body, R body → P (.block body)) (ss : List (Stmt α)) : R ss :=
  @Stmt.rec_1 α P R (fun no => ∀ c yes, R yes → P (.cond c yes no)) expr decl assign print ret asm vmAsm
    (fun c yes _ hyes h => h c yes hyes) loop block nil cons condThen (fun no hno c yes hyes => cond c yes no hyes hno) ss

@[elab_as_elim]
theorem Stmt.induction {α : Type} {motive : List (Stmt α) → Prop}
    (nil : motive [])
    (expr : ∀ e ss, motive ss → motive (.expr e :: ss))
    (decl : ∀ x t init ss, motive ss → motive (.decl x t init :: ss))
    (assign : ∀ t v ss, motive ss → motive (.assign t v :: ss))
    (print : ∀ nl e ss, motive ss → motive (.print nl e :: ss))
    (ret : ∀ v ss, motive ss → motive (.ret v :: ss))
    (asm : ∀ text ss, motive ss → motive (.asm text :: ss))
    (vmAsm : ∀ text ss, motive ss → motive (.vmAsm text :: ss))
    (cond : ∀ c yes no ss, motive yes → (∀ b, no = some b → motive b) → motive ss → motive (.cond c yes no :: ss))
    (loop : ∀ c body ss, motive body → motive ss → motive (.loop c body :: ss))
    (block : ∀ body ss, motive body → motive ss → motive (.block body :: ss)) (ss : List (Stmt α)) : motive ss :=
  Stmt.parts_induction (P := fun s => ∀ ss, motive ss → motive (s :: ss)) nil (fun _ ss hs => hs ss) expr decl assign print
    ret asm vmAsm (fun c yes hyes ss => cond c yes none ss hyes nofun)
    (fun c yes no hyes hno ss => cond c yes (some no) ss hyes fun _ h => Option.some.inj h ▸ hno)
    (fun c body hbody ss => loop c body ss hbody) (fun body hbody ss => block body ss hbody) ss

namespace Expr

variable {α : Type}

mutual

/-- The variables of an expression. -/
def vars : Expr α → List String
  | .lit .. | .hole _ => []
  | .var _ x => [x]
  | .unary _ _ e | .addr _ e => e.vars
  | .binary _ _ l r | .index _ l r => l.vars ++ r.vars
  | .call _ _ args => allVars args
termination_by structural e => e

/-- The variables of expressions. -/
def allVars : List (Expr α) → List String
  | [] => []
  | e :: es => e.vars ++ allVars es
termination_by structural es => es

end

theorem allVars_eq (es : List (Expr α)) : allVars es = es.flatMap vars := by
  induction es with
  | nil => rfl
  | cons e es ih => rw [allVars, ih, flatMap_cons]

end Expr

namespace Stmt

variable {α : Type}

mutual

/-- What a statement declares. -/
def declsOf : Stmt α → List (String × Option String)
  | .decl x t _ => [(x, t)]
  | .cond _ yes none => decls yes
  | .cond _ yes (some no) => decls yes ++ decls no
  | .loop _ body => decls body
  | _ => []
termination_by structural s => s

/-- What statements declare, with the types that are written, in order. Bare blocks are left out. -/
def decls : List (Stmt α) → List (String × Option String)
  | [] => []
  | s :: ss => declsOf s ++ decls ss
termination_by structural ss => ss

end

mutual

/-- A statement without machine instructions in it. -/
def inlineFree : Stmt α → Bool
  | .vmAsm _ => false
  | .cond _ yes none => allInlineFree yes
  | .cond _ yes (some no) => allInlineFree yes && allInlineFree no
  | .loop _ body | .block body => allInlineFree body
  | _ => true
termination_by structural s => s

/-- Statements without machine instructions in them. -/
def allInlineFree : List (Stmt α) → Bool
  | [] => true
  | s :: ss => inlineFree s && allInlineFree ss
termination_by structural ss => ss

end

mutual

/-- No expression is a statement in the code of the statement. -/
def quiet : Stmt α → Bool
  | .expr _ => false
  | .cond _ yes none => allQuiet yes
  | .cond _ yes (some no) => allQuiet yes && allQuiet no
  | .loop _ body => allQuiet body
  | _ => true
termination_by structural s => s

/-- No expression is a statement in the code of the statements. -/
def allQuiet : List (Stmt α) → Bool
  | [] => true
  | s :: ss => quiet s && allQuiet ss
termination_by structural ss => ss

end

end Stmt

/-- A program without machine instructions in it. -/
def Program.inlineFree {α : Type} (prog : Program α) : Bool := prog.functions.all fun f => Stmt.allInlineFree f.body

end Workbench
