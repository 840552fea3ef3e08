import Workbench.Proofs.Scalar
import Workbench.Proofs.ShapeRun
import Workbench.Proofs.Slots
import Workbench.Proofs.Typed

/-!
# Scalar programs and their shapes

`Sim` relates an evaluation to the run of a shape, with the fuel of the one in step with the bound on the other.
Expressions push their value (`expr_sim`), and statements keep the variables in scope in the cells of their
slots (`stmts_sim`). No name is declared twice, so leaving a block leaves the cells of the variables around it
as they are; types keep evaluation from getting stuck.
-/

open List

namespace Workbench.Scalar

open Bytecode (Act Result Flow Library Shape Slots View texts)
open Machine (Fault wrap ofBool)
open Typing (Note Signatures Scope HasType Checked)

/-! ### Evaluations and runs -/

/-- The ends of an evaluation and of a run; a return leaves `below` on the stack. -/
inductive Agree {α β : Type} (below : List Int) (R : α → β → Prop) : Except Stop α → Flow β → Prop
  | ok {a : α} {b : β} (h : R a b) : Agree below R (.ok a) (.done b)
  | returned {v : Int} : Agree below R (.error (.returned v)) (.ret v below)
  | division : Agree below R (.error .divisionByZero) (.fault .divisionByZero)
  | fuel : Agree below R (.error .outOfFuel) .cut

/-- An evaluation and a run print the same and come to the same end. -/
structure Sim {α β : Type} (below : List Int) (R : α → β → Prop) (m : Eval α) (r : Result β) : Prop where
  out : texts r.log = m.out
  agree : Agree below R m.result r.flow

namespace Sim

variable {α β γ δ : Type} {below : List Int} {R : α → β → Prop} {Q : γ → δ → Prop}

theorem pure {a : α} {b : β} (h : R a b) : Sim below R (Pure.pure a) (.pure b) := ⟨rfl, .ok h⟩

theorem bind {m : Eval α} {r : Result β} {f : α → Eval γ} {g : β → Result δ} (h : Sim below R m r)
    (hf : ∀ a b, R a b → Sim below Q (f a) (g b)) : Sim below Q (m >>= f) (r.bind g) := by
  obtain ⟨out, result⟩ := m
  obtain ⟨log, flow⟩ := r
  obtain ⟨hout, hagree⟩ := h
  cases hagree with
  | @ok a b hab =>
    obtain ⟨hout', hagree'⟩ := hf a b hab
    obtain rfl : texts log = out := hout
    refine ⟨?_, hagree'⟩
    show texts (log ++ (g b).log) = texts log ++ (f a).out
    rw [Bytecode.texts_append, hout']
  | returned => exact ⟨hout, .returned⟩
  | division => exact ⟨hout, .division⟩
  | fuel => exact ⟨hout, .fuel⟩

/-- A value on top of the operand stack, and what is done with it. -/
theorem push {a : Act} {m : Eval Int} {r : Result Act} {f : Int → Eval γ} {g : Act → Result δ}
    (h : Sim below (fun v b => b = a.push v) m r) (hf : ∀ v, Sim below Q (f v) (g (a.push v))) :
    Sim below Q (m >>= f) (r.bind g) := h.bind fun v _ hb => hb ▸ hf v

theorem mono {R' : α → β → Prop} {m : Eval α} {r : Result β} (h : Sim below R m r) (hR : ∀ a b, R a b → R' a b) :
    Sim below R' m r := by
  obtain ⟨out, result⟩ := m
  obtain ⟨log, flow⟩ := r
  obtain ⟨hout, hagree⟩ := h
  cases hagree with
  | ok h => exact ⟨hout, .ok (hR _ _ h)⟩
  | returned => exact ⟨hout, .returned⟩
  | division => exact ⟨hout, .division⟩
  | fuel => exact ⟨hout, .fuel⟩

end Sim

/-! ### Stores -/

/-- The names in scope, block by block. -/
def names {β : Type} (s : List (List (String × β))) : List (List String) := s.map (·.map (·.1))

theorem mem_names {β : Type} {s : List (List (String × β))} {x : String} :
    x ∈ (names s).flatten ↔ ∃ b ∈ s, ∃ v, (x, v) ∈ b := by
  simp [names]

theorem lookup_isSome {β : Type} {b : List (String × β)} {x : String} :
    (b.lookup x).isSome = true ↔ x ∈ b.map (·.1) := by
  simp

theorem findSome?_isSome {β : Type} {s : List (List (String × β))} {x : String} :
    (s.findSome? (·.lookup x)).isSome = true ↔ x ∈ (names s).flatten := by
  rw [mem_names]
  simp [lookup_isSome_iff]

namespace Store

variable {s : Store} {x : String} {v : Int}

theorem mem_of_get? (h : s.get? x = some v) : ∃ b ∈ s, (x, v) ∈ b := by
  obtain ⟨b, hb, hx⟩ := exists_of_findSome?_eq_some h
  exact ⟨b, hb, mem_of_lookup hx⟩

theorem exists_get? (h : x ∈ (names s).flatten) : ∃ v, s.get? x = some v :=
  Option.isSome_iff_exists.1 (findSome?_isSome.2 h)

def assign (s : Store) (x : String) (v : Int) : Store := s.map (·.map fun p => if p.1 = x then (x, v) else p)

theorem names_assign (s : Store) (x : String) (v : Int) : names (s.assign x v) = names s := by
  simp only [names, assign, map_map]
  refine map_congr_left fun b _ => ?_
  simp only [Function.comp_apply, map_map]
  refine map_congr_left fun p _ => ?_
  simp only [Function.comp_apply]
  split <;> simp_all

theorem map_of_notMem {b : List (String × Int)} (h : x ∉ b.map (·.1)) :
    (b.map fun p => if p.1 = x then (x, v) else p) = b := by
  refine (map_congr_left fun p hp => if_neg ?_).trans (map_id b)
  rintro rfl
  exact h (mem_map_of_mem hp)

theorem assign_of_notMem (h : x ∉ (names s).flatten) : s.assign x v = s := by
  refine (map_congr_left fun b hb => map_of_notMem fun hx => ?_).trans (map_id s)
  exact h (mem_flatten.2 ⟨_, mem_map_of_mem hb, hx⟩)

/-- Where no name is in scope twice, an assignment changes every variable of the name. -/
theorem set?_eq (hnodup : (names s).flatten.Nodup) (h : x ∈ (names s).flatten) : s.set? x v = some (s.assign x v) := by
  induction s with
  | nil => simp [names] at h
  | cons b bs ih =>
    have hb : (names (b :: bs)).flatten = b.map (·.1) ++ (names bs).flatten := rfl
    rw [hb, nodup_append] at hnodup
    rw [hb, mem_append] at h
    rw [set?, assign, map_cons]
    by_cases hx : x ∈ b.map (·.1)
    · have hbs : x ∉ (names bs).flatten := fun hx' => hnodup.2.2 x hx x hx' rfl
      rw [if_pos (lookup_isSome.2 hx)]
      exact congrArg (fun t => some (_ :: t)) (assign_of_notMem hbs).symm
    · rw [if_neg (fun h' => hx (lookup_isSome.1 h')), ih hnodup.2.1 (h.resolve_left hx), map_of_notMem hx]
      rfl

end Store

/-! ### Variables in their cells -/

/-- The slots of a scalar function. -/
structure ScalarSlots (slots : Slots) : Prop where
  sound : slots.Sound
  scalar : ∀ x, slots.length? x = none

/-- The store has the names of the scope, and its values stand in the cells of their slots. -/
structure Fits (slots : Slots) (scope : Scope) (s : Store) (locals : Array Int) : Prop where
  names : names s = names scope
  size : locals.size = slots.size
  value : ∀ b ∈ s, ∀ x v, (x, v) ∈ b → ∃ k, slots.cell? x = some k ∧ locals[k]? = some v

namespace ScalarSlots

variable {slots : Slots} {x y : String} {k l : Nat}

theorem lt_size (h : ScalarSlots slots) (hx : slots.cell? x = some k) : k < slots.size := by
  have := h.sound.bound x k hx
  rw [Slots.width, h.scalar x] at this
  exact this

theorem cell_ne (h : ScalarSlots slots) (hxy : x ≠ y) (hx : slots.cell? x = some k) (hy : slots.cell? y = some l) :
    k ≠ l := by
  have := h.sound.apart x y k l hxy hx hy
  rw [Slots.width, h.scalar x, Slots.width, h.scalar y] at this
  simp only [Option.getD_none] at this
  omega

end ScalarSlots

namespace Fits

variable {slots : Slots} {scope : Scope} {s : Store} {locals : Array Int} {x : String} {t : Ty} {v : Int} {k : Nat}

theorem get (h : Fits slots scope s locals) (hx : scope.resolve? x = some t) :
    ∃ v k, s.get? x = some v ∧ slots.cell? x = some k ∧ locals[k]? = some v := by
  have hmem : x ∈ (Scalar.names s).flatten := by
    rw [h.names]
    exact findSome?_isSome.1 (Option.isSome_iff_exists.2 ⟨t, hx⟩)
  obtain ⟨v, hv⟩ := Store.exists_get? hmem
  obtain ⟨b, hb, hxv⟩ := Store.mem_of_get? hv
  obtain ⟨k, hk, hl⟩ := h.value b hb x v hxv
  exact ⟨v, k, hv, hk, hl⟩

theorem enter (h : Fits slots scope s locals) : Fits slots scope.enter ([] :: s) locals := by
  refine ⟨congrArg ([] :: ·) h.names, h.size, fun b hb => ?_⟩
  rcases mem_cons.1 hb with rfl | hb
  · simp
  · exact h.value b hb

variable {scope' : Scope}

theorem leave (h : Fits slots scope' s locals) (hs : scope'.tail = scope) : Fits slots scope s.tail locals := by
  refine ⟨?_, h.size, fun b hb => h.value b (mem_of_mem_tail hb)⟩
  rw [← hs]
  simpa [Scalar.names] using congrArg tail h.names

theorem assign (h : Fits slots scope s locals) (hslots : ScalarSlots slots) (hk : slots.cell? x = some k) :
    Fits slots scope (s.assign x v) (locals.setIfInBounds k v) := by
  refine ⟨(Store.names_assign s x v).trans h.names, by simpa using h.size, fun b hb y w hy => ?_⟩
  obtain ⟨b, hb', rfl⟩ := mem_map.1 hb
  obtain ⟨p, hp, heq⟩ := mem_map.1 hy
  split at heq
  · cases heq
    refine ⟨k, hk, ?_⟩
    have hlt := hslots.lt_size hk
    rw [← h.size] at hlt
    simp [hlt]
  · subst heq
    rename_i hne
    obtain ⟨l, hl, hv⟩ := h.value b hb' y w hp
    refine ⟨l, hl, ?_⟩
    rw [Array.getElem?_setIfInBounds_ne (hslots.cell_ne (.symm hne) hk hl), hv]

theorem names_declare (h : Scalar.names s = Scalar.names scope)
    (hs : scope.declare? x t = some scope') : Scalar.names (s.declare x v) = Scalar.names scope' := by
  cases scope with
  | nil =>
    cases s with
    | nil => cases hs; rfl
    | cons b bs => simp [Scalar.names] at h
  | cons f fs =>
    cases s with
    | nil => simp [Scalar.names] at h
    | cons b bs =>
      simp only [Scalar.names, map_cons, cons.injEq] at h
      rw [Scope.declare?] at hs
      split at hs
      · cases hs
      · cases hs
        simp [Scalar.names, Store.declare, h]

theorem declare (h : Fits slots scope s locals) (hslots : ScalarSlots slots)
    (hk : slots.cell? x = some k) (hx : x ∉ (Scalar.names scope).flatten) (hs : scope.declare? x t = some scope') :
    Fits slots scope' (s.declare x v) (locals.setIfInBounds k v) := by
  refine ⟨names_declare h.names hs, by simpa using h.size, fun b hb y w hy => ?_⟩
  have hold : (y, w) = (x, v) ∨ ∃ b ∈ s, (y, w) ∈ b := by
    cases s with
    | nil =>
      rw [mem_singleton.1 hb] at hy
      exact .inl (mem_singleton.1 hy)
    | cons b' bs =>
      rcases mem_cons.1 hb with rfl | hb
      · rcases mem_append.1 hy with hy | hy
        · exact .inr ⟨b', by simp, hy⟩
        · exact .inl (mem_singleton.1 hy)
      · exact .inr ⟨b, by simp [hb], hy⟩
  rcases hold with heq | ⟨b', hb', hy'⟩
  · cases heq
    refine ⟨k, hk, ?_⟩
    have hlt := hslots.lt_size hk
    rw [← h.size] at hlt
    simp [hlt]
  · obtain ⟨l, hl, hv⟩ := h.value b' hb' y w hy'
    refine ⟨l, hl, ?_⟩
    have hxy : x ≠ y := by
      rintro rfl
      rw [← h.names] at hx
      exact hx (mem_names.2 ⟨b', hb', w, hy'⟩)
    rw [Array.getElem?_setIfInBounds_ne (hslots.cell_ne hxy hk hl), hv]

end Fits

/-! ### Expressions -/

variable {e : Expr Note}

section Expressions

variable {table : Signatures} {lib : Library} {known : List String} {slots : Slots}
  {call : String → List Int → Eval Int} {go : Nat → Shape → Act → Result Act} {below : List Int}

/-- Calls of functions agree with calls of their routines. -/
structure CallsAgree (table : Signatures) (lib : Library) (known : List String)
    (call : String → List Int → Eval Int) (go : Nat → Shape → Act → Result Act) : Prop where
  arity : ∀ f ∈ known, ∀ sig, table.lookup f = some sig → (lib.routine f).arity = sig.params.length
  result : ∀ f ∈ known, ∀ sig, table.lookup f = some sig → sig.result ≠ .str
  builtin : ∀ f ∈ known, View.builtinArity f = none
  sim : ∀ f ∈ known, ∀ args : List Int, args.length = (lib.routine f).arity → ∀ below (a : Act),
    Sim below (fun v b => b = a.push v) (call f args)
      (Act.enter (lib.routine f) (go (lib.routine f).string (lib.routine f).body)
        { a with stack := args.reverse ++ a.stack })

variable {op : BinaryOp}

theorem binary_sim {t t' u : Ty} (hop : Typing.binaryType op t t' = .ok u) (hand : op ≠ .and)
    (hor : op ≠ .or) (v w : Int) (k : Nat) (a : Act) :
    Sim below (fun v b => b = a.push v) (binary op v w)
      ((Shape.plain ((Bytecode.binaryOps op).map fun o => ⟨o, none⟩)).run lib go k ((a.push v).push w)) := by
  cases op with
  | and => exact absurd rfl hand
  | or => exact absurd rfl hor
  | other text => simp [Typing.binaryType] at hop
  | div =>
    by_cases hw : w = 0
    · subst hw
      exact ⟨rfl, .division⟩
    · rw [binary, if_neg hw]
      have hrun : (Shape.plain ((Bytecode.binaryOps .div).map fun o => ⟨o, none⟩)).run lib go k ((a.push v).push w) =
          .pure (a.push (v.fdiv w)) := by
        simp [Bytecode.binaryOps, Shape.plain, Shape.run, Act.perform, Act.push, Machine.execute, Machine.State.pop₂,
          hw, Machine.State.push, Result.bind]
      rw [hrun]
      exact .pure rfl
  | _ => exact .pure rfl

theorem args_sim {args : List (Expr Note)} {R : Int → Act → Prop} {locals : Array Int} {s : Store} {c : Shape}
    (hargs : ∀ e ∈ args, ∀ k st, Sim below (fun v b => b = Act.push ⟨st, locals⟩ v) (expr call s e)
      ((View.expr ⟨slots, known.contains⟩ e).run lib go k ⟨st, locals⟩)) :
    ∀ (m : List Int → Eval Int) (k : Nat) (st : List Int),
      (∀ vs k, vs.length = args.length → Sim below R (m vs) (c.run lib go k ⟨vs.reverse ++ st, locals⟩)) →
      Sim below R (exprs call s args >>= m)
        (((args.map (View.expr ⟨slots, known.contains⟩)).foldr Shape.seq c).run lib go k ⟨st, locals⟩) := by
  induction args with
  | nil => exact fun m k st hc => hc [] k rfl
  | cons e es ih =>
    intro m k st hc
    rw [exprs]
    simp only [bind_assoc]
    refine (hargs e (by simp) k st).push fun v => ?_
    refine ih (fun e' he' => hargs e' (by simp [he'])) _ _ (v :: st) fun vs k hvs => ?_
    have := hc (v :: vs) k (by simp [hvs])
    simpa using this

theorem scalarExprs_mem {es : List (Expr Note)} (h : scalarExprs known es = true) :
    ∀ e ∈ es, scalarExpr known e = true := by
  induction es with
  | nil => simp
  | cons e es ih =>
    rw [scalarExprs, Bool.and_eq_true] at h
    intro e' he'
    rcases mem_cons.1 he' with rfl | he'
    · exact h.1
    · exact ih h.2 e' he'

variable {α : Type}

theorem expr_binary (hand : op ≠ .and) (hor : op ≠ .or) (s : Store) (a : α) (l r : Expr α) :
    expr call s (.binary a op l r) = (do
      let v ← expr call s l
      let w ← expr call s r
      binary op v w) := by
  cases op <;> first | rfl | exact absurd rfl hand | exact absurd rfl hor

theorem expr_circuit (d : Bool) (s : Store) (a : α) (l r : Expr α) :
    expr call s (.binary a (if d then .or else .and) l r) = (do
      let v ← expr call s l
      if decide (v ≠ 0) = d then pure (ofBool d) else do
        let w ← expr call s r
        pure (ofBool (w ≠ 0))) := by
  cases d <;> refine congrArg (expr call s l >>= ·) (funext fun v => ?_) <;> by_cases hv : v = 0 <;> simp [hv, ofBool]

theorem view_circuit (d : Bool) (v : View) (a : α) (l r : Expr α) :
    v.expr (.binary a (if d then .or else .and) l r) = .seq (v.expr l) (.circuit d (v.expr r)) := by
  cases d <;> rfl

theorem view_binary (hand : op ≠ .and) (hor : op ≠ .or) (v : View) (a : α) (l r : Expr α) :
    v.expr (.binary a op l r) =
      .seq (v.expr l) (.seq (v.expr r) (.plain ((Bytecode.binaryOps op).map fun o => ⟨o, none⟩))) := by
  cases op <;> first | rfl | exact absurd rfl hand | exact absurd rfl hor

/-- The code of a scalar expression pushes its value, or faults as the expression does. -/
theorem expr_sim {scope : Scope} {s : Store} {locals : Array Int} (hcall : CallsAgree table lib known call go)
    (hfits : Fits slots scope s locals) {t : Ty} (ht : HasType table scope e t)
    (hscalar : scalarExpr known e = true) (k : Nat) (st : List Int) :
    Sim below (fun v b => b = Act.push ⟨st, locals⟩ v) (expr call s e)
      ((View.expr ⟨slots, known.contains⟩ e).run lib go k ⟨st, locals⟩) := by
  induction ht generalizing k st with
  | lit l =>
    cases l with
    | int n => exact .pure rfl
    | bool b => cases b <;> exact .pure rfl
    | str | none => cases hscalar
  | var hx =>
    obtain ⟨v, c, hv, hc, hl⟩ := hfits.get hx
    rw [expr, hv, View.expr]
    simp only [hc, Shape.run]
    rw [Act.perform_loadLocal hl]
    exact .pure rfl
  | @unary op _ _ _ _ hop ih =>
    rw [expr]
    refine (ih hscalar k st).push fun v => ?_
    cases op with
    | neg | not => exact .pure rfl
    | other text => simp [Typing.unaryType] at hop
  | @binary op _ _ _ _ _ _ _ hop ihl ihr =>
    rw [scalarExpr, Bool.and_eq_true] at hscalar
    obtain ⟨d, rfl⟩ | ⟨hand, hor⟩ := op.circuit_cases
    · rw [expr_circuit, view_circuit]
      refine (ihl hscalar.1 k st).push fun v => ?_
      rw [Shape.run, Act.pop_push]
      split
      · exact .pure rfl
      · exact (ihr hscalar.2 _ st).push fun w => .pure rfl
    · rw [expr_binary hand hor, view_binary hand hor]
      refine (ihl hscalar.1 k st).push fun v => ?_
      exact (ihr hscalar.2 _ (v :: st)).push fun w => binary_sim hop hand hor v w _ _
  | @call f args sig _ _ hsig hlen hargs ih =>
    rw [scalarExpr, Bool.and_eq_true] at hscalar
    have hf : f ∈ known := by simpa using hscalar.1
    rw [expr, View.expr, View.call_user (by simp [hcall.builtin f hf]), View.args_eq_map, if_pos (by simpa using hf)]
    refine args_sim (fun e he => ?_) _ k st fun vs k hvs => ?_
    · obtain ⟨u, hu⟩ := exists_mem_zip hlen he
      exact ih e u hu (scalarExprs_mem hscalar.2 e he)
    · exact hcall.sim f hf vs (by rw [hvs, hlen, hcall.arity f hf sig hsig]) below ⟨st, locals⟩
  | push | pop =>
    rw [scalarExpr, Bool.and_eq_true] at hscalar
    have hbuiltin := hcall.builtin _ (by simpa using hscalar.1)
    simp [View.builtinArity] at hbuiltin
  | index | addrVar | addrIndex => cases hscalar

theorem ne_str {scope : Scope} (hcall : CallsAgree table lib known call go)
    (hscope : ∀ b ∈ scope, ∀ p ∈ b, p.2 ≠ .str) {t : Ty} (ht : HasType table scope e t)
    (hscalar : scalarExpr known e = true) : t ≠ .str := by
  cases ht with
  | lit v => cases v <;> simp_all [scalarExpr, Typing.literalType]
  | var hx =>
    obtain ⟨b, hb, hx⟩ := exists_of_findSome?_eq_some hx
    exact hscope b hb _ (mem_of_lookup hx)
  | unary _ hop => obtain ⟨rfl, rfl | rfl⟩ := Typing.unaryType_cases hop <;> simp
  | binary _ _ hop => obtain rfl | ⟨rfl, -⟩ := Typing.binaryType_cases hop <;> simp
  | call _ _ hsig =>
    rw [scalarExpr, Bool.and_eq_true] at hscalar
    exact hcall.result _ (by simpa using hscalar.1) _ hsig
  | _ => simp

end Expressions

/-! ### Statements -/

section Statements

variable {table : Signatures} {lib : Library} {all known : List String} {slots : Slots} {d : Deeper Note}
  {go : Nat → Shape → Act → Result Act} {scope scope' : Scope} {s s' : Store} {locals locals' : Array Int}
  {st : Stmt Note} {ss : List (Stmt Note)}

/-- Statements of a scalar function that are about to be carried out. -/
structure Ready (table : Signatures) (known : List String) (slots : Slots) (scope : Scope) (s : Store)
    (locals : Array Int) (ss : List (Stmt Note)) : Prop where
  checked : Checked table scope ss
  scalar : scalarStmts known ss = true
  fits : Fits slots scope s locals
  nodup : ((names scope).flatten ++ (Stmt.decls ss).map (·.1)).Nodup
  cells : ∀ x ∈ Stmt.decls ss, (slots.cell? x.1).isSome = true
  types : ∀ b ∈ scope, ∀ p ∈ b, p.2 ≠ .str

variable {body : List (Stmt Note)}

namespace Ready

theorem uncons (h : Ready table known slots scope s locals (st :: ss)) :
    scalarStmt known st = true ∧ scalarStmts known ss = true := by
  rw [← Bool.and_eq_true]
  exact h.scalar

theorem rest (h : Ready table known slots scope s locals (st :: ss)) (hc : Checked table scope ss)
    (hf : Fits slots scope s' locals') : Ready table known slots scope s' locals' ss := by
  refine ⟨hc, h.uncons.2, hf, h.nodup.sublist ?_, fun x hx => h.cells x ?_, h.types⟩
  · rw [Stmt.decls, map_append]
    exact List.Sublist.append_left (sublist_append_right _ _) _
  · rw [Stmt.decls]
    exact mem_append_right _ hx

theorem again (h : Ready table known slots scope s locals (st :: ss)) (hc : Checked table scope [st])
    (hf : Fits slots scope s' locals') : Ready table known slots scope s' locals' [st] := by
  refine ⟨hc, ?_, hf, h.nodup.sublist ?_, fun x hx => h.cells x ?_, h.types⟩
  · rw [scalarStmts, h.uncons.1]
    rfl
  · simp only [Stmt.decls, append_nil, map_append]
    exact List.Sublist.append_left (sublist_append_left _ _) _
  · simp only [Stmt.decls, append_nil] at hx
    exact mem_append_left _ hx

theorem block (h : Ready table known slots scope s locals (st :: ss))
    (hc : Checked table scope.enter body) (hscalar : scalarStmts known body = true)
    (hsub : (Stmt.decls body).Sublist (Stmt.declsOf st)) (hf : Fits slots scope s' locals') :
    Ready table known slots scope.enter ([] :: s') locals' body := by
  refine ⟨hc, hscalar, hf.enter, h.nodup.sublist ?_, fun x hx => h.cells x ?_, fun b hb => ?_⟩
  · rw [Stmt.decls, map_append]
    exact List.Sublist.append_left ((hsub.map _).trans (sublist_append_left _ _)) _
  · rw [Stmt.decls]
    exact mem_append_left _ (hsub.subset hx)
  · rcases mem_cons.1 hb with rfl | hb
    · simp
    · exact h.types b hb

end Ready

/-- What statements leave behind: the operand stack as it was, and the scope but for the innermost block. -/
def After (slots : Slots) (scope : Scope) (stack : List Int) (s : Store) (b : Act) : Prop :=
  b.stack = stack ∧ ∃ scope', scope'.tail = scope.tail ∧ Fits slots scope' s b.locals

/-- Calls and loops agree. -/
structure Deep (table : Signatures) (lib : Library) (all : List String) (d : Deeper Note)
    (go : Nat → Shape → Act → Result Act) : Prop where
  calls : CallsAgree table lib all d.call go
  loop : ∀ slots known scope s test body k (a : Act), ScalarSlots slots → known ⊆ all →
    Ready table known slots scope s a.locals [.loop test body] →
    Sim a.stack (fun s' b => b.stack = a.stack ∧ Fits slots scope s' b.locals) (d.loop test body s)
      (go k (.loop (View.expr ⟨slots, known.contains⟩ test) (View.stmts ⟨slots, known.contains⟩ body)) a)

theorem CallsAgree.mono {call : String → List Int → Eval Int} (h : CallsAgree table lib all call go)
    (hsub : known ⊆ all) : CallsAgree table lib known call go :=
  ⟨fun f hf => h.arity f (hsub hf), fun f hf => h.result f (hsub hf), fun f hf => h.builtin f (hsub hf),
    fun f hf => h.sim f (hsub hf)⟩

/-- The operand stack is left as it was, with the store in the cells of the scope. -/
abbrev Keeps (slots : Slots) (scope : Scope) (a : Act) : Eval Store → Result Act → Prop :=
  Sim a.stack fun s b => b.stack = a.stack ∧ Fits slots scope s b.locals

theorem block_sim {a : Act} {k : Nat}
    (h : Sim a.stack (After slots scope.enter a.stack) (stmts d ([] :: s) body)
      ((View.stmts ⟨slots, known.contains⟩ body).run lib go k a)) :
    Keeps slots scope a
      (do
        let s' ← stmts d ([] :: s) body
        pure s'.tail)
      ((View.stmts ⟨slots, known.contains⟩ body).run lib go k a) := by
  rw [← Result.bind_pure (Shape.run lib go k _ a)]
  refine h.bind ?_
  rintro s' b ⟨hstack, _, htail, hfits⟩
  exact .pure ⟨hstack, hfits.leave htail⟩

theorem branch_sim {below : List Int} {R : Store → Act → Prop} {m m' : Eval Store} {c c' : Shape} {a : Act} {v : Int}
    {k : Nat} (h : Sim below R m (c.run lib go k a)) (h' : Sim below R m' (c'.run lib go (k + c.strings.length) a)) :
    Sim below R (if v = 0 then m' else m) ((Shape.branch c c').run lib go k (a.push v)) := by
  rw [Shape.run, Act.pop_push]
  by_cases hv : v = 0
  · rw [if_pos hv, if_neg (by simp [hv])]
    exact h'
  · rw [if_neg hv, if_pos hv]
    exact h

theorem declare_spec {x : String} {t : Ty} (h : scope.declare? x t = some scope') :
    scope'.tail = scope.tail ∧ ((names scope').flatten.Perm (x :: (names scope).flatten)) ∧
      ∀ b ∈ scope', ∀ p ∈ b, p = (x, t) ∨ ∃ b ∈ scope, p ∈ b := by
  cases scope with
  | nil =>
    cases h
    simp [names]
  | cons f fs =>
    rw [Scope.declare?] at h
    split at h
    · cases h
    · cases h
      refine ⟨rfl, ?_, ?_⟩
      · simp only [names, map_cons, map_append, flatten_cons, append_assoc]
        exact perm_middle
      · intro b hb p hp
        rcases mem_cons.1 hb with rfl | hb
        · rcases mem_append.1 hp with hp | hp
          · exact .inr ⟨f, by simp, hp⟩
          · exact .inl (mem_singleton.1 hp)
        · exact .inr ⟨b, by simp [hb], hp⟩

variable {init : Option (Expr Note)} {written : Option String}

theorem scalarDecl_of_scalarStmt {x : String} (h : scalarStmt known (.decl x written init) = true) :
    scalarDecl written init = true := by
  cases init with
  | none => exact h
  | some e =>
    rw [scalarStmt, Bool.and_eq_true] at h
    exact h.1

theorem scalarDecl_ne_str {t : Ty} (ht : Typing.DeclaredAs table scope written init t)
    (h : scalarDecl written init = true) : t ≠ .str := by
  obtain ⟨hinit, hwritten⟩ := ht
  unfold scalarDecl at h
  cases hw : Ty.written? written with
  | some name =>
    rw [hw] at h hwritten
    rintro rfl
    simp only at h
    rw [← hwritten] at h
    cases h
  | none =>
    rw [hw] at h hwritten
    cases init with
    | none => exact absurd rfl hwritten
    | some e =>
      simp only [Option.bind_some, (hinit e rfl).note_eq] at h
      rintro rfl
      cases h

theorem Ready.declared {x : String} {t : Ty} (h : Ready table known slots scope s locals (.decl x written init :: ss))
    (ht : Typing.DeclaredAs table scope written init t) (hx : scope.declare? x t = some scope')
    (hs : Checked table scope' ss) (hf : Fits slots scope' s' locals') :
    Ready table known slots scope' s' locals' ss := by
  obtain ⟨-, hperm, hmem⟩ := declare_spec hx
  refine ⟨hs, h.uncons.2, hf, ?_, fun y hy => h.cells y ?_, fun b hb p hp => ?_⟩
  · have hnodup := h.nodup
    rw [Stmt.decls, Stmt.declsOf, map_append] at hnodup
    exact ((hperm.append_right _).trans perm_middle.symm).nodup_iff.2 hnodup
  · rw [Stmt.decls]
    exact mem_append_right _ hy
  · rcases hmem b hb p hp with rfl | ⟨b', hb', hp'⟩
    · exact scalarDecl_ne_str ht (scalarDecl_of_scalarStmt h.uncons.1)
    · exact h.types b' hb' p hp'

section Heads

variable {a : Act} {k : Nat} (D : Deep table lib all d go) (hknown : known ⊆ all)
include D hknown

theorem eval_sim {below : List Int} (hfits : Fits slots scope s a.locals) {t : Ty} (ht : HasType table scope e t)
    (hscalar : scalarExpr known e = true) :
    Sim below (fun v b => b = a.push v) (expr d.call s e) ((View.expr ⟨slots, known.contains⟩ e).run lib go k a) :=
  expr_sim (D.calls.mono hknown) hfits ht hscalar k a.stack

theorem decl_sim {x : String} {written : Option String} {init : Option (Expr Note)} {t : Ty}
    (h : Ready table known slots scope s a.locals (.decl x written init :: ss))
    (hslots : ScalarSlots slots) (ht : Typing.DeclaredAs table scope written init t)
    (hx : scope.declare? x t = some scope') :
    Keeps slots scope' a (stmt d s (.decl x written init))
      ((View.decl ⟨slots, known.contains⟩ x init).run lib go k a) := by
  have hfresh : x ∉ (names scope).flatten := by
    have := h.nodup
    rw [Stmt.decls, Stmt.declsOf, map_append, nodup_append] at this
    exact fun hmem => this.2.2 x hmem x (by simp) rfl
  obtain ⟨c, hc⟩ := Option.isSome_iff_exists.1 (h.cells (x, written) (by simp [Stmt.decls, Stmt.declsOf]))
  have hlt : c < a.locals.size := h.fits.size ▸ hslots.lt_size hc
  have hstore : ∀ v k, Keeps slots scope' a (pure (s.declare x v))
      ((Shape.instr ⟨.storeLocal, some c⟩).run lib go k (a.push v)) := by
    intro v k
    rw [Shape.run, Act.perform_storeLocal v hlt]
    exact .pure ⟨rfl, h.fits.declare hslots hc hfresh hx⟩
  unfold View.decl
  simp only [hslots.scalar x, hc]
  cases init with
  | none =>
    rw [stmt]
    exact hstore 0 0
  | some e =>
    have hscalar := h.uncons.1
    rw [scalarStmt, Bool.and_eq_true] at hscalar
    rw [stmt]
    exact (eval_sim D hknown h.fits (ht.1 e rfl) hscalar.2).push fun v => hstore v _

theorem assign_sim {x : String} {n : Note} {t : Ty}
    (h : Ready table known slots scope s a.locals (.assign (.var n x) e :: ss))
    (hslots : ScalarSlots slots) (hx : scope.resolve? x = some t) (he : HasType table scope e t) :
    Keeps slots scope a (stmt d s (.assign (.var n x) e))
      ((View.assign ⟨slots, known.contains⟩ (.var n x) e).run lib go k a) := by
  obtain ⟨v₀, c, hv, hc, hl⟩ := h.fits.get hx
  have hnodup : (names s).flatten.Nodup := h.fits.names ▸ (nodup_append.1 h.nodup).1
  have hmem : x ∈ (names s).flatten := by
    obtain ⟨b, hb, hxb⟩ := Store.mem_of_get? hv
    exact mem_names.2 ⟨b, hb, v₀, hxb⟩
  unfold View.assign
  simp only [hc]
  rw [stmt]
  refine (eval_sim D hknown h.fits he h.uncons.1).push fun v => ?_
  rw [Store.set?_eq hnodup hmem, Shape.run, Act.perform_storeLocal v (h.fits.size ▸ hslots.lt_size hc)]
  exact .pure ⟨rfl, h.fits.assign hslots hc⟩

theorem print_sim {newline : Bool} {t : Ty}
    (h : Ready table known slots scope s a.locals (.print newline e :: ss)) (he : HasType table scope e t)
    (ht : t = .int ∨ t = .str) :
    Keeps slots scope a (stmt d s (.print newline e))
      ((View.print ⟨slots, known.contains⟩ newline e).run lib go k a) := by
  by_cases hlit : ∃ n text, e = .lit n (.str text)
  · obtain ⟨n, text, rfl⟩ := hlit
    cases he with
    | lit => exact ⟨rfl, .ok ⟨rfl, h.fits⟩⟩
  · have hscalar := h.uncons.1
    rw [scalarStmt] at hscalar
    rotate_left
    · exact fun n text heq => hlit ⟨n, text, heq⟩
    have hint : t = .int := ht.resolve_right (ne_str (D.calls.mono hknown) h.types he hscalar)
    subst hint
    have hprint : View.print ⟨slots, known.contains⟩ newline e =
        .seq (View.expr ⟨slots, known.contains⟩ e) (.op (Bytecode.printOp newline .int)) := by
      unfold View.print
      split
      · exact absurd ⟨_, _, rfl⟩ hlit
      · rw [he.note_eq]
    rw [hprint, stmt]
    rotate_left
    · exact fun n text heq => hlit ⟨n, text, heq⟩
    refine (eval_sim D hknown h.fits he hscalar).push fun v => ?_
    cases newline <;> exact ⟨rfl, .ok ⟨rfl, h.fits⟩⟩

theorem loop_sim {test : Expr Note} {t : Ty} (hslots : ScalarSlots slots)
    (h : Ready table known slots scope s a.locals (.loop test body :: ss)) (he : HasType table scope test t)
    (hbody : Checked table scope.enter body)
    (hsim : ∀ {s} {a : Act} {k}, Ready table known slots scope.enter s a.locals body →
      Sim a.stack (After slots scope.enter a.stack) (stmts d s body)
        ((View.stmts ⟨slots, known.contains⟩ body).run lib go k a)) :
    Keeps slots scope a (stmt d s (.loop test body))
      ((View.stmt ⟨slots, known.contains⟩ (.loop test body)).run lib go k a) := by
  have hscalar := h.uncons.1
  rw [scalarStmt, Bool.and_eq_true] at hscalar
  rw [stmt]
  refine (eval_sim D hknown h.fits he hscalar.1).push fun v => ?_
  rw [Act.pop_push]
  by_cases hv : v = 0
  · rw [if_pos hv, if_neg (by simp [hv])]
    exact .pure ⟨rfl, h.fits⟩
  · rw [if_neg hv, if_pos hv]
    refine (hsim (h.block hbody hscalar.2 (List.Sublist.refl _) h.fits)).bind ?_
    rintro s' b ⟨hstack, scope', htail, hfits⟩
    exact hstack ▸ D.loop slots known scope s'.tail test body k b hslots hknown
      (h.again (.loop he hbody .nil) (hfits.leave htail))

end Heads

/-- Statements do what they mean. -/
theorem stmts_sim (D : Deep table lib all d go) (hslots : ScalarSlots slots) (hknown : known ⊆ all)
    {a : Act} {k : Nat} (h : Ready table known slots scope s a.locals ss) :
    Sim a.stack (After slots scope a.stack) (stmts d s ss) ((View.stmts ⟨slots, known.contains⟩ ss).run lib go k a) := by
  have hc := h.checked
  induction hc generalizing s a k with
  | @nil scope => exact .pure ⟨rfl, scope, rfl, h.fits⟩
  | decl ht hx hs ih =>
    rw [stmts]
    refine (decl_sim D hknown h hslots ht hx).bind ?_
    rintro s' b ⟨hstack, hfits⟩
    refine hstack ▸ (ih (h.declared ht hx hs hfits)).mono ?_
    rintro s'' b' ⟨hstack', scope'', htail, hfits'⟩
    exact ⟨hstack', scope'', htail.trans (declare_spec hx).1, hfits'⟩
  | assignVar hx he hs ih =>
    rw [stmts]
    refine (assign_sim D hknown h hslots hx he).bind ?_
    rintro s' b ⟨hstack, hfits⟩
    exact hstack ▸ ih (h.rest hs hfits)
  | print he ht hs ih =>
    rw [stmts]
    refine (print_sim D hknown h he ht).bind ?_
    rintro s' b ⟨hstack, hfits⟩
    exact hstack ▸ ih (h.rest hs hfits)
  | @ret _ value _ he =>
    rw [stmts]
    refine Sim.bind (R := fun _ _ => False) ?_ fun _ _ h => h.elim
    cases value with
    | none => exact ⟨rfl, .returned⟩
    | some e =>
      obtain ⟨t, ht⟩ := he e rfl
      rw [stmt]
      exact (eval_sim D hknown h.fits ht h.uncons.1).push fun v => ⟨rfl, .returned⟩
  | asm hs ih => exact ih (h.rest hs h.fits)
  | @cond scope test yes no _ _ he hyes hno hs ihy ihn ih =>
    have hscalar := h.uncons.1
    have hcond : Keeps slots scope a (stmt d s (.cond test yes no))
        ((View.stmt ⟨slots, known.contains⟩ (.cond test yes no)).run lib go k a) := by
      cases no with
      | none =>
        rw [scalarStmt, Bool.and_eq_true] at hscalar
        rw [stmt]
        refine (eval_sim D hknown h.fits he hscalar.1).push fun v => ?_
        exact branch_sim (block_sim (ihy (h.block hyes hscalar.2 (List.Sublist.refl _) h.fits))) (.pure ⟨rfl, h.fits⟩)
      | some no =>
        rw [scalarStmt, Bool.and_eq_true, Bool.and_eq_true] at hscalar
        rw [stmt]
        refine (eval_sim D hknown h.fits he hscalar.1.1).push fun v => ?_
        exact branch_sim
          (block_sim (ihy (h.block hyes hscalar.1.2 (sublist_append_left _ _) h.fits)))
          (block_sim (ihn no rfl (h.block (hno no rfl) hscalar.2 (sublist_append_right _ _) h.fits)))
    rw [stmts]
    refine hcond.bind ?_
    rintro s' b ⟨hstack, hfits⟩
    exact hstack ▸ ih (h.rest hs hfits)
  | loop he hbody hs ihb ih =>
    rw [stmts]
    refine (loop_sim D hknown hslots h he hbody ihb).bind ?_
    rintro s' b ⟨hstack, hfits⟩
    exact hstack ▸ ih (h.rest hs hfits)
  | expr | vmAsm | block | assignIndex => exact absurd h.uncons.1 (by simp [scalarStmt])

end Statements

end Workbench.Scalar
