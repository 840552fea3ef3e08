import Workbench.Proofs.Agreement
import Workbench.Proofs.ScalarSim
import Workbench.Proofs.Sealed

/-!
# Expressions without calls

The meaning of an expression over the cells of a frame (`Expr.value`): a variable is what its first cell holds, a string
is its number, a pointer is the number of a cell. The shape of the code of an expression without calls runs to that
value or to that fault (`run_callFree`), so the machine does so wherever the code stands, on any stack and below any
calls, and changes nothing else (`callFree_compiled`).
-/

open Option

namespace Workbench

open Machine (Fault wrap ofBool)
open Bytecode (Slots)
open Typing (Note Signatures Scope HasType)

/-! ### Values -/

namespace Expr

variable {α : Type}

/-- The strings that the code of an expression without calls refers to. -/
def texts : Expr α → List String
  | .lit _ (.str s) => [s]
  | .unary _ _ e => e.texts
  | .binary _ _ l r => l.texts ++ r.texts
  | .index _ _ i | .addr _ (.index _ _ i) => i.texts
  | _ => []

/-- The expression has no calls, and its variables and arrays have cells. -/
def callFree (slots : Slots) : Expr α → Bool
  | .lit _ .none => false
  | .lit _ _ => true
  | .var _ x | .addr _ (.var _ x) => (slots.cell? x).isSome
  | .unary _ _ e => e.callFree slots
  | .binary _ _ l r => l.callFree slots && r.callFree slots
  | .index _ a i | .addr _ (.index _ a i) => (a.varName?.bind slots.arrayCell?).isSome && i.callFree slots
  | _ => false

theorem callFree_addr {slots : Slots} {a : α} {t : Expr α} (hvar : ∀ b x, t ≠ .var b x)
    (hindex : ∀ b x i, t ≠ .index b x i) : (Expr.addr a t).callFree slots = false := by
  cases t with
  | var b x => exact absurd rfl (hvar b x)
  | index b x i => exact absurd rfl (hindex b x i)
  | _ => rfl

/-- The number of the first cell of an array that is named directly. -/
def base (slots : Slots) (e : Expr α) : Nat := (e.varName?.bind slots.arrayCell?).getD 0

/-- What an operator gives; of the known ones only a division stops. -/
def operate (m : Scalar.Eval Int) : Except Fault Int := m.result.mapError fun _ => .divisionByZero

/-- What the cell with the number `n` holds. -/
def contents (locals : Array Int) (n : Int) : Except Fault Int :=
  if n < locals.size then .ok (locals.getD n.toNat 0)
  else if n < 9223372036854775808 then .error .readOutOfRange
  else .error .indexTooLarge

/-- The value of an expression without calls, over the cells of a frame. Its strings are numbered from `k` on. -/
def value (slots : Slots) (locals : Array Int) : (k : Nat) → Expr α → Except Fault Int
  | _, .lit _ (.int n) => .ok n
  | _, .lit _ (.bool b) => .ok (ofBool b)
  | k, .lit _ (.str _) => .ok k
  | _, .var _ x => .ok (locals.getD ((slots.cell? x).getD 0) 0)
  | k, .unary _ op e => do
    let v ← e.value slots locals k
    operate (Scalar.unary op v)
  | k, .binary _ .and l r => do
    let v ← l.value slots locals k
    if v = 0 then .ok 0 else do
      let w ← r.value slots locals (k + l.texts.length)
      .ok (ofBool (w ≠ 0))
  | k, .binary _ .or l r => do
    let v ← l.value slots locals k
    if v ≠ 0 then .ok 1 else do
      let w ← r.value slots locals (k + l.texts.length)
      .ok (ofBool (w ≠ 0))
  | k, .binary _ op l r => do
    let v ← l.value slots locals k
    let w ← r.value slots locals (k + l.texts.length)
    operate (Scalar.binary op v w)
  | k, .index _ a i => do
    let v ← i.value slots locals k
    contents locals (a.base slots + v)
  | _, .addr _ (.var _ x) => .ok ((slots.cell? x).getD 0 : Nat)
  | k, .addr _ (.index _ a i) => do
    let v ← i.value slots locals k
    .ok (wrap (v + a.base slots))
  | _, _ => .ok 0

section Binary

variable (slots : Slots) (locals : Array Int) (k : Nat) (a : α) (l r : Expr α)

theorem value_binary {op : BinaryOp} (hand : op ≠ .and) (hor : op ≠ .or) :
    (Expr.binary a op l r).value slots locals k = (do
      let v ← l.value slots locals k
      let w ← r.value slots locals (k + l.texts.length)
      operate (Scalar.binary op v w)) := by
  cases op with
  | and => exact absurd rfl hand
  | or => exact absurd rfl hor
  | _ => rfl

theorem value_circuit (d : Bool) :
    (Expr.binary a (if d then .or else .and) l r).value slots locals k = (do
      let v ← l.value slots locals k
      if decide (v ≠ 0) = d then .ok (ofBool d) else do
        let w ← r.value slots locals (k + l.texts.length)
        .ok (ofBool (w ≠ 0))) := by
  cases d <;> refine congrArg (Except.bind _) (funext fun v => ?_) <;> by_cases hv : v = 0 <;> simp [hv, ofBool]

end Binary

/-! ### No value is negative -/

theorem nonneg_ofBool (b : Bool) : 0 ≤ ofBool b := by
  cases b <;> decide

theorem nonneg_wrap (n : Int) : 0 ≤ wrap n := Int.emod_nonneg n (by decide)

theorem nonneg_unary {op : UnaryOp} {v w : Int} (h : operate (Scalar.unary op v) = .ok w) : 0 ≤ w := by
  cases op with
  | neg =>
    obtain rfl := Except.ok.inj h
    exact nonneg_wrap _
  | not =>
    obtain rfl := Except.ok.inj h
    exact nonneg_ofBool _
  | other text => cases h

theorem nonneg_binary {op : BinaryOp} {v w u : Int} (hv : 0 ≤ v) (hw : 0 ≤ w)
    (h : operate (Scalar.binary op v w) = .ok u) : 0 ≤ u := by
  cases op with
  | add | sub | mul =>
    obtain rfl := Except.ok.inj h
    exact nonneg_wrap _
  | div =>
    rw [Scalar.binary] at h
    split at h
    · cases h
    · obtain rfl := Except.ok.inj h
      exact Int.fdiv_nonneg hv hw
  | eq | ne | lt | le | gt | ge =>
    obtain rfl := Except.ok.inj h
    exact nonneg_ofBool _
  | and | or | other => cases h

section Nonneg

variable {slots : Slots} {locals : Array Int} (hlocals : ∀ v ∈ locals, 0 ≤ v)
include hlocals

theorem nonneg_getD (k : Nat) : 0 ≤ locals.getD k 0 := by
  rw [Array.getD_eq_getD_getElem?]
  cases hv : locals[k]? with
  | none => decide
  | some v => exact hlocals v (Array.mem_of_getElem? hv)

theorem nonneg_contents {n v : Int} (h : contents locals n = .ok v) : 0 ≤ v := by
  unfold contents at h
  split at h
  · obtain rfl := Except.ok.inj h
    exact nonneg_getD hlocals _
  · split at h <;> cases h

/-- If no cell is negative, no value is. -/
theorem nonneg_value (e : Expr α) : ∀ {k : Nat} {v : Int}, e.valued = true → e.value slots locals k = .ok v →
    0 ≤ v := by
  induction e using Expr.induction with
  | lit a l =>
    intro k v he h
    cases l with
    | int n =>
      obtain rfl := Except.ok.inj h
      exact of_decide_eq_true he
    | bool b =>
      obtain rfl := Except.ok.inj h
      exact nonneg_ofBool b
    | str s =>
      obtain rfl := Except.ok.inj h
      exact Int.natCast_nonneg k
    | none => cases he
  | var a x =>
    intro k v _ h
    obtain rfl := Except.ok.inj h
    exact nonneg_getD hlocals _
  | unary a op e ih =>
    intro k v _ h
    rw [value, bind_eq_ok] at h
    obtain ⟨u, -, h⟩ := h
    exact nonneg_unary h
  | binary a op l r ihl ihr =>
    intro k v he h
    rw [valued, Bool.and_eq_true] at he
    obtain ⟨d, rfl⟩ | ⟨hand, hor⟩ := op.circuit_cases
    · rw [value_circuit, bind_eq_ok] at h
      obtain ⟨u, -, h⟩ := h
      split at h
      · obtain rfl := Except.ok.inj h
        exact nonneg_ofBool d
      · obtain ⟨w, -, h⟩ := bind_eq_ok.1 h
        obtain rfl := Except.ok.inj h
        exact nonneg_ofBool _
    · simp only [value_binary _ _ _ _ _ _ hand hor, bind_eq_ok] at h
      obtain ⟨u, hu, w, hw, h⟩ := h
      exact nonneg_binary (ihl he.1 hu) (ihr he.2 hw) h
  | index a x i _ ih =>
    intro k v _ h
    rw [value, bind_eq_ok] at h
    obtain ⟨u, -, h⟩ := h
    exact nonneg_contents hlocals h
  | addrVar a b x =>
    intro k v _ h
    obtain rfl := Except.ok.inj h
    exact Int.natCast_nonneg _
  | addrIndex a b x i _ ih =>
    intro k v _ h
    rw [value, bind_eq_ok] at h
    obtain ⟨u, -, h⟩ := h
    obtain rfl := Except.ok.inj h
    exact nonneg_wrap _
  | call a f args _ | hole a =>
    intro k v _ h
    obtain rfl := Except.ok.inj h
    decide
  | addr a t hvar hindex _ =>
    intro k v _ h
    cases t with
    | var b x => exact absurd rfl (hvar b x)
    | index b x i => exact absurd rfl (hindex b x i)
    | _ =>
      obtain rfl := Except.ok.inj h
      decide

end Nonneg

/-! ### Expressions within expressions -/

/-- The expression is part of another one. -/
inductive Within (e : Expr α) : Expr α → Prop
  | self : Within e e
  | unary {a : α} {op : UnaryOp} {x : Expr α} (h : Within e x) : Within e (.unary a op x)
  | left {a : α} {op : BinaryOp} {l r : Expr α} (h : Within e l) : Within e (.binary a op l r)
  | right {a : α} {op : BinaryOp} {l r : Expr α} (h : Within e r) : Within e (.binary a op l r)
  | arg {a : α} {f : String} {args : List (Expr α)} {x : Expr α} (hx : x ∈ args) (h : Within e x) :
      Within e (.call a f args)
  | array {a : α} {x i : Expr α} (h : Within e x) : Within e (.index a x i)
  | index {a : α} {x i : Expr α} (h : Within e i) : Within e (.index a x i)
  | target {a : α} {x : Expr α} (h : Within e x) : Within e (.addr a x)

theorem Within.valued {e x : Expr α} (h : e.Within x) : x.valued = true → e.valued = true := by
  induction h with
  | self => exact id
  | unary _ ih | target _ ih => exact ih
  | left _ ih | array _ ih =>
    intro hx
    rw [Expr.valued, Bool.and_eq_true] at hx
    exact ih hx.1
  | right _ ih | index _ ih =>
    intro hx
    rw [Expr.valued, Bool.and_eq_true] at hx
    exact ih hx.2
  | arg hmem _ ih =>
    intro hx
    rw [Expr.valued, Expr.allValued_eq, List.all_eq_true] at hx
    exact ih (hx _ hmem)

end Expr

theorem Stmt.valued_exprs {α : Type} (ss : List (Stmt α)) : Stmt.allValued ss = true →
    ∀ x ∈ Stmt.exprs ss ++ Stmt.prints ss, x.valued = true := by
  simp only [List.forall_mem_append]
  induction ss using Stmt.parts_induction (P := fun s : Stmt α => s.valued = true →
      (∀ x ∈ s.exprsOf, x.valued = true) ∧ ∀ x ∈ s.printsOf, x.valued = true) with
  | nil => simp [Stmt.exprs, Stmt.prints]
  | cons s ss ihs ih =>
    intro h
    rw [Stmt.allValued, Bool.and_eq_true] at h
    simp only [Stmt.exprs, Stmt.prints, List.forall_mem_append]
    exact ⟨⟨(ihs h.1).1, (ih h.2).1⟩, (ihs h.1).2, (ih h.2).2⟩
  | decl x t init => cases init <;> simp_all [Stmt.exprsOf, Stmt.printsOf, Stmt.valued]
  | ret v => cases v <;> simp_all [Stmt.exprsOf, Stmt.printsOf, Stmt.valued]
  | expr e h | print nl e h | assign t v h => simpa [Stmt.exprsOf, Stmt.printsOf, Stmt.valued] using h
  | cond c yes b ihy ihn h =>
    rw [Stmt.valued, Bool.and_eq_true, Bool.and_eq_true] at h
    simp only [Stmt.exprsOf, Stmt.printsOf, List.forall_mem_append, List.forall_mem_cons]
    exact ⟨⟨h.1.1, (ihy h.1.2).1, (ihn h.2).1⟩, (ihy h.1.2).2, (ihn h.2).2⟩
  | condThen c body ihb h | loop c body ihb h =>
    rw [Stmt.valued, Bool.and_eq_true] at h
    exact ⟨List.forall_mem_cons.2 ⟨h.1, (ihb h.2).1⟩, (ihb h.2).2⟩
  | _ => simp [Stmt.exprsOf, Stmt.printsOf]

/-- The function evaluates the expression, if need be as a part of another one. -/
def Function.Evaluates {α : Type} (f : Function α) (e : Expr α) : Prop :=
  ∃ x ∈ Stmt.exprs f.body ++ Stmt.prints f.body, e.Within x

theorem Function.Evaluates.valued {α : Type} {prog : Program α} {f : Function α} {e : Expr α} (h : f.Evaluates e)
    (hf : f ∈ prog.functions) (hprog : prog.valued = true) : e.valued = true := by
  obtain ⟨x, hx, hwithin⟩ := h
  rw [Program.valued, List.all_eq_true] at hprog
  have hbody := hprog f hf
  rw [Bool.and_eq_true] at hbody
  exact hwithin.valued (Stmt.valued_exprs f.body hbody.1 x hx)

/-! ### Running the code -/

namespace Bytecode

open Machine (Instr Image Frame)

def Result.ofValue (a : Act) : Except Fault Int → Result Act
  | .ok v => .pure (a.push v)
  | .error f => .fault f

theorem Result.ofValue_bind {a b : Act} {m : Except Fault Int} {f : Int → Except Fault Int} {g : Act → Result Act}
    (h : ∀ v, m = .ok v → g (b.push v) = ofValue a (f v)) : (ofValue b m).bind g = ofValue a (m >>= f) := by
  cases m with
  | error e => rfl
  | ok v => exact h v rfl

theorem load_of_nonneg (s : Machine.State) {n : Int} (hn : 0 ≤ n) : s.load n =
    match Expr.contents s.locals n with
    | .ok v => s.push v
    | .error f => .fault f s := by
  unfold Machine.State.load Machine.cellAt Expr.contents
  by_cases hlt : n < s.locals.size
  · simp [hn, hlt]
  · have hneg : ¬ n < 0 := by omega
    by_cases hword : n < 9223372036854775808
    · have hsmall : ¬ (n < -9223372036854775808 ∨ 9223372036854775807 < n) := by omega
      simp [hlt, hneg, hword, hsmall, Fault.ofRead]
    · have hlarge : n < -9223372036854775808 ∨ 9223372036854775807 < n := by omega
      simp [hlt, hneg, hword, hlarge, Fault.ofRead]

section Run

variable {lib : Library} {go : Nat → Shape → Act → Result Act} {k : Nat} (a : Act)

theorem run_unary {op : UnaryOp} {t u : Ty} (hop : Typing.unaryType op t = .ok u) (v : Int) :
    (Shape.plain ((unaryOps op).map fun o => ⟨o, none⟩)).run lib go k (a.push v) =
      .ofValue a (Expr.operate (Scalar.unary op v)) := by
  cases op with
  | neg | not => rfl
  | other text => simp [Typing.unaryType] at hop

theorem run_binary {op : BinaryOp} {t t' u : Ty} (hop : Typing.binaryType op t t' = .ok u) (hand : op ≠ .and)
    (hor : op ≠ .or) (v w : Int) :
    (Shape.plain ((binaryOps op).map fun o => ⟨o, none⟩)).run lib go k ((a.push v).push w) =
      .ofValue a (Expr.operate (Scalar.binary op v w)) := by
  cases op with
  | and => exact absurd rfl hand
  | or => exact absurd rfl hor
  | other text => simp [Typing.binaryType] at hop
  | div =>
    by_cases hw : w = 0
    · subst hw
      rfl
    · simp [binaryOps, Shape.plain, Shape.run, Act.perform, Act.push, Machine.execute, Machine.State.pop₂, hw,
        Scalar.binary]
      rfl
  | add | sub | mul | eq | ne | lt | le | gt | ge => rfl

theorem run_circuit (d : Bool) {s : Shape} {m : Except Fault Int} (hs : s.run lib go k a = .ofValue a m) (v : Int) :
    (Shape.circuit d s).run lib go k (a.push v) = .ofValue a (if decide (v ≠ 0) = d then .ok (ofBool d)
      else m >>= fun w => .ok (ofBool (w ≠ 0))) := by
  rw [Shape.run, Act.pop_push, hs]
  split
  · rfl
  · exact Result.ofValue_bind fun w _ => rfl

theorem perform_loadLocalIdx {base : Nat} {i : Int} (hi : 0 ≤ i) :
    (a.push i).perform lib ⟨.loadLocalIdx, some (base : Int)⟩ = .ofValue a (Expr.contents a.locals (base + i)) := by
  have hn : 0 ≤ base + i := by omega
  simp only [Act.perform, Act.push, Machine.execute, Machine.State.pop₁, Machine.withArg, load_of_nonneg _ hn]
  cases Expr.contents a.locals (base + i) <;> rfl

end Run

/-! ### Shapes without calls -/

section CallFree

variable {α : Type} {view : View}

theorem strings_callFree (e : Expr α) : e.callFree view.slots = true → (view.expr e).strings = e.texts := by
  induction e using Expr.induction with
  | lit a l => cases l <;> exact fun _ => rfl
  | var a x =>
    intro _
    rw [View.expr]
    split <;> rfl
  | unary a op e ih =>
    intro he
    cases op <;> simp [View.expr, Shape.strings, Expr.texts, ih he, unaryOps, Shape.plain]
  | binary a op l r ihl ihr =>
    intro he
    rw [Expr.callFree, Bool.and_eq_true] at he
    cases op <;> simp [View.expr, Shape.strings, Expr.texts, ihl he.1, ihr he.2, binaryOps, Shape.plain]
  | index a x i _ ih | addrIndex a b x i _ ih =>
    intro he
    rw [Expr.callFree, Bool.and_eq_true] at he
    obtain ⟨base, hbase⟩ := isSome_iff_exists.1 he.1
    simp [View.expr, View.arrayCell?, hbase, Shape.strings, Expr.texts, ih he.2, Shape.push, Shape.op]
  | addrVar a b x => exact fun _ => rfl
  | addr a t hvar hindex _ =>
    intro he
    rw [Expr.callFree_addr hvar hindex] at he
    cases he
  | call | hole =>
    intro he
    cases he

variable {table : Signatures} {scope : Scope} {e : Expr α} {env : Env}

/-- **Evaluation**: the shape of an expression without calls runs to the value of the expression. -/
theorem run_callFree {lib : Library} {go : Nat → Shape → Act → Result Act} (hslots : view.slots.Framed)
    {locals : Array Int} (hsize : locals.size = view.slots.size) (hlocals : ∀ v ∈ locals, 0 ≤ v) {e : Expr Note} {t : Ty}
    (ht : HasType table scope e t) (hv : e.valued = true) (he : e.callFree view.slots = true) (k : Nat)
    (stack : List Int) :
    (view.expr e).run lib go k ⟨stack, locals⟩ = .ofValue ⟨stack, locals⟩ (e.value view.slots locals k) := by
  induction ht generalizing k stack with
  | lit l =>
    cases l with
    | int | str => rfl
    | bool b => cases b <;> rfl
    | none => cases he
  | var =>
    obtain ⟨c, hc⟩ := isSome_iff_exists.1 he
    have hlt : c < locals.size := hsize ▸ hslots.lt hc
    simp only [View.expr, hc, Expr.value, getD_some]
    refine Act.perform_loadLocal ?_
    rw [Array.getD_eq_getD_getElem?, Array.getElem?_eq_getElem hlt, getD_some]
  | unary _ hop ih =>
    rw [View.expr, Shape.run, ih hv he]
    exact Result.ofValue_bind fun v _ => run_unary _ hop v
  | @binary op l _ _ _ _ _ _ hop ihl ihr =>
    rw [Expr.valued, Bool.and_eq_true] at hv
    rw [Expr.callFree, Bool.and_eq_true] at he
    have hleft := ihl hv.1 he.1 k stack
    have hstrings := strings_callFree l he.1
    obtain ⟨d, rfl⟩ | ⟨hand, hor⟩ := op.circuit_cases
    · -- The operands run on the same stack, since a test takes the first one.
      rw [Scalar.view_circuit, Shape.run, hleft, Expr.value_circuit, hstrings]
      exact Result.ofValue_bind fun v _ => run_circuit _ d (ihr hv.2 he.2 _ stack) v
    · rw [Scalar.view_binary hand hor, Shape.run, hleft, Expr.value_binary _ _ _ _ _ _ hand hor]
      refine Result.ofValue_bind fun v _ => ?_
      rw [Shape.run, hstrings, Act.push, ihr hv.2 he.2]
      exact Result.ofValue_bind fun w _ => run_binary ⟨stack, locals⟩ hop hand hor v w
  | @index x i _ _ _ _ _ ih | @addrIndex x i _ _ _ _ _ ih =>
    simp only [Expr.valued, Bool.and_eq_true] at hv
    rw [Expr.callFree, Bool.and_eq_true] at he
    obtain ⟨base, hbase⟩ := isSome_iff_exists.1 he.1
    simp only [View.expr, View.arrayCell?, hbase, Shape.run, ih hv.2 he.2, Expr.value, Expr.base]
    first
    -- An index below zero would count from the end of the frame.
    | exact Result.ofValue_bind fun v hval => perform_loadLocalIdx _ (Expr.nonneg_value hlocals i hv.2 hval)
    | exact Result.ofValue_bind fun v _ => rfl
  | addrVar => rfl
  | push | pop | call => cases he

theorem callees_callFree {slots : Slots} (e : Expr α) : e.callFree slots = true → e.callees = [] := by
  induction e using Expr.induction with
  | lit | var | addrVar => exact fun _ => rfl
  | unary a op e ih => exact ih
  | binary a op l r ihl ihr =>
    intro he
    rw [Expr.callFree, Bool.and_eq_true] at he
    rw [Expr.callees, ihl he.1, ihr he.2]
    rfl
  | index a x i _ ih | addrIndex a b x i _ ih =>
    intro he
    rw [Expr.callFree, Bool.and_eq_true] at he
    cases x with
    | var b y => exact ih he.2
    | _ => cases he.1
  | addr a t hvar hindex _ =>
    intro he
    rw [Expr.callFree_addr hvar hindex] at he
    cases he
  | call | hole =>
    intro he
    cases he

def Env.number (env : Env) (f : String) : Nat := (env.functions.lookup f).getD 0

theorem Env.numbered (env : Env) : env.Numbered env.number := by
  intro f n hf
  rw [Env.number, hf, getD_some]

/-- Where the code of a shape without calls stands in an image, the machine does what the shape does. -/
theorem Shape.shows {img : Image} {number : String → Nat} {s : Shape} (hfits : s.Fits fun _ => False) {p : Place}
    (hstrings : ∀ j t, s.strings[j]? = some t → img.text (p.string + j : Nat) = t)
    (hcode : img.Has p.pc (s.code number p).code) (stack : List Int) (cells : Array Int) (calls : List Frame) :
    ∃ lib go, Shows img 1 (fun b t => t = b.state (p.pc + (s.code number p).code.length) calls)
      ⟨p.pc, stack, cells, calls⟩ (s.run lib go p.string ⟨stack, cells⟩) := by
  let lib : Library := ⟨fun _ => ⟨.skip, false, 0, 0, 0⟩, img.strings⟩
  have hlinked : Linked img lib number fun _ => False := ⟨rfl, fun _ h => h.elim⟩
  exact ⟨lib, Shape.exec lib 0, hlinked.exec_adequate 1 s p.string p.pc ⟨stack, cells⟩ calls hfits hstrings hcode⟩

/-- Where the code of an expression without calls stands in an image, the machine does what the value says. -/
theorem exprCode_shows {img : Image} {p : Place} {e : Expr Note} {t : Ty} (ht : HasType table scope e t)
    (hv : e.valued = true) (he : e.callFree env.slots = true) (hcode : img.Has p.pc (exprCode env p e).code)
    (htexts : ∀ j s, e.texts[j]? = some s → img.text (p.string + j : Nat) = s) (hslots : env.slots.Framed)
    {locals : Array Int} (hsize : locals.size = env.slots.size) (hlocals : ∀ v ∈ locals, 0 ≤ v) (stack : List Int)
    (calls : List Frame) :
    Shows img 1 (fun b t => t = b.state (p.pc + (exprCode env p e).code.length) calls)
      ⟨p.pc, stack, locals, calls⟩ (.ofValue ⟨stack, locals⟩ (e.value env.slots locals p.string)) := by
  rw [exprCode_eq env.numbered] at hcode ⊢
  obtain ⟨lib, go, hshows⟩ := Shape.shows (fits_of_callees (callees_callFree e he))
    (by rwa [strings_callFree e he]) hcode stack locals calls
  rwa [run_callFree hslots hsize hlocals ht hv he] at hshows

end CallFree

/-! ### Code in a program -/

def Object.piece (obj : Object) : Piece := ⟨obj.code, obj.strings⟩

section Site

variable {obj : Object} {before c after : Piece} (h : obj.piece = before ++ c ++ after)
include h

theorem Object.has_of_site : obj.image.Has before.code.length c.code := by
  have hall : obj.image.Has 0 obj.code := fun j _ => by simp [Object.image]
  have hcode : obj.code = before.code ++ c.code ++ after.code := congrArg Piece.code h
  rw [hcode] at hall
  simpa using hall.left.right

theorem Object.text_of_site {j : Nat} {s : String} (hj : c.strings[j]? = some s) :
    obj.image.text (before.strings.length + j : Nat) = s := by
  have hstrings : obj.strings = before.strings ++ (c.strings ++ after.strings) := by
    rw [← List.append_assoc]
    exact congrArg Piece.strings h
  have hlookup : obj.numberedStrings.reverse.lookup ((before.strings.length + j : Nat) : Int) = some s := by
    have hlt : j < c.strings.length := (List.getElem?_eq_some_iff.1 hj).1
    refine (lookup_numbered obj.strings _).trans ?_
    rw [hstrings, List.getElem?_append_right (Nat.le_add_right _ _), Nat.add_sub_cancel_left,
      List.getElem?_append_left hlt, hj]
  rw [Image.text, Object.image, hlookup, getD_some]

end Site

/-- **Expressions without calls compile correctly.** Wherever the code of such an expression stands, over any operands
and below any calls, the machine pushes the value of the expression and changes nothing else, or it stops with the fault
of the expression. -/
theorem callFree_compiled {source : String} {prog : Program Note} {obj : Object} {img : Image}
    (hprog : checkedProgram source = .ok prog) (hobj : emit prog = .ok obj) (himg : imageOf source = .ok img)
    {f : Function Note} (hf : f ∈ prog.functions) {e : Expr Note} (hfe : f.Evaluates e) {table : Signatures}
    {scope : Scope} {t : Ty} (ht : HasType table scope e t) {env : Env} (henv : env.slots = Slots.ofFunction f)
    (he : e.callFree env.slots = true)
    {before after : Piece} {p : Place} (hp : p = Place.after ⟨0, 0⟩ before)
    (hsite : obj.piece = before ++ exprCode env p e ++ after) {locals : Array Int}
    (hsize : locals.size = env.slots.size) (hlocals : ∀ v ∈ locals, 0 ≤ v)
    (stack : List Int) (calls : List Frame) :
    (∀ j s, e.texts[j]? = some s → img.text (p.string + j : Nat) = s) ∧
      match e.value env.slots locals p.string with
      | .ok v => ∃ n, Machine.Runs img calls.length n [] ⟨p.pc, stack, locals, calls⟩
          ⟨p.pc + (exprCode env p e).code.length, v :: stack, locals, calls⟩
      | .error fault => ∃ n s s', Machine.Runs img calls.length n [] ⟨p.pc, stack, locals, calls⟩ s ∧
          Machine.step img s = .fault fault s' := by
  obtain ⟨prog', obj', hprog', hobj', rfl⟩ := imageOf_eq_ok.1 himg
  obtain rfl : prog = prog' := Except.ok.inj (hprog.symm.trans hprog')
  obtain rfl : obj = obj' := Except.ok.inj (hobj.symm.trans hobj')
  have hv : e.valued = true := hfe.valued hf (valued_of_source hprog)
  have htexts : ∀ j s, e.texts[j]? = some s → obj.image.text (p.string + j : Nat) = s := by
    intro j s hj
    have hsame : (exprCode env p e).strings = e.texts := by
      rw [exprCode_eq env.numbered, Shape.strings_code, strings_callFree e he]
    rw [← hsame] at hj
    have hstring : p.string = before.strings.length := by rw [hp, Place.after_string, Nat.zero_add]
    rw [hstring]
    exact Object.text_of_site hsite hj
  have hcode : obj.image.Has p.pc (exprCode env p e).code := by
    have hpc : p.pc = before.code.length := by rw [hp, Place.after_pc, Nat.zero_add]
    rw [hpc]
    exact Object.has_of_site hsite
  have hslots : env.slots.Framed := henv ▸ Slots.framed_ofFunction f
  obtain ⟨n, s, hruns, hend⟩ := exprCode_shows ht hv he hcode htexts hslots hsize hlocals stack calls
  refine ⟨htexts, ?_⟩
  cases hvalue : e.value env.slots locals p.string with
  | ok v =>
    rw [hvalue] at hruns hend
    obtain rfl : s = Act.state ⟨v :: stack, locals⟩ (p.pc + (exprCode env p e).code.length) calls := hend
    exact ⟨n, hruns⟩
  | error fault =>
    rw [hvalue] at hruns hend
    obtain ⟨s', hfault⟩ := hend
    exact ⟨n, s, s', hruns, hfault⟩

/-! ### A read at a quotient -/

/-- Reads an element of an array at a quotient, unless two strings are the same one. -/
def quotientRead : String :=
  "fn main() \x7b let a: int[2]; let i = 6; print(\"go\"); return \"no\" == \"yes\" || a[6 / i] < i; \x7d"

/-- What `quotientRead` returns. -/
@[match_pattern]
def noOrRead : Expr Note :=
  .binary (some .bool) .or
    (.binary (some .bool) .eq (.lit (some .str) (.str "no")) (.lit (some .str) (.str "yes")))
    (.binary (some .bool) .lt
      (.index (some .int) (.var (some (.array "int[2]" 2)) "a")
        (.binary (some .int) .div (.lit (some .int) (.int 6)) (.var (some .int) "i")))
      (.var (some .int) "i"))

@[match_pattern]
def quotientMain : Function Note where
  name := "main"
  params := []
  returnType := none
  body := [.decl "a" (some "int[2]") none, .decl "i" none (some (.lit (some .int) (.int 6))),
    .print false (.lit (some .str) (.str "go")), .ret (some noOrRead)]

/-- Tells the program of `quotientMain` from any other. -/
def isQuotient (prog : Program Note) : Bool := prog matches ⟨[quotientMain]⟩

theorem checked_quotientRead : checkedProgram quotientRead = .ok ⟨[quotientMain]⟩ := by
  obtain ⟨prog, hprog, hmain⟩ : ∃ prog, checkedProgram quotientRead = .ok prog ∧ isQuotient prog = true := by
    rw [checkedProgram, show Token.tokens quotientRead = _ from Token.tokens_ofList _]
    decide +kernel
  unfold isQuotient at hmain
  split at hmain
  · exact hprog
  · cases hmain

/-- The code of `quotientMain` before the expression. -/
def quotientHead : Piece where
  code := [⟨.pushInt, some 0⟩, ⟨.storeLocal, some 0⟩, ⟨.pushInt, some 0⟩, ⟨.storeLocal, some 1⟩, ⟨.pushInt, some 6⟩,
    ⟨.storeLocal, some 2⟩, ⟨.pushInt, some 0⟩, ⟨.printStr, none⟩]
  strings := ["go"]

/-- The code of `quotientMain` after the expression. -/
def quotientTail : Piece where
  code := [⟨.ret, none⟩, ⟨.pushInt, some 0⟩, ⟨.ret, none⟩]

/-- What is known inside `quotientMain`. -/
def quotientEnv : Env := ⟨Slots.ofFunction quotientMain, [("main", 0)]⟩

/-- The code of `quotientRead`. -/
def quotientObject : Object where
  code := quotientHead.code ++ (exprCode quotientEnv ⟨8, 1⟩ noOrRead).code ++ quotientTail.code
  functions := [⟨"main", 0, Slots.ofFunction quotientMain, 0⟩]
  strings := ["go", "no", "yes"]

theorem emit_quotientRead : emit ⟨[quotientMain]⟩ = .ok quotientObject := rfl

theorem noOrRead_hasType : HasType [] [[("a", .array "int[2]" 2), ("i", .int)]] noOrRead .bool :=
  .binary (.binary (.lit (.str "no")) (.lit (.str "yes")) rfl)
    (.binary (.index (.var rfl) rfl (.binary (.lit (.int 6)) (.var rfl) rfl)) (.var rfl) rfl) rfl

/-- Where `i` is six the element decides, and where `i` is zero the division stops the machine. -/
theorem noOrRead_compiled : quotientMain.Evaluates noOrRead ∧ noOrRead.callFree quotientEnv.slots = true ∧
    quotientObject.piece = quotientHead ++ exprCode quotientEnv ⟨8, 1⟩ noOrRead ++ quotientTail ∧
    quotientObject.image.text 2 = "yes" ∧
    (∃ n, Machine.Runs quotientObject.image 1 n [] ⟨8, [9], #[4, 1, 6], [⟨3, #[7]⟩]⟩
      ⟨22, [1, 9], #[4, 1, 6], [⟨3, #[7]⟩]⟩) ∧
    ∃ n s s', Machine.Runs quotientObject.image 1 n [] ⟨8, [9], #[4, 1, 0], [⟨3, #[7]⟩]⟩ s ∧
      Machine.step quotientObject.image s = .fault .divisionByZero s' := by
  have himg : imageOf quotientRead = .ok quotientObject.image :=
    imageOf_eq_ok.2 ⟨_, _, checked_quotientRead, emit_quotientRead, rfl⟩
  have hevaluates : quotientMain.Evaluates noOrRead :=
    ⟨noOrRead, by simp [quotientMain, Stmt.exprs, Stmt.exprsOf], .self⟩
  have henv : quotientEnv.slots = Slots.ofFunction quotientMain := rfl
  have hfree : noOrRead.callFree quotientEnv.slots = true := by decide +kernel
  have hplace : (⟨8, 1⟩ : Place) = Place.after ⟨0, 0⟩ quotientHead := rfl
  have hsite : quotientObject.piece = quotientHead ++ exprCode quotientEnv ⟨8, 1⟩ noOrRead ++ quotientTail := rfl
  have hsix := callFree_compiled checked_quotientRead emit_quotientRead himg (List.mem_singleton_self _) hevaluates
    noOrRead_hasType henv hfree hplace hsite (show #[4, 1, 6].size = quotientEnv.slots.size from rfl) (by decide) [9]
    [⟨3, #[7]⟩]
  have hzero := callFree_compiled checked_quotientRead emit_quotientRead himg (List.mem_singleton_self _) hevaluates
    noOrRead_hasType henv hfree hplace hsite (show #[4, 1, 0].size = quotientEnv.slots.size from rfl) (by decide) [9]
    [⟨3, #[7]⟩]
  exact ⟨hevaluates, hfree, hsite, hsix.1 1 "yes" rfl, hsix.2, hzero.2⟩

end Bytecode

end Workbench
