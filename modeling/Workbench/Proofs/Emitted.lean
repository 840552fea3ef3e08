import Workbench.Program.Walk
import Workbench.Proofs.Literals
import Workbench.Proofs.MachineRun
import Workbench.Proofs.Shape
import Workbench.Proofs.Slots

/-!
# What generated code is put together from

The shapes of expressions and statements are put together from few kinds of instructions. `Slots.Emits` lists them, and
says which variables they store in. A property that passes from these instructions to the shapes that are put together
from them therefore holds of all generated code (`View.Closed.expr`, `View.ClosedAll.stmts`).
-/

open List

namespace Workbench

section Traversal

variable {α : Type}

mutual

/-- An expression without string literals. -/
def Expr.textless : Expr α → Bool
  | .lit _ (.str _) => false
  | .lit .. | .var .. | .hole _ => true
  | .unary _ _ e | .addr _ e => e.textless
  | .binary _ _ l r | .index _ l r => l.textless && r.textless
  | .call _ _ args => Expr.allTextless args
termination_by structural e => e

/-- Expressions without string literals. -/
def Expr.allTextless : List (Expr α) → Bool
  | [] => true
  | e :: es => e.textless && Expr.allTextless es
termination_by structural es => es

end

theorem Expr.allTextless_eq (es : List (Expr α)) : Expr.allTextless es = es.all Expr.textless := by
  induction es with
  | nil => rfl
  | cons e es ih => rw [allTextless, ih, all_cons]

namespace Stmt

mutual

/-- The expressions of a statement that code is generated for, but for what is printed. -/
def exprsOf : Stmt α → List (Expr α)
  | .expr e => [e]
  | .decl _ _ init => init.toList
  | .assign target value => [target, value]
  | .ret value => value.toList
  | .cond test yes none => test :: exprs yes
  | .cond test yes (some no) => test :: (exprs yes ++ exprs no)
  | .loop test body => test :: exprs body
  | .print .. | .asm _ | .vmAsm _ | .block _ => []
termination_by structural s => s

/-- The expressions of statements that code is generated for, but for what is printed. -/
def exprs : List (Stmt α) → List (Expr α)
  | [] => []
  | s :: ss => exprsOf s ++ exprs ss
termination_by structural ss => ss

end

mutual

def printsOf : Stmt α → List (Expr α)
  | .print _ e => [e]
  | .cond _ yes none => prints yes
  | .cond _ yes (some no) => prints yes ++ prints no
  | .loop _ body => prints body
  | _ => []
termination_by structural s => s

def prints : List (Stmt α) → List (Expr α)
  | [] => []
  | s :: ss => printsOf s ++ prints ss
termination_by structural ss => ss

end

end Stmt

/-! ### What is stored in by name -/

namespace Expr

theorem partsOfAll_eq (es : List (Expr α)) : partsOfAll es = es.flatMap parts := by
  induction es with
  | nil => rw [partsOfAll, flatMap_nil]
  | cons e es ih => rw [partsOfAll, ih, flatMap_cons]

/-- The variable whose elements a call sets. -/
def pushed? : Expr α → Option String
  | .call _ "array_push" (.var _ a :: _) => some a
  | _ => none

/-- The variables whose elements are set in an expression. -/
def pushTargets (e : Expr α) : List String := e.parts.filterMap pushed?

theorem pushTargets_subset {e e' : Expr α} {xs : List String} (h : e.parts ⊆ e'.parts) (he' : e'.pushTargets ⊆ xs) :
    e.pushTargets ⊆ xs := by
  intro x hx
  obtain ⟨q, hq, hqx⟩ := mem_filterMap.1 hx
  exact he' (mem_filterMap.2 ⟨q, h hq, hqx⟩)

/-- The variable that an assignment to the expression stores in. -/
def stem? : Expr α → Option String
  | .var _ x | .index _ (.var _ x) _ => some x
  | _ => none

end Expr

/-- The variable that a line of machine instructions stores in. -/
def Bytecode.inlineTarget? (line : String) : Option String :=
  match inlineWords line with
  | ["store_local", x] => some x
  | _ => none

namespace Stmt

mutual

/-- The variables that a statement stores in by name. -/
def storedOf : Stmt α → List String
  | .expr e | .print _ e => e.pushTargets
  | .decl x _ init => x :: init.toList.flatMap Expr.pushTargets
  | .assign target value => target.stem?.toList ++ (target.pushTargets ++ value.pushTargets)
  | .ret value => value.toList.flatMap Expr.pushTargets
  | .cond test yes none => test.pushTargets ++ stored yes
  | .cond test yes (some no) => test.pushTargets ++ (stored yes ++ stored no)
  | .loop test body => test.pushTargets ++ stored body
  | .vmAsm text => (Text.lines text).filterMap Bytecode.inlineTarget?
  | .asm _ | .block _ => []
termination_by structural s => s

/-- The variables that statements store in by name. -/
def stored : List (Stmt α) → List String
  | [] => []
  | s :: ss => storedOf s ++ stored ss
termination_by structural ss => ss

end

end Stmt

end Traversal

end Workbench

namespace Workbench.Bytecode

open Machine (Instr Op)
open Typing (Note)

/-! ### The instructions -/

/-- The operations without operand that do not end a stretch of code and print no string. -/
def bareOps : List Op :=
  [.add, .sub, .mul, .div, .neg, .not, .cmpEq, .cmpNe, .cmpLt, .cmpLe, .cmpGt, .cmpGe, .loadIndirect, .storeIndirect,
    .memcpyLocals, .memsetLocals, .printInt, .printlnInt]

/-- The instructions that code is put together from, but for jumps, calls, returns and the printing of strings. They
store in the variables of `xs`, of which those of `ds` are declared, and push negative numbers only if `neg`. -/
inductive Slots.Emits (s : Slots) (neg : Prop) (xs ds : List String) : Instr → Prop
  | op {o : Op} (ho : o ∈ bareOps) : s.Emits neg xs ds ⟨o, none⟩
  | push {n : Int} (hn : neg ∨ 0 ≤ n) : s.Emits neg xs ds ⟨.pushInt, some n⟩
  | load {x : String} {k : Nat} (hk : s.cell? x = some k) : s.Emits neg xs ds ⟨.loadLocal, some (k : Int)⟩
  | loadElement (base : Nat) : s.Emits neg xs ds ⟨.loadLocalIdx, some (base : Int)⟩
  | store {x : String} {k : Nat} (hx : x ∈ xs) (hk : s.cell? x = some k) :
      s.Emits neg xs ds ⟨.storeLocal, some (k : Int)⟩
  | declare {x : String} {j : Nat} (hx : x ∈ xs) (hd : x ∈ ds) (hj : j < s.width x) :
      s.Emits neg xs ds ⟨.storeLocal, some (((s.cell? x).getD 0 + j : Nat) : Int)⟩
  | storeElement {x : String} {base : Nat} (hx : x ∈ xs) (hbase : s.arrayCell? x = some base) :
      s.Emits neg xs ds ⟨.storeLocalIdx, some (base : Int)⟩

section Emits

variable {s : Slots} {neg : Prop} {xs ds : List String}

theorem Slots.Emits.isPlain {i : Instr} (h : s.Emits neg xs ds i) : i.op.isPlain = true := by
  cases h with
  | op ho =>
    have hall : ∀ o ∈ bareOps, o.isPlain = true := by decide
    exact hall _ ho
  | _ => rfl

theorem emits_inlineInstr {line : String} {i : Instr} (hneg : neg) (hmem : (inlineTarget? line).toList ⊆ xs)
    (h : inlineInstr s line (inlineWords line) = .ok i) : s.Emits neg xs ds i := by
  unfold inlineTarget? at hmem
  generalize inlineWords line = ws at h hmem
  unfold inlineInstr at h
  split at h
  · split at h
    · rename_i op hop
      cases h
      have hall : ∀ p ∈ plainInstructions, p.2 ∈ bareOps := by decide
      exact .op (hall _ (mem_of_lookup hop))
    · cases h
  · repeat' split at h
    all_goals cases h
    · exact .push (.inl hneg)
    · exact .load ‹_›
    · rename_i hword _ k hk
      obtain rfl := eq_of_beq hword
      exact .store (hmem (by simp)) hk
  · cases h

end Emits

theorem View.exists_var {α : Type} {v : View} {e : Expr α} {base : Nat} (h : v.arrayCell? e = some base) :
    ∃ a x, e = .var a x ∧ v.slots.arrayCell? x = some base := by
  obtain ⟨x, hx, hbase⟩ := Option.bind_eq_some_iff.1 h
  cases e with
  | var a y =>
    cases hx
    exact ⟨a, x, rfl, hbase⟩
  | _ => cases hx

/-! ### Properties of shapes that pass from parts to the whole -/

/-- A property that passes from the instructions of `I` to the shapes of expressions. -/
structure View.Closed (v : View) (I : Instr → Prop) (P : Shape → Prop) : Prop where
  skip : P .skip
  instr : ∀ i, I i → P (.instr i)
  call : ∀ f, v.known f = true → P (.call f)
  seq : ∀ {a b : Shape}, P a → P b → P (.seq a b)
  circuit : ∀ {d : Bool} {a : Shape}, P a → P (.circuit d a)

/-- A property that passes from the instructions of `I` to the shapes of statements. -/
structure View.ClosedAll (v : View) (I : Instr → Prop) (P : Shape → Prop) : Prop extends v.Closed I P where
  ret : P .ret
  branch : ∀ {a b : Shape}, P a → P b → P (.branch a b)
  loop : ∀ {a b : Shape}, P a → P b → P (.loop a b)
  drop : ∀ {a : Shape}, P a → P (.drop a)

/-- A property that the shapes with strings in them have. -/
structure Shape.Speaks (P : Shape → Prop) : Prop where
  text : ∀ s, P (.text s)
  say : ∀ newline s, P (.say newline s)
  print : ∀ newline, P (.op (printOp newline .str))

namespace View.Closed

variable {α : Type} {v : View} {I J : Instr → Prop} {P : Shape → Prop}

theorem mono (h : v.Closed I P) (hI : ∀ i, J i → I i) : v.Closed J P :=
  { h with instr := fun i hi => h.instr i (hI i hi) }

theorem plain (h : v.Closed I P) {is : List Instr} (his : ∀ i ∈ is, I i) : P (.plain is) := by
  induction is with
  | nil => exact h.skip
  | cons i is ih =>
    obtain ⟨hi, his⟩ := forall_mem_cons.1 his
    exact h.seq (h.instr i hi) (ih his)

theorem foldr (h : v.Closed I P) {as : List Shape} {s : Shape} (has : ∀ a ∈ as, P a) (hs : P s) :
    P (as.foldr .seq s) := by
  induction as with
  | nil => exact hs
  | cons a as ih =>
    obtain ⟨ha, has⟩ := forall_mem_cons.1 has
    exact h.seq ha (ih has)

variable {neg : Prop} {xs ds : List String}

theorem push (h : v.Closed (v.slots.Emits neg xs ds) P) {n : Int} (hn : neg ∨ 0 ≤ n) : P (.push n) :=
  h.instr _ (.push hn)

theorem op (h : v.Closed (v.slots.Emits neg xs ds) P) {o : Op} (ho : o ∈ bareOps) : P (.op o) := h.instr _ (.op ho)

theorem ops (h : v.Closed (v.slots.Emits neg xs ds) P) {os : List Op} (hos : ∀ o ∈ os, o ∈ bareOps) :
    P (.plain (os.map fun o => ⟨o, none⟩)) := by
  refine h.plain fun i hi => ?_
  obtain ⟨o, ho, rfl⟩ := mem_map.1 hi
  exact .op (hos o ho)

theorem ofCall (h : v.Closed (v.slots.Emits neg xs ds) P) {f : String} {base : Option Nat} {as : List Shape}
    (has : ∀ a ∈ as, P a)
    (hbase : f = "array_push" → ∀ b : Nat, base = some b → v.slots.Emits neg xs ds ⟨.storeLocalIdx, some (b : Int)⟩) :
    P (v.call f base as) := by
  fun_cases View.call v f base as
  case case11 => exact h.foldr has (h.call f ‹_›)
  case case12 => exact h.push (.inr (by decide))
  all_goals
    simp only [forall_mem_cons] at has
    repeat' apply h.seq
    all_goals first
      | exact h.push (.inr (by decide))
      | exact h.op (by decide)
      | exact h.instr _ (hbase rfl _ rfl)
      | exact h.instr _ (.loadElement _)
      | simp [has]

/-- What the shapes of an expression are made of decides what holds of them. -/
theorem expr (h : v.Closed (v.slots.Emits neg xs ds) P) (e : Expr α) : neg ∨ e.valued = true → e.pushTargets ⊆ xs →
    (∀ s, P (.text s)) ∨ e.textless = true → P (v.expr e) := by
  have hnat (n : Nat) : P (.push n) := h.push (.inr (Int.natCast_nonneg n))
  induction e using Expr.induction with
  | lit a l =>
    intro hnum _ htext
    cases l with
    | int n => exact h.push (hnum.imp_right of_decide_eq_true)
    | bool b => cases b <;> exact hnat _
    | str s => exact htext.elim (fun htext => htext s) nofun
    | none => exact h.skip
  | var a x =>
    intro _ _ _
    rw [View.expr]
    split
    · exact h.instr _ (.load ‹_›)
    · exact hnat 0
  | unary a o e ih =>
    intro hnum hpush htext
    have hsub : e.parts ⊆ (Expr.unary a o e).parts := by simp [Expr.parts]
    exact h.seq (ih hnum (Expr.pushTargets_subset hsub hpush) htext) (h.ops (by cases o <;> simp [unaryOps, bareOps]))
  | binary a o l r ihl ihr =>
    intro hnum hpush htext
    simp only [Expr.valued, Expr.textless, Bool.and_eq_true] at hnum htext
    have hsub : l.parts ⊆ (Expr.binary a o l r).parts ∧ r.parts ⊆ (Expr.binary a o l r).parts := by simp [Expr.parts]
    have hl := ihl (hnum.imp_right (·.1)) (Expr.pushTargets_subset hsub.1 hpush) (htext.imp_right (·.1))
    have hr := ihr (hnum.imp_right (·.2)) (Expr.pushTargets_subset hsub.2 hpush) (htext.imp_right (·.2))
    cases o with
    | and | or => exact h.seq hl (h.circuit hr)
    | _ => exact h.seq hl (h.seq hr (h.ops (by simp [binaryOps, bareOps])))
  | call a f args ih =>
    intro hnum hpush htext
    simp only [Expr.valued, Expr.allValued_eq, Expr.textless, Expr.allTextless_eq, all_eq_true] at hnum htext
    rw [View.expr, View.args_eq_map]
    refine h.ofCall (fun s hs => ?_) ?_
    · obtain ⟨e, he, rfl⟩ := mem_map.1 hs
      have hsub : e.parts ⊆ (Expr.call a f args).parts := by
        rw [Expr.parts, Expr.partsOfAll_eq]
        exact fun q hq => mem_cons_of_mem _ (mem_flatMap.2 ⟨e, he, hq⟩)
      exact ih e he (hnum.imp_right (· e he)) (Expr.pushTargets_subset hsub hpush) (htext.imp_right (· e he))
    · rintro rfl base hbase
      obtain ⟨e, he, hbase⟩ := Option.bind_eq_some_iff.1 hbase
      obtain ⟨b, x, rfl, hx⟩ := View.exists_var hbase
      obtain ⟨es, rfl⟩ := head?_eq_some_iff.1 he
      exact .storeElement (hpush (mem_filterMap.2 ⟨_, by rw [Expr.parts]; exact mem_cons_self, rfl⟩)) hx
  | index a x i _ ih =>
    intro hnum hpush htext
    simp only [Expr.valued, Expr.textless, Bool.and_eq_true] at hnum htext
    have hsub : i.parts ⊆ (Expr.index a x i).parts := by simp [Expr.parts]
    have hi := ih (hnum.imp_right (·.2)) (Expr.pushTargets_subset hsub hpush) (htext.imp_right (·.2))
    rw [View.expr]
    split
    · exact h.seq hi (h.instr _ (.loadElement _))
    · exact hnat 0
  | addrVar => exact fun _ _ _ => hnat _
  | addrIndex a b x i _ ih =>
    intro hnum hpush htext
    simp only [Expr.valued, Expr.textless, Bool.and_eq_true] at hnum htext
    have hsub : i.parts ⊆ (Expr.addr a (.index b x i)).parts := by
      simp only [Expr.parts]
      exact fun q hq => by simp [hq]
    have hi := ih (hnum.imp_right (·.2)) (Expr.pushTargets_subset hsub hpush) (htext.imp_right (·.2))
    rw [View.expr]
    split
    · exact h.seq hi (h.seq (hnat _) (h.op (by decide)))
    · exact hnat 0
  | addr a t hv hi _ =>
    intro _ _ _
    rw [View.expr]
    · exact hnat 0
    all_goals assumption
  | hole a => exact fun _ _ _ => h.skip

/-- A property that all instructions have after which the next one follows. -/
theorem expr_of_plain (h : v.Closed (fun i => i.op.isPlain = true) P) (htext : ∀ s, P (.text s)) (e : Expr α) :
    P (v.expr e) := by
  have hemits : v.Closed (v.slots.Emits True e.pushTargets []) P := h.mono fun _ hi => hi.isPlain
  exact hemits.expr e (.inl trivial) (List.Subset.refl _) (.inl htext)

theorem decl (h : v.Closed (v.slots.Emits neg xs ds) P) {x : String} {init : Option (Expr α)} (hx : x ∈ xs)
    (hd : x ∈ ds) (hinit : ∀ e, init = some e → P (v.expr e)) : P (v.decl x init) := by
  unfold View.decl
  dsimp only
  split
  · rename_i n hn
    refine h.plain fun i hi => ?_
    obtain ⟨j, hj, hi⟩ := mem_flatMap.1 hi
    rcases mem_cons.1 hi with rfl | hi
    · exact .push (.inr (Int.le_refl 0))
    · obtain rfl := mem_singleton.1 hi
      refine .declare hx hd ?_
      rw [Slots.width, hn]
      exact mem_range.1 hj
  · rename_i hn
    refine h.seq ?_ (h.instr _ (.declare (j := 0) hx hd (by simp [Slots.width, hn])))
    cases init with
    | none => exact h.push (.inr (Int.le_refl 0))
    | some e => exact hinit e rfl

theorem assign (h : v.Closed (v.slots.Emits neg xs ds) P) {target value : Expr α} (hmem : target.stem?.toList ⊆ xs)
    (hvalue : P (v.expr value)) (hindex : ∀ a x i, target = .index a x i → P (v.expr i)) :
    P (v.assign target value) := by
  unfold View.assign
  split
  · split
    · exact h.seq hvalue (h.instr _ (.store (hmem (mem_singleton.2 rfl)) ‹_›))
    · exact h.skip
  · split
    · rename_i base hbase
      obtain ⟨b, y, rfl, hy⟩ := View.exists_var hbase
      exact h.seq hvalue (h.seq (hindex _ _ _ rfl) (h.instr _ (.storeElement (hmem (mem_singleton.2 rfl)) hy)))
    · exact h.skip
  · exact h.skip

theorem print (h : v.Closed (v.slots.Emits neg xs ds) P) (hspeaks : Shape.Speaks P) {newline : Bool} {e : Expr Note}
    (he : P (v.expr e)) : P (v.print newline e) := by
  unfold View.print
  split
  · exact hspeaks.say _ _
  · split
    · rename_i t _
      refine h.seq he ?_
      by_cases ht : t = .str
      · exact ht ▸ hspeaks.print newline
      · exact h.op (by cases newline <;> simp [printOp, ht, bareOps])
    · exact h.skip

theorem inline (h : v.Closed (v.slots.Emits neg xs ds) P) (hneg : neg) {text : String}
    (hmem : (Text.lines text).filterMap inlineTarget? ⊆ xs) : P (v.inline text) := by
  unfold View.inline
  split
  case h_1 is hcode =>
    refine h.plain fun i hi => ?_
    obtain ⟨line, hin, hline⟩ := exists_of_mapM_ok hcode i hi
    refine emits_inlineInstr hneg (fun x hx => hmem ?_) hline
    exact mem_filterMap.2 ⟨line, (mem_filter.1 hin).1, Option.mem_toList.1 hx⟩
  case h_2 => exact h.skip

end View.Closed

/-- What a statement may hold if its shape is to have the property. -/
structure View.Admits (v : View) (P : Shape → Prop) (neg : Prop) (xs ds : List String) (s : Stmt Note) : Prop where
  num : neg ∨ s.valued = true ∧ s.inlineFree = true
  stored : s.storedOf ⊆ xs
  decls : ∀ d ∈ s.declsOf, d.1 ∈ ds
  text : Shape.Speaks P ∨ (∀ e ∈ s.exprsOf, e.textless = true) ∧ ∀ e ∈ s.printsOf, ∀ newline, P (v.print newline e)

theorem View.Admits.textless {v : View} {P : Shape → Prop} {neg : Prop} {xs ds : List String} {s : Stmt Note}
    (h : v.Admits P neg xs ds s) {e : Expr Note} (he : e ∈ s.exprsOf) : Shape.Speaks P ∨ e.textless = true :=
  h.text.imp_right fun ht => ht.1 e he

/-- The shape of all statements has the property. Negative numbers are pushed by machine instructions only. -/
theorem View.ClosedAll.stmts {v : View} {P : Shape → Prop} {neg : Prop} {xs ds : List String}
    (h : v.ClosedAll (v.slots.Emits neg xs ds) P) (ss : List (Stmt Note)) :
    neg ∨ Stmt.allValued ss = true ∧ Stmt.allInlineFree ss = true → Stmt.stored ss ⊆ xs →
    (∀ d ∈ Stmt.decls ss, d.1 ∈ ds) → Shape.Speaks P ∨ (∀ e ∈ Stmt.exprs ss, e.textless = true) ∧
      (∀ e ∈ Stmt.prints ss, ∀ newline, P (v.print newline e)) → P (v.stmts ss) := by
  have hexpr {e : Expr Note} hnum hpush
      (htext : Shape.Speaks P ∨ e.textless = true) : P (v.expr e) :=
    h.expr e hnum hpush (htext.imp_left (·.text))
  have h0 : P (.push 0) := h.push (.inr (Int.le_refl 0))
  induction ss using Stmt.parts_induction (P := fun s => v.Admits P neg xs ds s → P (v.stmt s)) with
  | nil => exact fun _ _ _ _ => h.skip
  | cons s ss ihs ih =>
    intro hnum hstored hdecls htext
    simp only [Stmt.allValued, Stmt.allInlineFree, Bool.and_eq_true, Stmt.stored, append_subset, Stmt.decls,
      Stmt.exprs, Stmt.prints, forall_mem_append] at hnum hstored hdecls htext
    refine h.seq (ihs ⟨hnum.imp_right fun hn => ⟨hn.1.1, hn.2.1⟩, hstored.1, hdecls.1, ?_⟩) ?_
    · exact htext.imp_right fun ht => ⟨ht.1.1, ht.2.1⟩
    · exact ih (hnum.imp_right fun hn => ⟨hn.1.2, hn.2.2⟩) hstored.2 hdecls.2
        (htext.imp_right fun ht => ⟨ht.1.2, ht.2.2⟩)
  | asm | block => exact h.skip
  | vmAsm text hs => exact h.inline (hs.num.elim id fun hn => absurd hn.2 Bool.false_ne_true) hs.stored
  | print newline e hs =>
    rcases hs.text with htext | htext
    · exact h.print htext (hexpr (hs.num.imp_right (·.1)) hs.stored (.inl htext))
    · exact htext.2 e mem_cons_self newline
  | expr e hs => exact h.drop (hexpr (hs.num.imp_right (·.1)) hs.stored (hs.textless mem_cons_self))
  | decl x t init hs =>
    obtain ⟨hx, hinit⟩ := cons_subset.1 hs.stored
    refine h.decl hx (hs.decls _ mem_cons_self) ?_
    rintro e rfl
    exact hexpr (hs.num.imp_right (·.1)) (by simpa using hinit) (hs.textless mem_cons_self)
  | ret value hs =>
    cases value with
    | none => exact h.seq h0 h.ret
    | some e =>
      refine h.seq (hexpr (hs.num.imp_right (·.1)) ?_ (hs.textless mem_cons_self)) h.ret
      simpa [Stmt.storedOf] using hs.stored
  | assign target value hs =>
    obtain ⟨hnum, hstored, -, htext⟩ := hs
    simp only [Stmt.valued, Bool.and_eq_true, Stmt.storedOf, append_subset, Stmt.exprsOf,
      forall_mem_cons] at hnum hstored htext
    refine h.assign hstored.1 (hexpr (hnum.imp_right (·.1.2)) hstored.2.2 (htext.imp_right (·.1.2.1))) ?_
    rintro a x i rfl
    simp only [Expr.valued, Expr.textless, Bool.and_eq_true] at hnum htext
    exact hexpr (hnum.imp_right (·.1.1.2)) (Expr.pushTargets_subset (by simp [Expr.parts]) hstored.2.1)
      (htext.imp_right (·.1.1.2))
  | condThen test yes ihy hs =>
    obtain ⟨hnum, hstored, hdecls, htext⟩ := hs
    simp only [Stmt.valued, Bool.and_eq_true, Stmt.storedOf, append_subset, Stmt.exprsOf,
      forall_mem_cons] at hnum hstored htext
    refine h.seq (hexpr (hnum.imp_right (·.1.1)) hstored.1 (htext.imp_right (·.1.1))) (h.branch ?_ h.skip)
    exact ihy (hnum.imp_right fun hn => ⟨hn.1.2, hn.2⟩) hstored.2 hdecls (htext.imp_right fun ht => ⟨ht.1.2, ht.2⟩)
  | cond test yes no ihy ihn hs =>
    obtain ⟨hnum, hstored, hdecls, htext⟩ := hs
    simp only [Stmt.valued, Stmt.inlineFree, Bool.and_eq_true, Stmt.storedOf, append_subset, Stmt.declsOf,
      Stmt.exprsOf, Stmt.printsOf, forall_mem_append, forall_mem_cons] at hnum hstored hdecls htext
    refine h.seq (hexpr (hnum.imp_right (·.1.1.1)) hstored.1 (htext.imp_right (·.1.1))) (h.branch ?_ ?_)
    · exact ihy (hnum.imp_right fun hn => ⟨hn.1.1.2, hn.2.1⟩) hstored.2.1 hdecls.1
        (htext.imp_right fun ht => ⟨ht.1.2.1, ht.2.1⟩)
    · exact ihn (hnum.imp_right fun hn => ⟨hn.1.2, hn.2.2⟩) hstored.2.2 hdecls.2
        (htext.imp_right fun ht => ⟨ht.1.2.2, ht.2.2⟩)
  | loop test body ihb hs =>
    obtain ⟨hnum, hstored, hdecls, htext⟩ := hs
    simp only [Stmt.valued, Bool.and_eq_true, Stmt.storedOf, append_subset, Stmt.exprsOf,
      forall_mem_cons] at hnum hstored htext
    refine h.loop (hexpr (hnum.imp_right (·.1.1)) hstored.1 (htext.imp_right (·.1.1))) ?_
    exact ihb (hnum.imp_right fun hn => ⟨hn.1.2, hn.2⟩) hstored.2 hdecls (htext.imp_right fun ht => ⟨ht.1.2, ht.2⟩)

end Workbench.Bytecode
