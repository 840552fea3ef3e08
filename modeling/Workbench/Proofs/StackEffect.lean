import Workbench.Proofs.InstrEffect
import Workbench.Proofs.Link
import Workbench.Proofs.Literals

/-!
# What code does to the operand stack

The effects of the instructions of an expression add up to one value (`Shape.Straight`), and those of statements
to nothing (`Shape.Even`), but for two things that the log of a run counts: values that expression statements
leave, and operands that functions without a value of their own take. `Moves` is the exact account: how high
the stack is afterwards, and how much of what was on it is still there. Operands are missing only where there
were fewer than the account takes.
-/

open List

namespace Workbench.Bytecode

open Machine (Instr Op)
open Typing (Note)
open View

/-! ### Accounts -/

/-- From the stack `S` to the stack `T`, `p` operands are taken and `q` left, beside those that the log counts; below
these nothing changes. -/
structure Moves (p q : Nat) (log : List Event) (S T : List Int) : Prop where
  height : T.length + (p + log.count .taken) = S.length + (q + log.count .left)
  below : S.drop (p + log.count .taken) <:+ T
  top : 0 < q → T ≠ []

namespace Moves

variable {p q p' q' : Nat} {log log' : List Event} {S T U : List Int} {v : Int}

theorem refl : Moves 0 0 [] S S := ⟨rfl, suffix_rfl, by simp⟩

theorem push : Moves 0 1 [] S (v :: S) := ⟨rfl, suffix_cons v S, by simp⟩

theorem pop : Moves 1 0 [] (v :: S) S := ⟨rfl, suffix_rfl, by simp⟩

theorem drop (h : p ≤ S.length) : Moves p 0 [] S (S.drop p) :=
  ⟨by rw [length_drop, count_nil, count_nil]; omega, suffix_rfl, by simp⟩

theorem left : Moves 1 0 [.left] S S := ⟨rfl, drop_suffix _ _, by simp⟩

theorem taken (h : S ≠ []) : Moves 0 1 [.taken] S S := ⟨rfl, drop_suffix _ _, fun _ => h⟩

theorem below_eq (h : Moves p q log S T) (hp : p + log.count .taken ≤ S.length) :
    S.drop (p + log.count .taken) = T.drop (q + log.count .left) := by
  have hlen := h.height
  rw [suffix_iff_eq_drop.1 h.below, length_drop]
  congr 1
  omega

theorem trans (h : Moves p q log S T) (h' : Moves p' q' log' T U) (hq : q' = 0 → q ≤ p') :
    Moves (p + (p' - q)) (q - p' + q') (log ++ log') S U := by
  have hlen := h.height
  have hlen' := h'.height
  refine ⟨by simp only [count_append]; omega, ?_, fun htop => h'.top (by omega)⟩
  rw [count_append]
  rcases Nat.lt_or_ge (p + log.count .taken) S.length with hp | hp
  · -- What is left of `S` now is a part of `T`, and as such below what the second account takes.
    have hrest : S.drop (p + (p' - q) + (log.count .taken + log'.count .taken)) =
        (T.drop (p' + log'.count .taken)).drop (q + log.count .left + (p' - q) - p') := by
      rw [drop_drop, show p + (p' - q) + (log.count .taken + log'.count .taken) =
        p + log.count .taken + (p' - q + log'.count .taken) by omega, ← drop_drop, h.below_eq hp.le,
        drop_drop]
      congr 1
      omega
    rw [hrest]
    exact (drop_suffix _ _).trans h'.below
  · rw [drop_of_length_le (by omega)]
    exact nil_suffix

end Moves

/-- Operands are missing only to a run that had fewer than the `p` it takes and those that the log counts. -/
def Result.Short {α : Type} (p : Nat) (S : List Int) (r : Result α) : Prop :=
  ∀ f, r.flow = .fault f → f.isUnderflow = true → S.length < p + r.log.count .taken

/-- A run that takes `p` operands and leaves `q`, if it comes to its end. It does not return. -/
structure Result.Straight (p q : Nat) (S : List Int) (r : Result Act) : Prop where
  stays : ∀ v rest, r.flow ≠ .ret v rest
  done : ∀ b, r.flow = .done b → Moves p q r.log S b.stack
  short : r.Short p S

/-- A run that takes `p` operands and leaves none, or returns one value. -/
structure Result.Even (p : Nat) (S : List Int) (r : Result Act) : Prop where
  ret : ∀ v rest, r.flow = .ret v rest → Moves p 1 r.log S (v :: rest)
  done : ∀ b, r.flow = .done b → Moves p 0 r.log S b.stack
  short : r.Short p S

namespace Result

variable {p q p' q' : Nat} {S T : List Int} {log : List Event} {r : Result Act} {f : Act → Result Act}

variable {a : Act} {g : Int → Act → Result Act} {α : Type}

theorem Short.pure {a : α} : (Result.pure a).Short p S := fun f hf => by cases hf

theorem Short.after {r : Result α} (h : r.Short p' T) (hm : Moves p q log S T) :
    Short (p + (p' - q)) S ⟨log ++ r.log, r.flow⟩ := by
  intro e he hu
  have hT := h e he hu
  have hheight := hm.height
  rw [count_append]
  omega

theorem Straight.pure (h : Moves p q [] S a.stack) : (Result.pure a).Straight p q S :=
  ⟨by simp [Result.pure], by rintro b ⟨⟩; exact h, .pure⟩

theorem Straight.fault {e : Machine.Fault} (h : e.isUnderflow = true → S.length < p + log.count .taken) :
    (⟨log, .fault e⟩ : Result Act).Straight p q S :=
  ⟨by simp, by simp, by rintro _ ⟨⟩ hu; exact h hu⟩

theorem Straight.cut : (⟨log, .cut⟩ : Result Act).Straight p q S := ⟨by simp, by simp, by rintro _ ⟨⟩⟩

theorem Straight.even (h : r.Straight p 0 S) : r.Even p S :=
  ⟨fun v rest hv => absurd hv (h.stays v rest), h.done, h.short⟩

theorem Straight.bind (h : r.Straight p q S) (hf : ∀ a, (f a).Straight p' q' a.stack) (hq : q' = 0 → q ≤ p') :
    (r.bind f).Straight (p + (p' - q)) (q - p' + q') S := by
  obtain ⟨log, flow⟩ := r
  cases flow with
  | done a =>
    have ha := h.done a rfl
    exact ⟨(hf a).stays, fun b hb => ha.trans ((hf a).done b hb) hq, (hf a).short.after ha⟩
  | ret v rest => exact absurd rfl (h.stays v rest)
  | fault e => exact .fault fun hu => Nat.lt_of_lt_of_le (h.short e rfl hu) (by omega)
  | cut => exact .cut

theorem Straight.bind_even (h : r.Straight 0 q S) (hf : ∀ a, (0 < q → a.stack ≠ []) → (f a).Even q a.stack) :
    (r.bind f).Even 0 S := by
  obtain ⟨log, flow⟩ := r
  cases flow with
  | done a =>
    have ha := h.done a rfl
    have hfa := hf a ha.top
    refine ⟨fun v rest hv => ?_, fun b hb => ?_, ?_⟩
    · simpa [Result.bind] using ha.trans (hfa.ret v rest hv) (by simp)
    · simpa [Result.bind] using ha.trans (hfa.done b hb) (by simp)
    · simpa [Result.bind] using hfa.short.after ha
  | ret v rest => exact absurd rfl (h.stays v rest)
  | fault e => exact (Straight.fault (h.short e rfl)).even
  | cut => exact Straight.cut.even

theorem Even.bind (h : r.Even p S) (hf : ∀ a, (f a).Even 0 a.stack) : (r.bind f).Even p S := by
  obtain ⟨log, flow⟩ := r
  cases flow with
  | done a =>
    have ha := h.done a rfl
    refine ⟨fun v rest hv => ?_, fun b hb => ?_, ?_⟩
    · exact ha.trans ((hf a).ret v rest hv) (by simp)
    · exact ha.trans ((hf a).done b hb) (by simp)
    · exact (hf a).short.after ha
  | ret v rest => exact ⟨h.ret, by simp [Result.bind], by rintro _ ⟨⟩⟩
  | fault e => exact (Straight.fault (h.short e rfl)).even
  | cut => exact Straight.cut.even

theorem Straight.pop (hg : ∀ v b, (g v b).Straight p q b.stack) : (a.pop g).Straight (p + 1) q a.stack := by
  obtain ⟨_ | ⟨v, stack⟩, locals⟩ := a
  · exact .fault fun _ => Nat.succ_pos p
  · have hv := hg v ⟨stack, locals⟩
    refine ⟨hv.stays, fun b hb => ?_, ?_⟩
    · simpa [Act.pop, Nat.add_comm] using Moves.pop.trans (hv.done b hb) (by simp)
    · simpa [Act.pop, Nat.add_comm] using hv.short.after .pop

theorem Even.pop (hg : ∀ v b, (g v b).Even 0 b.stack) : (a.pop g).Even 1 a.stack := by
  obtain ⟨_ | ⟨v, stack⟩, locals⟩ := a
  · exact (Straight.fault fun _ => Nat.one_pos).even
  · have hv := hg v ⟨stack, locals⟩
    refine ⟨fun w rest hw => ?_, fun b hb => ?_, ?_⟩
    · exact Moves.pop.trans (hv.ret w rest hw) (by simp)
    · exact Moves.pop.trans (hv.done b hb) (by simp)
    · exact hv.short.after .pop

theorem Even.close (h : r.Even 0 S) (routine : Routine) {v : Int} {rest : List Int}
    (hv : (routine.close r).flow = .done (v, rest)) : Moves 0 1 (routine.close r).log S (v :: rest) := by
  obtain ⟨log, flow⟩ := r
  cases flow with
  | done b =>
    have hb := h.done b rfl
    unfold Routine.close at hv ⊢
    dsimp only at hv ⊢
    split at hv
    case h_1 w rest' hbare hstack =>
      cases hv
      rw [hstack] at hb
      exact hb.trans (.taken (cons_ne_nil v rest)) (by simp)
    case h_2 =>
      cases hv
      simpa using hb.trans .push (by simp)
  | ret w rest' =>
    cases hv
    exact h.ret v rest rfl
  | fault | cut => cases hv

theorem Even.close_short (h : r.Even 0 S) (routine : Routine) : (routine.close r).Short 0 S := by
  obtain ⟨log, flow⟩ := r
  intro e he hu
  unfold Routine.close at he
  cases flow with
  | done b =>
    dsimp only at he
    split at he <;> cases he
  | ret w rest' => cases he
  | fault e' =>
    cases he
    exact h.short e rfl hu
  | cut => cases he

end Result

theorem Act.perform_straight (lib : Library) {i : Instr} (hi : i.op.isPlain = true) (a : Act) :
    (a.perform lib i).Straight i.op.effect.1 i.op.effect.2 a.stack := by
  unfold Act.perform
  cases hx : Machine.execute lib.image i ⟨0, a.stack, a.locals, []⟩ with
  | next t out =>
    obtain ⟨hp, hq, heq⟩ := Machine.execute_effect hi hx
    dsimp only at hp heq
    have htaken : (out.toList.map Event.text).count .taken = 0 := by cases out <;> rfl
    have hleft : (out.toList.map Event.text).count .left = 0 := by cases out <;> rfl
    refine ⟨by simp, ?_, by rintro _ ⟨⟩⟩
    rintro b ⟨⟩
    refine ⟨?_, ?_, ?_⟩
    · have hlen := congrArg length heq
      rw [length_drop, length_drop] at hlen
      dsimp only
      omega
    · rw [htaken, Nat.add_zero, heq]
      exact drop_suffix _ _
    · rintro hpos rfl'
      simp_all
  | exit v t => exact absurd hx (Machine.execute_ne_exit hi _ _ _)
  | fault f t => exact .fault (Machine.execute_underflow hi hx)

theorem Act.enter_straight {r : Routine} {go : Act → Result Act} (hgo : ∀ a, (go a).Even 0 a.stack) (a : Act) :
    (a.enter r go).Straight r.arity 1 a.stack := by
  unfold Act.enter
  split
  · exact .fault fun _ => ‹_›
  case isFalse hlt =>
    have hbody := hgo ⟨a.stack.drop r.arity, r.frame (a.stack.take r.arity).reverse⟩
    have hdrop : Moves r.arity 0 [] a.stack (a.stack.drop r.arity) := .drop (by omega)
    have hclose := @Result.Even.close _ _ hbody r
    have hshort := (hbody.close_short r).after hdrop
    have hret := r.close_ne_ret (go ⟨a.stack.drop r.arity, r.frame (a.stack.take r.arity).reverse⟩)
    generalize r.close (go ⟨a.stack.drop r.arity, r.frame (a.stack.take r.arity).reverse⟩) = res at *
    obtain ⟨log, flow⟩ := res
    cases flow with
    | done vr =>
      refine ⟨by simp [Result.bind, Result.pure], ?_, by rintro _ ⟨⟩⟩
      simpa [Result.bind, Result.pure] using hdrop.trans (hclose rfl) (by simp)
    | ret v rest => exact absurd rfl (hret v rest)
    | fault e => exact .fault (hshort e rfl)
    | cut => exact .cut

/-! ### Shapes -/

namespace Shape

/-- Code that takes `p` operands and leaves `q`. It calls only functions of `known`. -/
inductive Straight (lib : Library) (known : String → Prop) : Shape → Nat → Nat → Prop
  | skip : Straight lib known .skip 0 0
  | instr {i : Instr} (hi : i.op.isPlain = true) : Straight lib known (.instr i) i.op.effect.1 i.op.effect.2
  | text {s : String} : Straight lib known (.text s) 0 1
  | say {newline : Bool} {s : String} : Straight lib known (.say newline s) 0 0
  | seq {s t : Shape} {p q p' q' : Nat} (hs : Straight lib known s p q) (ht : Straight lib known t p' q')
      (hq : q' = 0 → q ≤ p') : Straight lib known (.seq s t) (p + (p' - q)) (q - p' + q')
  | last {s : Shape} {p q : Nat} (hs : Straight lib known s p q) : Straight lib known (.seq s .skip) p q
  | circuit {d : Bool} {s : Shape} (hs : Straight lib known s 0 1) : Straight lib known (.circuit d s) 1 1
  | call {f : String} (hf : known f) : Straight lib known (.call f) (lib.routine f).arity 1

/-- Code that takes `p` operands and leaves nothing, but for what expression statements leave if it is `loud`. -/
inductive Even (lib : Library) (known : String → Prop) (loud : Bool) : Shape → Nat → Prop
  | straight {s : Shape} {p : Nat} (hs : Straight lib known s p 0) : Even lib known loud s p
  | drop {s : Shape} (hloud : loud = true) (hs : Straight lib known s 0 1) : Even lib known loud (.drop s) 0
  | ret : Even lib known loud .ret 1
  | branch {s t : Shape} (hs : Even lib known loud s 0) (ht : Even lib known loud t 0) :
      Even lib known loud (.branch s t) 1
  | loop {s t : Shape} (hs : Straight lib known s 0 1) (ht : Even lib known loud t 0) :
      Even lib known loud (.loop s t) 0
  | seq {s t : Shape} (hs : Even lib known loud s 0) (ht : Even lib known loud t 0) : Even lib known loud (.seq s t) 0
  | after {s t : Shape} {q : Nat} (hs : Straight lib known s 0 q) (ht : Even lib known loud t q) :
      Even lib known loud (.seq s t) 0

variable {lib : Library} {known : String → Prop} {loud : Bool} {deeper : Nat → Shape → Act → Result Act} {s : Shape}
  {p q : Nat}

theorem Straight.run (hlib : ∀ f, known f → Even lib known loud (lib.routine f).body 0)
    (hgo : ∀ s, Even lib known loud s 0 → ∀ k a, (deeper k s a).Even 0 a.stack) (h : Straight lib known s p q)
    (k : Nat) (a : Act) : (s.run lib deeper k a).Straight p q a.stack := by
  induction h generalizing k a with
  | skip => exact .pure .refl
  | instr hi => exact a.perform_straight lib hi
  | text => exact .pure .push
  | say =>
    refine ⟨by simp [Shape.run, Result.event], ?_, by rintro _ ⟨⟩⟩
    rintro b ⟨⟩
    exact ⟨rfl, suffix_rfl, by simp⟩
  | seq hs ht hq ihs iht => exact (ihs k a).bind (iht _) hq
  | @last s p q hs ih =>
    rw [Shape.run, show Shape.run lib deeper (k + s.strings.length) .skip = .pure from rfl, Result.bind_pure]
    exact ih k a
  | @circuit d s hs ih =>
    have hrest : ∀ b : Act,
        (b.pop fun w b => .pure (b.push (Machine.ofBool (w ≠ 0)))).Straight 1 1 b.stack := fun b =>
      .pop fun w b => .pure .push
    refine .pop fun v b => ?_
    split
    · exact .pure .push
    · exact (ih k b).bind hrest (by simp)
  | @call f hf => exact a.enter_straight (hgo _ (hlib f hf) _)

theorem Even.run (hlib : ∀ f, known f → Even lib known loud (lib.routine f).body 0)
    (hgo : ∀ s, Even lib known loud s 0 → ∀ k a, (deeper k s a).Even 0 a.stack) (h : Even lib known loud s p) (k : Nat)
    (a : Act) (ha : 0 < p → a.stack ≠ []) : (s.run lib deeper k a).Even p a.stack := by
  induction h generalizing k a with
  | straight hs => exact (hs.run hlib hgo k a).even
  | drop _ hs =>
    refine (hs.run hlib hgo k a).bind_even fun b _ => ⟨by simp [Result.event], ?_, by rintro _ ⟨⟩⟩
    rintro c ⟨⟩
    exact .left
  | ret =>
    refine ⟨?_, by simp [Shape.run], by rintro _ ⟨⟩⟩
    rintro v rest ⟨⟩
    obtain ⟨v, rest, hstack⟩ := exists_cons_of_ne_nil (ha Nat.one_pos)
    rw [hstack]
    exact ⟨rfl, suffix_cons v rest, by simp⟩
  | branch hs ht ihs iht =>
    refine .pop fun v b => ?_
    split
    · exact ihs k b (by simp)
    · exact iht _ b (by simp)
  | @loop s t hs ht iht =>
    refine (hs.run hlib hgo k a).bind_even fun b _ => .pop fun v c => ?_
    split
    · exact (iht _ c (by simp)).bind (hgo _ (.loop hs ht) k)
    · exact (Result.Straight.pure .refl).even
  | seq hs ht ihs iht => exact (ihs k a (by simp)).bind fun b => iht _ b (by simp)
  | after hs ht iht => exact (hs.run hlib hgo k a).bind_even (iht _)

/-- What code does to the operand stack, however long it runs. -/
theorem Even.exec (hlib : ∀ f, known f → Even lib known loud (lib.routine f).body 0) (n : Nat) :
    ∀ s, Even lib known loud s 0 → ∀ k a, (s.exec lib n k a).Even 0 a.stack := by
  induction n with
  | zero => exact fun s _ k a => ⟨by rintro _ _ ⟨⟩, by rintro _ ⟨⟩, by rintro _ ⟨⟩⟩
  | succ n ih => exact fun s hs k a => hs.run hlib ih k a (by simp)

end Shape

/-! ### Accepted programs -/

/-- Calls pass as many arguments as the functions take. -/
structure View.Arities (v : View) (table : Typing.Signatures) (lib : Library) (known : String → Prop) : Prop where
  user : ∀ f, v.known f = true → known f ∧ builtinArity f = none ∧
    ∀ sig, table.lookup f = some sig → (lib.routine f).arity = sig.params.length
  builtin : ∀ f n sig, builtinArity f = some n → table.lookup f = some sig → sig.params.length = n

section Typed

variable {v : View} {table : Typing.Signatures} {scope : Typing.Scope} {lib : Library} {known : String → Prop}

theorem Shape.Straight.cast {s : Shape} {p q p' q' : Nat} (h : s.Straight lib known p q) (hp : p = p') (hq : q = q') :
    s.Straight lib known p' q' := hp ▸ hq ▸ h

theorem Shape.Straight.push (n : Int) : (Shape.push n).Straight lib known 0 1 := .instr rfl

theorem Shape.Straight.operand {s t : Shape} {p q : Nat} (hs : s.Straight lib known 0 1)
    (ht : t.Straight lib known (p + 1) q) : (Shape.seq s t).Straight lib known p q :=
  (Straight.seq hs ht (by omega)).cast (by omega) (by omega)

theorem Shape.Straight.arguments {f : String} (hf : known f) {as : List Shape}
    (has : ∀ a ∈ as, a.Straight lib known 0 1) (hlen : as.length ≤ (lib.routine f).arity) :
    (as.foldr Shape.seq (.call f)).Straight lib known ((lib.routine f).arity - as.length) 1 := by
  induction as with
  | nil => exact .call hf
  | cons a as ih =>
    rw [length_cons] at hlen ⊢
    have hrest := ih (fun b hb => has b (by simp [hb])) (by omega)
    exact .operand (has a (by simp)) (hrest.cast (by omega) rfl)

variable {base : Option Nat} {as : List Shape} {e : Expr Note} {t : Ty}

/-- A property of code that takes `p` operands and leaves `q`, which is handed on from the arguments of built-in
functions to calls of them. -/
structure View.Composes (P : Nat → Nat → Shape → Prop) : Prop where
  push : ∀ n, P 0 1 (.push n)
  operand : ∀ {p q s t}, P 0 1 s → P (p + 1) q t → P p q (.seq s t)
  seq : ∀ {p q r s t}, P p r s → P r q t → P p q (.seq s t)
  compute : ∀ i : Instr, i.op ∈ [.add, .sub, .mul, .cmpEq, .loadIndirect, .loadLocalIdx] →
    P i.op.effect.1 1 (.instr i)
  element : ∀ base : Nat, P 2 0 (.instr ⟨.storeLocalIdx, some (base : Int)⟩)

theorem View.Composes.builtin {P : Nat → Nat → Shape → Prop} (h : Composes P) {f : String}
    (hblock : f ∈ ["store16", "memcpy", "memset"] → ∀ o ∈ [Op.storeIndirect, .memcpyLocals, .memsetLocals],
      P o.effect.1 0 (.op o))
    (hf : builtinArity f = some as.length) (has : ∀ a ∈ as, P 0 1 a) : P 0 1 (v.call f base as) := by
  -- The number of arguments is the right one, so they can be named.
  have three : some 3 = some as.length → ∃ a b c, as = [a, b, c] := fun h =>
    length_eq_three.1 (Option.some.inj h).symm
  have two : some 2 = some as.length → ∃ a b, as = [a, b] := fun h => length_eq_two.1 (Option.some.inj h).symm
  have one : some 1 = some as.length → ∃ a, as = [a] := fun h => length_eq_one_iff.1 (Option.some.inj h).symm
  have hadd : P 2 1 (.op .add) := h.compute ⟨.add, none⟩ (by simp)
  have hsub : P 2 1 (.op .sub) := h.compute ⟨.sub, none⟩ (by simp)
  unfold builtinArity at hf
  split at hf
  · obtain ⟨a, n, x, rfl⟩ := three hf
    have hn := has n (by simp)
    have hnext : P 0 1 (.seq n (.seq (.push 1) (.op .add))) := h.operand hn (h.operand (h.push 1) hadd)
    cases base with
    | none => exact hnext
    | some base => exact h.operand (has x (by simp)) (h.operand hn (h.seq (h.element base) hnext))
  · obtain ⟨a, b, c, rfl⟩ := three hf
    have hcopy : P 3 1 (.seq (.op .memcpyLocals) (.push 0)) :=
      h.seq (hblock (by simp) .memcpyLocals (by simp)) (h.push 0)
    exact h.operand (has a (by simp)) (h.operand (has b (by simp)) (h.operand (has c (by simp)) hcopy))
  · obtain ⟨a, b, c, rfl⟩ := three hf
    have hfill : P 3 1 (.seq (.op .memsetLocals) (.push 0)) :=
      h.seq (hblock (by simp) .memsetLocals (by simp)) (h.push 0)
    exact h.operand (has a (by simp)) (h.operand (has b (by simp)) (h.operand (has c (by simp)) hfill))
  · obtain ⟨m, x, y, rfl⟩ := three hf
    have hy := has y (by simp)
    have hscaled : P 2 1 (.seq (.op .mul) (.seq y (.op .add))) :=
      h.seq (h.compute ⟨.mul, none⟩ (by simp)) (h.operand hy hadd)
    exact h.operand (has x (by simp)) (h.operand hy (h.seq hsub (h.operand (has m (by simp)) hscaled)))
  · obtain ⟨a, n, rfl⟩ := two hf
    cases base with
    | none => exact h.push 0
    | some base =>
      have hload : P 1 1 (.instr ⟨.loadLocalIdx, some base⟩) := h.compute ⟨.loadLocalIdx, _⟩ (by simp)
      exact h.operand (has n (by simp)) (h.operand (h.push 1) (h.seq hsub hload))
  · obtain ⟨a, b, rfl⟩ := two hf
    have hstore : P 2 1 (.seq (.op .storeIndirect) (.push 0)) :=
      h.seq (hblock (by simp) .storeIndirect (by simp)) (h.push 0)
    exact h.operand (has a (by simp)) (h.operand (has b (by simp)) hstore)
  · obtain ⟨a, b, rfl⟩ := two hf
    exact h.operand (has a (by simp)) (h.operand (has b (by simp)) (h.compute ⟨.cmpEq, none⟩ (by simp)))
  · obtain ⟨a, rfl⟩ := one hf
    exact h.operand (has a (by simp)) (h.compute ⟨.loadIndirect, none⟩ (by simp))
  · cases hf

theorem Shape.Straight.composes : View.Composes fun p q s => s.Straight lib known p q where
  push := .push
  operand := .operand
  seq hs ht := (Straight.seq hs ht (by omega)).cast (by omega) (by omega)
  compute i hi := by
    have hall : ∀ o ∈ [Op.add, .sub, .mul, .cmpEq, .loadIndirect, .loadLocalIdx], o.isPlain = true ∧ o.effect.2 = 1 := by
      decide
    exact (Straight.instr (hall _ hi).1).cast rfl (hall _ hi).2
  element _ := .instr rfl

theorem View.builtin_straight {f : String} (hf : builtinArity f = some as.length)
    (has : ∀ a ∈ as, a.Straight lib known 0 1) : (v.call f base as).Straight lib known 0 1 := by
  refine Shape.Straight.composes.builtin (fun _ o ho => ?_) hf has
  have hall : ∀ o ∈ [Op.storeIndirect, .memcpyLocals, .memsetLocals], o.isPlain = true ∧ o.effect.2 = 0 := by decide
  exact (Shape.Straight.instr (hall o ho).1).cast rfl (hall o ho).2

theorem View.call_straight (h : v.Arities table lib known) {f : String} {sig : Typing.Signature}
    (has : ∀ a ∈ as, a.Straight lib known 0 1) (hf : table.lookup f = some sig) (hlen : as.length = sig.params.length) :
    (v.call f base as).Straight lib known 0 1 := by
  cases hb : builtinArity f with
  | none =>
    rw [call_user (by simp [hb])]
    split
    · rename_i hknown
      obtain ⟨hk, -, harity⟩ := h.user f hknown
      have hargs := Shape.Straight.arguments hk has (le_of_eq (hlen.trans (harity sig hf).symm))
      exact hargs.cast (by rw [harity sig hf]; omega) rfl
    · exact .instr rfl
  | some n =>
    rw [h.builtin f n sig hb hf] at hlen
    exact builtin_straight (by rw [hb, hlen]) has

/-- The code of a typed expression takes nothing from the stack and leaves one value. -/
theorem View.expr_straight (h : v.Arities table lib known) (he : Typing.HasType table scope e t)
    (hvalued : e.valued = true) : (v.expr e).Straight lib known 0 1 := by
  induction he with
  | lit value =>
    cases value with
    | none => cases hvalued
    | int | bool => exact .push _
    | str s => exact .text
  | var hx =>
    rw [expr]
    split
    · exact .instr rfl
    · exact .push 0
  | @unary op e t u he hop ih =>
    have he' := ih hvalued
    cases op with
    | neg | not => exact .operand he' (.last (.instr rfl))
    | other text => simp [Typing.unaryType] at hop
  | @binary op l r t t' u hl hr hop ihl ihr =>
    rw [Expr.valued, Bool.and_eq_true] at hvalued
    have hl' := ihl hvalued.1
    have hr' := ihr hvalued.2
    cases op with
    | and | or => exact .operand hl' (.circuit hr')
    | other text => cases hop
    | _ => exact .operand hl' (.operand hr' (.last (.instr rfl)))
  | index ha ht hi iha ihi =>
    rw [Expr.valued, Bool.and_eq_true] at hvalued
    rw [expr]
    split
    · exact .operand (ihi hvalued.2) (.instr rfl)
    · exact .push 0
  | addrVar hx => exact .push _
  | addrIndex ha ht hi iha ihi =>
    rw [Expr.valued, Expr.valued, Bool.and_eq_true] at hvalued
    rw [expr]
    split
    · exact .operand (ihi hvalued.2) (.operand (.push _) (.instr rfl))
    · exact .push 0
  | push ha ht hn hv iha ihn ihv =>
    simp only [Expr.valued, Expr.allValued, Bool.and_eq_true] at hvalued
    refine builtin_straight rfl ?_
    simp only [args, mem_cons, not_mem_nil, or_false]
    rintro s (rfl | rfl | rfl)
    · exact iha hvalued.1
    · exact ihn hvalued.2.1
    · exact ihv hvalued.2.2.1
  | pop ha ht hn iha ihn =>
    simp only [Expr.valued, Expr.allValued, Bool.and_eq_true] at hvalued
    refine builtin_straight rfl ?_
    simp only [args, mem_cons, not_mem_nil, or_false]
    rintro s (rfl | rfl)
    · exact iha hvalued.1
    · exact ihn hvalued.2.1
  | @call f args sig hpush hpop hf hlen hargs ih =>
    rw [Expr.valued, Expr.allValued_eq, all_eq_true] at hvalued
    refine call_straight h ?_ hf (by rw [args_eq_map, length_map, hlen])
    rw [args_eq_map]
    intro s hs
    obtain ⟨a, ha, rfl⟩ := mem_map.1 hs
    obtain ⟨t, ht⟩ := exists_mem_zip hlen ha
    exact ih a t ht (hvalued a ha)

theorem Shape.Straight.zeros (cell : Nat → Int) (ks : List Nat) : (Shape.plain (ks.flatMap fun k =>
    [⟨.pushInt, some 0⟩, ⟨.storeLocal, some (cell k)⟩])).Straight lib known 0 0 := by
  induction ks with
  | nil => exact .skip
  | cons k ks ih =>
    have hstore : (Shape.instr ⟨.storeLocal, some (cell k)⟩).Straight lib known 1 0 := .instr rfl
    exact .operand (.push 0) (.seq hstore ih (by simp))

theorem View.decl_straight {x : String} {init : Option (Expr Note)}
    (hinit : ∀ e, init = some e → (v.expr e).Straight lib known 0 1) : (v.decl x init).Straight lib known 0 0 := by
  unfold decl
  split
  · exact .zeros (fun k => ((v.slots.cell? x).getD 0 + k : Nat)) _
  · refine .operand ?_ (.instr rfl)
    cases init with
    | none => exact .push 0
    | some e => exact hinit e rfl

theorem printOp_effect (newline : Bool) (t : Ty) :
    (printOp newline t).isPlain = true ∧ (printOp newline t).effect = (1, 0) := by
  unfold printOp
  split <;> exact ⟨rfl, rfl⟩

theorem View.print_straight (h : v.Arities table lib known) {newline : Bool} (he : Typing.HasType table scope e t)
    (hvalued : e.valued = true) : (v.print newline e).Straight lib known 0 0 := by
  unfold print
  split
  · exact .say
  · rw [he.note_eq]
    obtain ⟨hplain, heffect⟩ := printOp_effect newline t
    have hprint : (Shape.op (printOp newline t)).Straight lib known 1 0 :=
      (Shape.Straight.instr hplain).cast (by rw [heffect]) (by rw [heffect])
    exact .operand (expr_straight h he hvalued) hprint

/-- Statements of a source text without machine instructions; unless `loud` holds, no expression is a statement. -/
structure Ordinary (loud : Bool) (ss : List (Stmt Note)) : Prop where
  valued : Stmt.allValued ss = true
  free : Stmt.allInlineFree ss = true
  quiet : (loud || Stmt.allQuiet ss) = true

namespace Ordinary

variable {loud : Bool} {s : Stmt Note} {ss : List (Stmt Note)}

theorem uncons (h : Ordinary loud (s :: ss)) :
    (s.valued = true ∧ s.inlineFree = true ∧ (loud || s.quiet) = true) ∧ Ordinary loud ss := by
  obtain ⟨hvalued, hfree, hquiet⟩ := h
  rw [Stmt.allValued, Bool.and_eq_true] at hvalued
  rw [Stmt.allInlineFree, Bool.and_eq_true] at hfree
  rw [Stmt.allQuiet, Bool.or_and_distrib_left, Bool.and_eq_true] at hquiet
  exact ⟨⟨hvalued.1, hfree.1, hquiet.1⟩, hvalued.2, hfree.2, hquiet.2⟩

end Ordinary

/-- Checked statements leave the stack as high as it was, but for the values of expression statements. -/
theorem View.stmts_even {loud : Bool} (h : v.Arities table lib known) {ss : List (Stmt Note)}
    (hss : Typing.Checked table scope ss) (ho : Ordinary loud ss) : (v.stmts ss).Even lib known loud 0 := by
  induction hss with
  | nil => exact .straight .skip
  | expr he hs ih =>
    obtain ⟨hvalued, -, hquiet⟩ := ho.uncons.1
    have hloud : loud = true := by simpa [Stmt.quiet] using hquiet
    exact .seq (.drop hloud (expr_straight h he hvalued)) (ih ho.uncons.2)
  | @decl scope scope' x written init t ss ht hx hs ih =>
    refine .seq (.straight (decl_straight ?_)) (ih ho.uncons.2)
    rintro e rfl
    exact expr_straight h (ht.1 e rfl) ho.uncons.1.1
  | @assignVar scope x e t ss hx he hs ih =>
    have hvalued := ho.uncons.1.1
    rw [Stmt.valued, Bool.and_eq_true] at hvalued
    refine .seq (.straight ?_) (ih ho.uncons.2)
    rw [stmt, assign]
    split
    · exact .operand (expr_straight h he hvalued.2) (.instr rfl)
    · exact .skip
  | @assignIndex scope a i e t ss ha ht hi he hs ih =>
    have hvalued := ho.uncons.1.1
    rw [Stmt.valued, Expr.valued, Bool.and_eq_true, Bool.and_eq_true] at hvalued
    refine .seq (.straight ?_) (ih ho.uncons.2)
    rw [stmt, assign]
    split
    · exact .operand (expr_straight h he hvalued.2) (.operand (expr_straight h hi hvalued.1.2) (.instr rfl))
    · exact .skip
  | print he ht hs ih => exact .seq (.straight (print_straight h he ho.uncons.1.1)) (ih ho.uncons.2)
  | @ret scope value ss he hs ih =>
    refine .seq ?_ (ih ho.uncons.2)
    cases value with
    | none => exact .after (.push 0) .ret
    | some e =>
      obtain ⟨t, ht⟩ := he e rfl
      exact .after (expr_straight h ht ho.uncons.1.1) .ret
  | asm hs ih | block hs ih => exact .seq (.straight .skip) (ih ho.uncons.2)
  | vmAsm hs ih => exact absurd ho.uncons.1.2.1 Bool.false_ne_true
  | @cond scope test yes no t ss he hyes hno hs ihy ihn ih =>
    obtain ⟨hvalued, hfree, hquiet⟩ := ho.uncons.1
    cases no with
    | none =>
      rw [Stmt.valued, Bool.and_eq_true] at hvalued
      refine .seq (.after (expr_straight h he hvalued.1) (.branch ?_ (.straight .skip))) (ih ho.uncons.2)
      exact ihy ⟨hvalued.2, hfree, hquiet⟩
    | some no =>
      rw [Stmt.valued, Bool.and_eq_true, Bool.and_eq_true] at hvalued
      rw [Stmt.inlineFree, Bool.and_eq_true] at hfree
      rw [Stmt.quiet, Bool.or_and_distrib_left, Bool.and_eq_true] at hquiet
      refine .seq (.after (expr_straight h he hvalued.1.1) (.branch ?_ ?_)) (ih ho.uncons.2)
      · exact ihy ⟨hvalued.1.2, hfree.1, hquiet.1⟩
      · exact ihn no rfl ⟨hvalued.2, hfree.2, hquiet.2⟩
  | loop he hbody hs ihb ih =>
    obtain ⟨hvalued, hfree, hquiet⟩ := ho.uncons.1
    rw [Stmt.valued, Bool.and_eq_true] at hvalued
    exact .seq (.loop (expr_straight h he hvalued.1) (ihb ⟨hvalued.2, hfree, hquiet⟩)) (ih ho.uncons.2)

end Typed

end Workbench.Bytecode
