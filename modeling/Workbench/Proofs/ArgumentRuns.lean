import Mathlib.Data.List.Nodup
import Mathlib.Data.List.Perm.Subperm
import Mathlib.Tactic.IntervalCases
import Workbench.Proofs.CallFree
import Workbench.Proofs.Isolation

/-!
# How often arguments are evaluated

The code of an expression goes forward: it does not return, and its jumps lead on, at most to its end
(`expr_forward`). So the call that it belongs to carries out each of its instructions at most once on the way through
(`Proceeds.ordered`), whatever the functions do that it calls, and cannot leave out a part of the code that others
follow (`Proceeds.split`).

The code of a built-in function is a list of parts, its arguments and plain instructions, and an argument is evaluated
as often as it is one of them. For most arguments that is once. `ct_select` has its third argument twice among its
parts, and so has `array_push` its second one. For a name that is not laid out as an array, `array_push` leaves out its
third argument and `array_pop` its second one.
-/

open List

namespace Workbench

namespace Machine

/-! ### Code that goes forward -/

/-- From `lo` to `hi` the code does not return, and its jumps go forward, at most to `stop`. -/
def Image.Forward (img : Image) (lo hi stop : Nat) : Prop :=
  ∀ pc : Nat, lo ≤ pc → pc < hi → ∃ i, img.code[pc]? = some i ∧ i.op ≠ .ret ∧
    ∀ target, i.arg = some target → i.op = .jmp ∨ i.op = .jz ∨ i.op = .jnz → pc < target ∧ target ≤ stop

namespace Image.Forward

variable {img : Image} {lo mid hi stop stop' pc : Nat}

theorem nil : img.Forward pc pc stop := fun _ hlo hhi => absurd hlo (not_le.2 hhi)

theorem append (h : img.Forward lo mid stop) (h' : img.Forward mid hi stop) : img.Forward lo hi stop := by
  intro pc hlo hhi
  rcases Nat.lt_or_ge pc mid with hmid | hmid
  · exact h pc hlo hmid
  · exact h' pc hmid hhi

theorem mono (h : img.Forward lo hi stop) (hstop : stop ≤ stop') : img.Forward lo hi stop' := by
  intro pc hlo hhi
  obtain ⟨i, hi, hret, hjump⟩ := h pc hlo hhi
  refine ⟨i, hi, hret, fun target harg hop => ?_⟩
  have htarget := hjump target harg hop
  exact ⟨htarget.1, by omega⟩

theorem ofPlain {i : Instr} (hi : img.code[pc]? = some i) (hop : i.op.isPlain = true ∨ i.op = .call) :
    img.Forward pc (pc + 1) stop := by
  intro pc' hlo hhi
  obtain rfl : pc' = pc := by omega
  refine ⟨i, hi, ?_, fun _ _ hjump => ?_⟩
  · rintro hret
    rw [hret] at hop
    rcases hop with hop | hop <;> cases hop
  · rcases hjump with hjump | hjump | hjump <;> rw [hjump] at hop <;> rcases hop with hop | hop <;> cases hop

theorem ofJump {op : Op} {target : Nat} (hi : img.code[pc]? = some ⟨op, some (target : Int)⟩) (hop : op ≠ .ret)
    (hlt : pc < target) (hle : target ≤ stop) : img.Forward pc (pc + 1) stop := by
  intro pc' hlo hhi
  obtain rfl : pc' = pc := by omega
  refine ⟨_, hi, hop, fun t ht _ => ?_⟩
  obtain rfl : target = t := Option.some.inj ht
  exact ⟨by omega, by omega⟩

end Image.Forward

/-! ### Where a call is -/

/-- The call above the callers `base` is at `k`: it is there itself, or will be when what it calls returns. -/
def State.IsAt (base : List Frame) (k : Int) (s : State) : Prop := ∃ cells, ⟨k, cells⟩ :: base <:+ s.frames

section IsAt

variable {img : Image} {base : List Frame} {s t : State} {o : Option String} {k : Int}

theorem State.isAt_self (hcalls : s.calls = base) : s.IsAt base s.pc :=
  ⟨s.locals, by rw [← hcalls]; exact suffix_rfl⟩

theorem not_deeper {fr : Frame} (hcalls : s.calls = base) : ¬ fr :: base <:+ s.calls := by
  intro hfr
  have hle := hfr.length_le
  rw [hcalls, length_cons] at hle
  omega

theorem State.IsAt.eq_pc (h : s.IsAt base k) (hcalls : s.calls = base) : k = s.pc := by
  obtain ⟨cells, hcells⟩ := h
  rw [State.frames, suffix_cons_iff] at hcells
  rcases hcells with heq | hdeeper
  · exact congrArg Frame.pc (cons.inj heq).1
  · exact absurd hdeeper (not_deeper hcalls)

/-- A call that waits for another one is still where it was after a step of that one. -/
theorem step_deeper {fr : Frame} (hfr : fr :: base <:+ s.calls) (hs : step img s = .next t o) :
    fr :: base <:+ t.frames := by
  rcases step_calls hs with hkeep | ⟨fr', hpush⟩ | ⟨-, hframes⟩
  · rw [State.frames, hkeep]
    exact hfr.trans (suffix_cons _ _)
  · rw [State.frames, hpush]
    exact (hfr.trans (suffix_cons _ _)).trans (suffix_cons _ _)
  · rwa [hframes]

theorem State.IsAt.deeper {fr : Frame} (h : s.IsAt base k) (hfr : fr :: base <:+ s.calls)
    (hs : step img s = .next t o) : t.IsAt base k := by
  obtain ⟨cells, hcells⟩ := h
  refine ⟨cells, step_deeper ?_ hs⟩
  rw [State.frames, suffix_cons_iff] at hcells
  rcases hcells with heq | hdeeper
  · obtain rfl : base = s.calls := (cons.inj heq).2
    exact absurd hfr (not_deeper rfl)
  · exact hdeeper

theorem Image.Forward.step {lo stop : Nat} (h : img.Forward lo stop stop) (hcalls : s.calls = base) (hlo : lo ≤ s.pc)
    (hstop : s.pc < stop) (hs : step img s = .next t o) : ∃ k, t.IsAt base k ∧ s.pc < k ∧ k ≤ stop := by
  obtain ⟨pc, hpc⟩ : ∃ pc : Nat, s.pc = pc := ⟨s.pc.toNat, by omega⟩
  obtain ⟨i, hi, hret, hjump⟩ := h pc (by omega) (by omega)
  have hfetch : img.fetch s.pc = .ok i := by
    rw [hpc]
    exact Image.fetch_of_code hi
  by_cases hcall : i.op = .call
  · obtain ⟨-, -, f, cells, -, -, -, -, hframes⟩ := frames_call hfetch hs hcall
    refine ⟨s.pc + 1, ⟨s.locals, ?_⟩, by omega, by omega⟩
    rw [hframes, ← hcalls]
    exact suffix_cons _ _
  · obtain ⟨fr, hframes, -, hnext⟩ := frames_other hfetch hs hcall hret
    have hat : t.IsAt base fr.pc := ⟨fr.locals, by rw [hframes, hcalls]⟩
    rcases hnext with ⟨hpc', -⟩ | ⟨harg, hop⟩
    · exact ⟨fr.pc, hat, by omega, by omega⟩
    · have htarget := hjump fr.pc harg hop
      exact ⟨fr.pc, hat, by omega, htarget.2⟩

end IsAt

/-! ### What a call carries out -/

/-- The call above the callers `base` goes on from `s` to `t`, and does not arrive at `stop` before `t`. The
instructions that it carries out itself are at `pcs`, in this order, and `out` is printed by them and by what they
call. -/
inductive Proceeds (img : Image) (base : List Frame) (stop : Int) : List Int → List String → State → State → Prop
  | refl {s : State} : Proceeds img base stop [] [] s s
  | own {pcs : List Int} {out : List String} {o : Option String} {s s' t : State} (hcalls : s.calls = base)
      (hpc : s.pc ≠ stop) (hs : step img s = .next s' o) (ht : Proceeds img base stop pcs out s' t) :
      Proceeds img base stop (s.pc :: pcs) (o.toList ++ out) s t
  | deeper {pcs : List Int} {out : List String} {o : Option String} {s s' t : State} {fr : Frame}
      (hcalls : fr :: base <:+ s.calls) (hs : step img s = .next s' o) (ht : Proceeds img base stop pcs out s' t) :
      Proceeds img base stop pcs (o.toList ++ out) s t

def State.Arrived (base : List Frame) (stop : Int) (s : State) : Prop := s.calls = base ∧ s.pc = stop

namespace Proceeds

variable {img : Image} {base : List Frame} {lo mid stop : Nat} {pcs : List Int} {out : List String} {s t : State}
  {k : Int}

theorem of_arrived {stop : Int} (h : Proceeds img base stop pcs out s t) (hs : s.Arrived base stop) :
    pcs = [] ∧ out = [] ∧ s = t := by
  cases h with
  | refl => exact ⟨rfl, rfl, rfl⟩
  | own _ hpc => exact absurd hs.2 hpc
  | deeper hcalls => exact absurd hcalls (not_deeper hs.1)

theorem pc_mem {stop : Int} (h : Proceeds img base stop pcs out s t) (hcalls : s.calls = base) (hpc : s.pc ≠ stop)
    (ht : t.Arrived base stop) : s.pc ∈ pcs := by
  cases h with
  | refl => exact absurd ht.2 hpc
  | own => exact mem_cons_self
  | deeper hdeeper => exact absurd hdeeper (not_deeper hcalls)

/-- In code that goes forward a call carries out its instructions in the order in which they stand. -/
theorem ordered (h : Proceeds img base stop pcs out s t) (hf : img.Forward lo stop stop) (hat : s.IsAt base k)
    (hlo : lo ≤ k) (hstop : k ≤ stop) : pcs.Pairwise (· < ·) ∧ ∀ a ∈ pcs, k ≤ a := by
  induction h generalizing k with
  | refl => exact ⟨.nil, by simp⟩
  | @own pcs _ _ s _ _ hcalls hpc hs _ ih =>
    obtain rfl := hat.eq_pc hcalls
    obtain ⟨k', hat', hlt, hle⟩ := hf.step hcalls hlo (by omega) hs
    obtain ⟨hordered, hbound⟩ := ih hat' (by omega) hle
    have hlater : ∀ a ∈ pcs, s.pc < a := fun a ha => Int.lt_of_lt_of_le hlt (hbound a ha)
    exact ⟨pairwise_cons.2 ⟨hlater, hordered⟩,
      forall_mem_cons.2 ⟨Int.le_refl _, fun a ha => Int.le_of_lt (hlater a ha)⟩⟩
  | deeper hcalls hs _ ih => exact ih (hat.deeper hcalls hs) hlo hstop

/-- A call that goes through code goes through its first part, and then through the rest. -/
theorem split (h : Proceeds img base stop pcs out s t) (hf : img.Forward lo mid mid) (hmid : mid ≤ stop)
    (ht : t.Arrived base stop) (hat : s.IsAt base k) (hlo : lo ≤ k) (hle : k ≤ mid) :
    ∃ u pcs₁ pcs₂ out₁ out₂, Proceeds img base mid pcs₁ out₁ s u ∧ u.Arrived base mid ∧
      Proceeds img base stop pcs₂ out₂ u t ∧ pcs = pcs₁ ++ pcs₂ ∧ out = out₁ ++ out₂ := by
  induction h generalizing k with
  | @refl s =>
    have hk := hat.eq_pc ht.1
    have hpc := ht.2
    exact ⟨s, [], [], [], [], .refl, ⟨ht.1, by omega⟩, .refl, rfl, rfl⟩
  | @own pcs out o s s' t hcalls hpc hs hrest ih =>
    obtain rfl := hat.eq_pc hcalls
    by_cases harrived : s.pc = mid
    · exact ⟨s, [], s.pc :: pcs, [], o.toList ++ out, .refl, ⟨hcalls, harrived⟩, .own hcalls hpc hs hrest, rfl, rfl⟩
    · obtain ⟨k', hat', hlt, hle'⟩ := hf.step hcalls hlo (by omega) hs
      obtain ⟨u, pcs₁, pcs₂, out₁, out₂, hfirst, hu, hsecond, rfl, rfl⟩ := ih ht hat' (by omega) hle'
      exact ⟨u, s.pc :: pcs₁, pcs₂, o.toList ++ out₁, out₂, .own hcalls harrived hs hfirst, hu, hsecond, rfl,
        (append_assoc ..).symm⟩
  | @deeper pcs out o s s' t fr hcalls hs hrest ih =>
    obtain ⟨u, pcs₁, pcs₂, out₁, out₂, hfirst, hu, hsecond, rfl, rfl⟩ := ih ht (hat.deeper hcalls hs) hlo hle
    exact ⟨u, pcs₁, pcs₂, o.toList ++ out₁, out₂, .deeper hcalls hs hfirst, hu, hsecond, rfl,
      (append_assoc ..).symm⟩

end Proceeds

/-- In code that goes forward the steps of the machine are those of the call and of what it calls, until the call
arrives at the end. -/
theorem Image.Forward.proceeds {img : Image} {base : List Frame} {lo stop : Nat} (hf : img.Forward lo stop stop)
    {n : Nat} : ∀ {s u : State} {k : Int}, s.IsAt base k → lo ≤ k → k ≤ stop → img.after n s = some u →
      ∃ m ≤ n, ∃ v pcs out, img.after m s = some v ∧ Proceeds img base stop pcs out s v ∧
        (m = n ∨ v.Arrived base stop) := by
  induction n with
  | zero =>
    intro s u k _ _ _ _
    exact ⟨0, Nat.le_refl 0, s, [], [], rfl, .refl, .inl rfl⟩
  | succ n ih =>
    intro s u k hat hlo hle hu
    cases hs : Machine.step img s with
    | exit | fault => simp [Image.after, hs] at hu
    | next s' o =>
      have hafter m : img.after (m + 1) s = img.after m s' := by rw [Image.after, hs]
      rw [hafter] at hu
      by_cases hcalls : s.calls = base
      · obtain rfl := hat.eq_pc hcalls
        by_cases harrived : s.pc = stop
        · exact ⟨0, by omega, s, [], [], rfl, .refl, .inr ⟨hcalls, harrived⟩⟩
        · obtain ⟨k', hat', hlt, hle'⟩ := hf.step hcalls hlo (by omega) hs
          obtain ⟨m, hm, v, pcs, out, hv, hgoes, hend⟩ := ih hat' (by omega) hle' hu
          exact ⟨m + 1, by omega, v, s.pc :: pcs, o.toList ++ out, by rw [hafter, hv], .own hcalls harrived hs hgoes,
            hend.imp (by omega) id⟩
      · obtain ⟨cells, hcells⟩ := id hat
        rw [State.frames, suffix_cons_iff] at hcells
        rcases hcells with heq | hdeeper
        · exact absurd (cons.inj heq).2.symm hcalls
        · obtain ⟨m, hm, v, pcs, out, hv, hgoes, hend⟩ := ih (hat.deeper hdeeper hs) hlo hle hu
          exact ⟨m + 1, by omega, v, pcs, o.toList ++ out, by rw [hafter, hv], .deeper hdeeper hs hgoes,
            hend.imp (by omega) id⟩

end Machine

namespace Bytecode

open Machine (Instr Op Image Frame State Proceeds)
open Typing (Note Signatures Scope HasType)

/-! ### Expressions go forward -/

def Shape.GoesForward (number : String → Nat) (s : Shape) : Prop :=
  ∀ (img : Image) (pc k : Nat), img.Has pc (s.codeAt number pc k) →
    img.Forward pc (pc + (s.codeAt number pc k).length) (pc + (s.codeAt number pc k).length)

section Forward

variable {number : String → Nat} {a b : Shape}

theorem Shape.GoesForward.seq (ha : a.GoesForward number) (hb : b.GoesForward number) :
    (Shape.seq a b).GoesForward number := by
  intro img pc k h
  rw [Shape.codeAt_seq] at h ⊢
  rw [length_append, ← Nat.add_assoc]
  exact ((ha img pc k h.left).mono (Nat.le_add_right _ _)).append (hb img _ _ h.right)

theorem Shape.GoesForward.circuit (d : Bool) (ha : a.GoesForward number) : (Shape.circuit d a).GoesForward number := by
  intro img pc k h
  rw [Shape.codeAt_circuit] at h ⊢
  have hjump : Shape.jumpOn d ≠ .ret := by cases d <;> simp [Shape.jumpOn]
  generalize hlen : (Shape.codeAt number (pc + 1) k a).length = len at h
  generalize hstop : pc + (_ :: (Shape.codeAt number (pc + 1) k a ++ _)).length = stop
  simp only [length_cons, length_append, length_nil] at hstop
  obtain rfl : stop = pc + 1 + len + 1 + 1 + 1 + 1 := by omega
  have hright := h.tail.right
  rw [hlen] at hright
  have hoperand := ha img (pc + 1) k h.tail.left
  rw [hlen] at hoperand
  refine .append (.ofJump h.head hjump (by omega) (by omega)) (.append (hoperand.mono (by omega)) ?_)
  refine .append (.ofJump hright.head hjump (by omega) (by omega)) (.append (.ofPlain hright.tail.head (.inl rfl)) ?_)
  exact .append (.ofJump hright.tail.tail.head (by simp) (by omega) (by omega))
    (.ofPlain hright.tail.tail.tail.head (.inl rfl))

theorem View.closed_goesForward (v : View) :
    v.Closed (fun i => i.op.isPlain = true) (Shape.GoesForward number) where
  skip := fun _ _ _ _ => .nil
  instr := fun _ hi _ _ _ h => .ofPlain h.head (.inl hi)
  call := fun _ _ _ _ _ h => .ofPlain h.head (.inr rfl)
  seq := fun ha => ha.seq
  circuit := fun ha => ha.circuit _

theorem expr_forward {α : Type} {env : Env} {p : Place} {e : Expr α} {img : Image}
    (h : img.Has p.pc (exprCode env p e).code) :
    img.Forward p.pc (p.after (exprCode env p e)).pc (p.after (exprCode env p e)).pc := by
  rw [exprCode_eq env.numbered] at h ⊢
  exact env.view.closed_goesForward.expr_of_plain (fun _ _ _ _ h => .ofPlain h.head (.inl rfl)) e img p.pc p.string h

end Forward

/-! ### The parts of a call -/

/-- A part of the code of a call of a built-in function: an argument, or an instruction. -/
inductive CallPart where
  | arg (k : Nat)
  | instr (i : Instr)
  deriving DecidableEq

def CallPart.code (env : Env) (args : List (Expr Note)) (p : Place) : CallPart → Piece
  | .arg k => match args[k]? with
    | some a => exprCode env p a
    | none => .ofCode []
  | .instr i => .ofCode [i]

def partsCode (env : Env) (args : List (Expr Note)) : Place → List CallPart → Piece
  | _, [] => .ofCode []
  | p, q :: qs => q.code env args p ++ partsCode env args (p.after (q.code env args p)) qs

/-- The parts of a call of a built-in function; `base` is the first cell of the array that is its first argument. -/
def builtinParts : String → Option Nat → List CallPart
  | "array_push", some base => [.arg 2, .arg 1, .instr ⟨.storeLocalIdx, some base⟩, .arg 1, .instr ⟨.pushInt, some 1⟩,
      .instr ⟨.add, none⟩]
  | "array_push", none => [.arg 1, .instr ⟨.pushInt, some 1⟩, .instr ⟨.add, none⟩]
  | "array_pop", some base => [.arg 1, .instr ⟨.pushInt, some 1⟩, .instr ⟨.sub, none⟩,
      .instr ⟨.loadLocalIdx, some base⟩]
  | "array_pop", none => [.instr ⟨.pushInt, some 0⟩]
  | "load16", _ => [.arg 0, .instr ⟨.loadIndirect, none⟩]
  | "store16", _ => [.arg 0, .arg 1, .instr ⟨.storeIndirect, none⟩, .instr ⟨.pushInt, some 0⟩]
  | "memcpy", _ => [.arg 0, .arg 1, .arg 2, .instr ⟨.memcpyLocals, none⟩, .instr ⟨.pushInt, some 0⟩]
  | "memset", _ => [.arg 0, .arg 1, .arg 2, .instr ⟨.memsetLocals, none⟩, .instr ⟨.pushInt, some 0⟩]
  | "ct_eq", _ => [.arg 0, .arg 1, .instr ⟨.cmpEq, none⟩]
  | "ct_select", _ => [.arg 1, .arg 2, .instr ⟨.sub, none⟩, .arg 0, .instr ⟨.mul, none⟩, .arg 2, .instr ⟨.add, none⟩]
  | _, _ => []

/-- How often a call of a built-in function evaluates its argument `k`; `listed` says that its first argument is laid
out as an array. -/
def evaluations : (g : String) → (listed : Bool) → (k : Nat) → Nat
  | "array_push", _, 0 | "array_pop", _, 0 => 0
  | "array_push", true, 1 | "ct_select", _, 2 => 2
  | "array_push", false, 2 | "array_pop", false, 1 => 0
  | _, _, _ => 1

theorem count_builtinParts {g : String} {n k : Nat} (hg : View.builtinArity g = some n) (hk : k < n)
    (base : Option Nat) : (builtinParts g base).count (.arg k) = evaluations g base.isSome k := by
  unfold View.builtinArity at hg
  split at hg <;> cases hg
  all_goals
    cases base <;> interval_cases k <;> rfl

theorem builtinParts_plain {g : String} {base : Option Nat} {i : Instr} (hi : .instr i ∈ builtinParts g base) :
    i.op.isPlain = true := by
  revert hi
  unfold builtinParts
  split <;> simp <;> rintro (rfl | rfl | rfl) <;> rfl

theorem exprCode_parts {env : Env} {p : Place} {note : Note} {g : String} {args : List (Expr Note)}
    (hg : View.builtinArity g = some args.length) : exprCode env p (.call note g args) =
      partsCode env args p (builtinParts g (args.head?.bind env.arrayCell?)) := by
  unfold View.builtinArity at hg
  split at hg
  case h_9 => cases hg
  case h_8 =>
    obtain ⟨x, rfl⟩ := length_eq_one_iff.1 (Option.some.inj hg).symm
    ext1 <;> simp [exprCode, builtinParts, partsCode, CallPart.code]
  case h_5 =>
    obtain ⟨x, n, rfl⟩ := length_eq_two.1 (Option.some.inj hg).symm
    cases hx : env.arrayCell? x <;> ext1 <;> simp [exprCode, builtinParts, partsCode, CallPart.code, hx]
  case h_6 | h_7 =>
    obtain ⟨x, y, rfl⟩ := length_eq_two.1 (Option.some.inj hg).symm
    ext1 <;> simp [exprCode, builtinParts, partsCode, CallPart.code]
  case h_1 =>
    obtain ⟨x, n, y, rfl⟩ := length_eq_three.1 (Option.some.inj hg).symm
    cases hx : env.arrayCell? x <;> ext1 <;>
      simp [exprCode, builtinParts, partsCode, CallPart.code, Place.after_append, Piece.arg, hx]
  all_goals
    obtain ⟨x, y, z, rfl⟩ := length_eq_three.1 (Option.some.inj hg).symm
    ext1 <;> simp [exprCode, builtinParts, partsCode, CallPart.code, Place.after_append, Piece.op]

theorem exists_instr_builtinParts {g : String} {n : Nat} (hg : View.builtinArity g = some n) (base : Option Nat) :
    ∃ i, .instr i ∈ builtinParts g base := by
  unfold View.builtinArity at hg
  split at hg
  case h_9 => cases hg
  all_goals cases base <;> simp [builtinParts]

theorem partsCode_ne_nil {env : Env} {args : List (Expr Note)} {qs : List CallPart} {i : Instr} :
    ∀ {p : Place}, .instr i ∈ qs → (partsCode env args p qs).code ≠ [] := by
  induction qs with
  | nil => simp
  | cons q qs ih =>
    intro p hi
    rcases mem_cons.1 hi with rfl | hi
    · exact cons_ne_nil _ _
    · exact append_ne_nil_of_right_ne_nil _ (ih hi)

/-- The code of an expression with a value is not empty. -/
theorem exprCode_ne_nil {table : Signatures} {scope : Scope} {env : Env} {e : Expr Note} {t : Ty}
    (ht : HasType table scope e t) (hv : e.valued = true) (p : Place) : (exprCode env p e).code ≠ [] := by
  have hcall (a : Note) (f : String) as : (exprCode env p (.call a f as)).code ≠ [] := by
    by_cases hf : View.builtinArity f = some as.length
    · rw [exprCode_parts hf]
      obtain ⟨i, hi⟩ := exists_instr_builtinParts hf (as.head?.bind env.arrayCell?)
      exact partsCode_ne_nil hi
    · rw [exprCode_user hf]
      split
      · exact append_ne_nil_of_right_ne_nil _ (cons_ne_nil _ _)
      · exact cons_ne_nil _ _
  induction ht with
  | lit l =>
    cases l with
    | none => cases hv
    | int | bool | str => exact cons_ne_nil _ _
  | var =>
    rw [exprCode]
    split <;> exact cons_ne_nil _ _
  | unary _ _ ih => exact append_ne_nil_of_left_ne_nil (ih hv) _
  | @binary o _ _ _ _ _ _ _ _ ihl =>
    rw [Expr.valued, Bool.and_eq_true] at hv
    have hleft := ihl hv.1
    cases o <;> simp [exprCode, andCode, orCode, hleft]
  | index | addrIndex =>
    rw [exprCode]
    split
    · exact append_ne_nil_of_right_ne_nil _ (cons_ne_nil _ _)
    · exact cons_ne_nil _ _
  | addrVar => exact cons_ne_nil _ _
  | push | pop | call => exact hcall _ _ _

/-! ### Runs through a call -/

section Parts

variable {img : Image} {base : List Frame} {env : Env} {args : List (Expr Note)} {p : Place} {q : CallPart}
  {qs : List CallPart} {pcs : List Int} {out : List String} {s t : State} {k : Nat}

theorem CallPart.forward (h : img.Has p.pc (q.code env args p).code) (hq : ∀ i, q = .instr i → i.op.isPlain = true) :
    img.Forward p.pc (p.after (q.code env args p)).pc (p.after (q.code env args p)).pc := by
  cases q with
  | instr i => exact .ofPlain h.head (.inl (hq i rfl))
  | arg k =>
    cases hk : args[k]? with
    | none =>
      simp only [CallPart.code, hk]
      exact .nil
    | some a =>
      simp only [CallPart.code, hk] at h ⊢
      exact expr_forward h

/-- The parts are carried out one after the other: the call goes on from the start of each one until it arrives at the
end of it. -/
inductive Carried (img : Image) (base : List Frame) (env : Env) (args : List (Expr Note)) :
    Place → List CallPart → List Int → List String → State → State → Prop
  | nil {p : Place} {s : State} : Carried img base env args p [] [] [] s s
  | cons {p : Place} {q : CallPart} {qs : List CallPart} {pcs pcs' : List Int} {out out' : List String} {s u t : State}
      (hpart : Proceeds img base (p.after (q.code env args p)).pc pcs out s u)
      (hu : u.Arrived base (p.after (q.code env args p)).pc)
      (hrest : Carried img base env args (p.after (q.code env args p)) qs pcs' out' u t) :
      Carried img base env args p (q :: qs) (pcs ++ pcs') (out ++ out') s t

/-- A call that goes through the code of parts carries out each of them. -/
theorem Carried.of_proceeds : ∀ {p : Place} {pcs : List Int} {out : List String} {s : State},
    img.Has p.pc (partsCode env args p qs).code → (∀ i, .instr i ∈ qs → i.op.isPlain = true) → s.Arrived base p.pc →
    t.Arrived base (p.after (partsCode env args p qs)).pc →
    Proceeds img base (p.after (partsCode env args p qs)).pc pcs out s t →
    Carried img base env args p qs pcs out s t := by
  induction qs with
  | nil =>
    intro p pcs out s _ _ hs _ h
    obtain ⟨rfl, rfl, rfl⟩ := h.of_arrived hs
    exact .nil
  | cons q qs ih =>
    intro p pcs out s hcode hplain hs ht h
    rw [partsCode, Place.after_append] at ht h
    have hforward := CallPart.forward hcode.left fun i hi => hplain i (by simp [hi])
    have hle : (p.after (q.code env args p)).pc ≤
        ((p.after (q.code env args p)).after (partsCode env args (p.after (q.code env args p)) qs)).pc :=
      Nat.le_add_right _ _
    have hat : s.IsAt base p.pc := hs.2 ▸ State.isAt_self hs.1
    obtain ⟨u, pcs₁, pcs₂, out₁, out₂, hfirst, hu, hsecond, rfl, rfl⟩ :=
      h.split hforward hle ht hat (Int.le_refl _) (by simp)
    exact .cons hfirst hu (ih hcode.right (fun i hi => hplain i (mem_cons_of_mem q hi)) hu ht hsecond)

/-- Where the code of the argument `k` starts, for each time that it is one of the parts. -/
def argStarts (env : Env) (args : List (Expr Note)) (k : Nat) : Place → List CallPart → List Int
  | _, [] => []
  | p, q :: qs => (if q = .arg k then [(p.pc : Int)] else []) ++ argStarts env args k (p.after (q.code env args p)) qs

theorem length_argStarts : (argStarts env args k p qs).length = qs.count (.arg k) := by
  induction qs generalizing p with
  | nil => rfl
  | cons q qs ih =>
    rw [argStarts, length_append, ih, count_cons]
    split <;> simp_all [Nat.add_comm]

theorem argStarts_ordered (hne : ∀ p : Place, (CallPart.code env args p (.arg k)).code ≠ []) : ∀ {p : Place},
    (argStarts env args k p qs).Pairwise (· < ·) ∧ ∀ a ∈ argStarts env args k p qs, (p.pc : Int) ≤ a := by
  induction qs with
  | nil => exact ⟨.nil, by simp [argStarts]⟩
  | cons q qs ih =>
    intro p
    obtain ⟨hordered, hbound⟩ := ih (p := p.after (q.code env args p))
    rw [argStarts]
    rw [Place.after_pc] at hbound
    by_cases hq : q = .arg k
    · subst hq
      have hlen := length_pos_iff.2 (hne p)
      rw [if_pos rfl, singleton_append]
      have hlater : ∀ a ∈ argStarts env args k (p.after _) qs, p.pc < a := fun a ha => by
        have hle := hbound a ha
        omega
      exact ⟨pairwise_cons.2 ⟨hlater, hordered⟩,
        forall_mem_cons.2 ⟨Int.le_refl _, fun a ha => Int.le_of_lt (hlater a ha)⟩⟩
    · rw [if_neg hq, nil_append]
      refine ⟨hordered, fun a ha => ?_⟩
      have hle := hbound a ha
      omega

/-- A call that carries out parts starts each of its arguments. -/
theorem Carried.starts_mem (h : Carried img base env args p qs pcs out s t)
    (hne : ∀ p : Place, (CallPart.code env args p (.arg k)).code ≠ []) :
    s.Arrived base p.pc → ∀ a ∈ argStarts env args k p qs, a ∈ pcs := by
  induction h with
  | nil => simp [argStarts]
  | @cons p q qs pcs pcs' out out' s u t hpart hu _ ih =>
    intro hs a ha
    rw [argStarts, mem_append] at ha
    rcases ha with ha | ha
    · split at ha
      · rename_i hq
        subst hq
        have hlen := length_pos_iff.2 (hne p)
        rw [mem_singleton] at ha
        have hpc : s.pc ≠ (p.after (CallPart.code env args p (.arg k))).pc := by
          rw [hs.2, Place.after_pc]
          omega
        have hmem := hpart.pc_mem hs.1 hpc hu
        rw [hs.2] at hmem
        exact mem_append_left _ (ha ▸ hmem)
      · cases ha
    · exact mem_append_right _ (ih hu a ha)

end Parts

/-- How many of the instructions at `pcs` start an evaluation of the argument `k` of the call, whose code is at `p`. -/
def begun (env : Env) (p : Place) (g : String) (args : List (Expr Note)) (k : Nat) (pcs : List Int) : Nat :=
  pcs.countP fun pc => pc ∈ argStarts env args k p (builtinParts g (args.head?.bind env.arrayCell?))

section Begun

variable {env : Env} {p : Place} {g : String} {args : List (Expr Note)} {k : Nat} {pcs : List Int}

theorem begun_eq_length : begun env p g args k pcs = (pcs.filter fun pc =>
    pc ∈ argStarts env args k p (builtinParts g (args.head?.bind env.arrayCell?))).length :=
  countP_eq_length_filter

theorem begun_le (hg : View.builtinArity g = some args.length) (hk : k < args.length) (hpcs : pcs.Pairwise (· < ·)) :
    begun env p g args k pcs ≤ evaluations g (args.head?.bind env.arrayCell?).isSome k := by
  rw [← count_builtinParts hg hk, ← length_argStarts, begun_eq_length]
  have hnodup : pcs.Nodup := hpcs.imp Int.ne_of_lt
  refine (List.Nodup.subperm (hnodup.filter _) fun a ha => ?_).length_le
  simpa using (mem_filter.1 ha).2

theorem begun_eq (hg : View.builtinArity g = some args.length) (hk : k < args.length) (hpcs : pcs.Pairwise (· < ·))
    (hne : ∀ p : Place, (CallPart.code env args p (.arg k)).code ≠ [])
    (hmem : ∀ a ∈ argStarts env args k p (builtinParts g (args.head?.bind env.arrayCell?)), a ∈ pcs) :
    begun env p g args k pcs = evaluations g (args.head?.bind env.arrayCell?).isSome k := by
  refine Nat.le_antisymm (begun_le hg hk hpcs) ?_
  rw [← count_builtinParts hg hk, ← length_argStarts, begun_eq_length]
  have hnodup : (argStarts env args k p (builtinParts g (args.head?.bind env.arrayCell?))).Nodup :=
    (argStarts_ordered hne).1.imp Int.ne_of_lt
  refine (List.Nodup.subperm hnodup fun a ha => ?_).length_le
  exact mem_filter.2 ⟨hmem a ha, by simpa using ha⟩

end Begun

theorem hasType_of_mem_args {table : Signatures} {scope : Scope} {note : Note} {g : String} {args : List (Expr Note)}
    {t : Ty} (h : HasType table scope (.call note g args) t) : ∀ a ∈ args, ∃ u, HasType table scope a u := by
  cases h with
  | push ha _ hn hv =>
    simp only [forall_mem_cons]
    exact ⟨⟨_, ha⟩, ⟨_, hn⟩, ⟨_, hv⟩, by simp⟩
  | pop ha _ hn =>
    simp only [forall_mem_cons]
    exact ⟨⟨_, ha⟩, ⟨_, hn⟩, by simp⟩
  | call _ _ _ hlen hargs =>
    intro a ha
    obtain ⟨u, hu⟩ := exists_mem_zip hlen ha
    exact ⟨u, hargs a u hu⟩

/-- **How often a built-in function evaluates its arguments.** From the start of its code the machine does nothing but
carry out that code, and what it calls, until it arrives behind it. Each instruction is carried out at most once, in
order, so no more evaluations of an argument start than `evaluations` says, and just as many have started when it
arrives. -/
theorem argument_evaluations {table : Signatures} {scope : Scope} {note : Note} {g : String} {args : List (Expr Note)}
    {t : Ty} (ht : HasType table scope (.call note g args) t) (hv : (Expr.call note g args).valued = true)
    (hg : View.builtinArity g = some args.length) {env : Env} {p : Place} {c : Piece}
    (hc : exprCode env p (.call note g args) = c) {img : Image} (hcode : img.Has p.pc c.code) {s : State}
    (hpc : s.pc = p.pc) :
    (∀ n u, img.after n s = some u → ∃ m ≤ n, ∃ v pcs out, img.after m s = some v ∧
      Proceeds img s.calls (p.after c).pc pcs out s v ∧ (m = n ∨ v.Arrived s.calls (p.after c).pc)) ∧
    ∀ pcs out v, Proceeds img s.calls (p.after c).pc pcs out s v → pcs.Pairwise (· < ·) ∧
      (∀ k < args.length, begun env p g args k pcs ≤ evaluations g (args.head?.bind env.arrayCell?).isSome k) ∧
      (v.Arrived s.calls (p.after c).pc →
        Carried img s.calls env args p (builtinParts g (args.head?.bind env.arrayCell?)) pcs out s v ∧
        ∀ k < args.length, begun env p g args k pcs = evaluations g (args.head?.bind env.arrayCell?).isSome k) := by
  have hstart : s.Arrived s.calls p.pc := ⟨rfl, hpc⟩
  have hat : s.IsAt s.calls p.pc := hpc ▸ State.isAt_self rfl
  have hle : p.pc ≤ (p.after c).pc := Nat.le_add_right _ _
  have hforward : img.Forward p.pc (p.after c).pc (p.after c).pc := by
    subst hc
    exact expr_forward hcode
  refine ⟨fun n u => hforward.proceeds hat (Int.le_refl _) (by omega), fun pcs out v hgoes => ?_⟩
  have hordered := (hgoes.ordered hforward hat (Int.le_refl _) (by omega)).1
  refine ⟨hordered, fun k hk => begun_le hg hk hordered, fun harrived => ?_⟩
  obtain rfl : _ = c := (exprCode_parts hg).symm.trans hc
  have hcarried := Carried.of_proceeds hcode (fun i => builtinParts_plain) hstart harrived hgoes
  refine ⟨hcarried, fun k hk => ?_⟩
  have hne : ∀ p : Place, (CallPart.code env args p (.arg k)).code ≠ [] := by
    intro p
    obtain ⟨u, hu⟩ := hasType_of_mem_args ht args[k] (List.getElem_mem hk)
    have hvalued : args[k].valued = true := by
      rw [Expr.valued, Expr.allValued_eq, List.all_eq_true] at hv
      exact hv _ (List.getElem_mem hk)
    simp only [CallPart.code, List.getElem?_eq_getElem hk]
    exact exprCode_ne_nil hu hvalued p
  exact begun_eq hg hk hordered hne (hcarried.starts_mem hne hstart)

/-- A function that prints gives the length at which a number is pushed. -/
def pushPrinted : String :=
  "fn f(): int \x7b print(1); return 0; \x7d fn main(): int \x7b let a: int[2]; return array_push(a, f(), 5); \x7d"

/-- The code of `pushPrinted`. -/
def pushPrintedImage : Image where
  code := #[⟨.pushInt, some 1⟩, ⟨.printInt, none⟩, ⟨.pushInt, some 0⟩, ⟨.ret, none⟩, ⟨.pushInt, some 0⟩, ⟨.ret, none⟩,
    ⟨.pushInt, some 0⟩, ⟨.storeLocal, some 0⟩, ⟨.pushInt, some 0⟩, ⟨.storeLocal, some 1⟩,
    ⟨.pushInt, some 5⟩, ⟨.call, some 0⟩, ⟨.storeLocalIdx, some 0⟩, ⟨.call, some 0⟩, ⟨.pushInt, some 1⟩, ⟨.add, none⟩,
    ⟨.ret, none⟩, ⟨.pushInt, some 0⟩, ⟨.ret, none⟩]
  functions := #[⟨"f", 0, 0, 0⟩, ⟨"main", 6, 2, 0⟩]
  strings := []

/-- What the generator knows in `main` of `pushPrinted`. -/
def pushPrintedEnv : Env := ⟨{ cells := [("a", 0)], arrays := [("a", 2)], size := 2 }, [("main", 1), ("f", 0)]⟩

/-- The arguments of the call in `pushPrinted`. -/
def pushPrintedArgs : List (Expr Note) :=
  [.var (some (.array "int" 2)) "a", .call (some .int) "f" [], .lit (some .int) (.int 5)]

/-- The code of the call in `pushPrinted`. -/
def pushPrintedCode : List Instr :=
  [⟨.pushInt, some 5⟩, ⟨.call, some 0⟩, ⟨.storeLocalIdx, some 0⟩, ⟨.call, some 0⟩, ⟨.pushInt, some 1⟩, ⟨.add, none⟩]

/-- The call in `pushPrinted` comes to its end, and has then evaluated the length twice. -/
theorem pushPrinted_evaluations :
    exprCode pushPrintedEnv ⟨10, 0⟩ (.call (some .int) "array_push" pushPrintedArgs) = .ofCode pushPrintedCode ∧
    pushPrintedImage.Has 10 pushPrintedCode ∧
    ∃ pcs out v, Proceeds pushPrintedImage [] 16 pcs out ⟨10, [], #[0, 0], []⟩ v ∧ v.Arrived [] 16 ∧
      begun pushPrintedEnv ⟨10, 0⟩ "array_push" pushPrintedArgs 1 pcs = 2 := by
  have hf : HasType [("f", ⟨[], .int⟩)] [[("a", .array "int" 2)]] (.call (some .int) "f" []) .int :=
    @HasType.call _ _ "f" [] ⟨[], .int⟩ (by decide) (by decide) rfl rfl (by simp)
  have ht : HasType [("f", ⟨[], .int⟩)] [[("a", .array "int" 2)]]
      (.call (some .int) "array_push" pushPrintedArgs) .int :=
    .push (.var rfl) rfl hf (.lit (.int 5))
  have hc : exprCode pushPrintedEnv ⟨10, 0⟩ (.call (some .int) "array_push" pushPrintedArgs) =
    .ofCode pushPrintedCode := rfl
  have hcode : pushPrintedImage.Has 10 pushPrintedCode := by
    unfold Image.Has
    decide
  obtain ⟨hruns, hcount⟩ := argument_evaluations ht rfl rfl hc hcode (s := ⟨10, [], #[0, 0], []⟩) rfl
  obtain ⟨m, -, v, pcs, out, hv, hgoes, hend⟩ := hruns 14 ⟨16, [1], #[5, 0], []⟩ rfl
  have harrived : v.Arrived [] 16 := by
    rcases hend with rfl | hend
    · obtain rfl : v = ⟨16, [1], #[5, 0], []⟩ := Option.some.inj (hv.symm.trans rfl)
      exact ⟨rfl, rfl⟩
    · exact hend
  exact ⟨hc, hcode, pcs, out, v, hgoes, harrived, ((hcount pcs out v hgoes).2.2 harrived).2 1 (by decide)⟩

/-- The length is evaluated once for the store and once for the result, so what it prints is printed twice. -/
theorem pushPrinted_prints_twice :
    imageOf pushPrinted = .ok pushPrintedImage ∧ pushPrintedImage.Ends ["1", "1"] (.exit 1) :=
  ⟨by
    rw [imageOf, checkedProgram, show Token.tokens pushPrinted = _ from Token.tokens_ofList _]
    decide +kernel, by simp, 30, by decide⟩

end Bytecode

end Workbench
