import Workbench.Proofs.StackEffect

/-!
# Calls and the operand stack

Callers and callees share one operand stack. `Called` is a call that comes back: the state before the call
instruction and the state after the matching return. The main statement, `called_stack`, is the exact account of
the stack over such a call: the arguments give way to one value, except that values which expression
statements of the callee left stay under it, and that a function which ends without a value of its own
takes an operand of its caller. `Program.quiet` rules both out.
-/

open List

namespace Workbench

/-- No expression is a statement. -/
def Program.quiet {α : Type} (prog : Program α) : Bool := prog.functions.all fun f => Stmt.allQuiet f.body

/-- Every function for which a result type is written returns at the top level of its body. -/
def Program.returning {α : Type} (prog : Program α) : Bool :=
  prog.functions.all fun f => f.returnType.isNone || f.body.any Stmt.isReturn

end Workbench

namespace Workbench.Machine

/-- From `s`, before a call of the function `info`, to `t`, after the matching return; `out` is printed in
between. -/
structure Called (img : Image) (info : FunctionInfo) (out : List String) (s t : State) : Prop where
  instr : ∃ n, img.fetch s.pc = .ok ⟨.call, some n⟩ ∧ img.function n = .ok info
  run : ∃ s' u k, step img s = .next s' none ∧ Runs img (s.calls.length + 1) k out s' u ∧ step img u = .next t none
  back : t.calls.length = s.calls.length

end Workbench.Machine

namespace Workbench.Bytecode

open Machine (Image FunctionInfo Runs Called)
open Typing (Note)

/-! ### The routines of accepted programs -/

section Routines

variable {prog : Program Note}

theorem builtinArity_of_lookup {f : String} {sig : Typing.Signature}
    (h : (Typing.Signatures.withBuiltins []).lookup f = some sig) :
    View.builtinArity f = some sig.params.length := by
  have hall : ∀ b ∈ Typing.Signatures.withBuiltins [], View.builtinArity b.1 = some b.2.params.length := by decide
  exact hall _ (mem_of_lookup h)

theorem library_arities (hacc : Typing.Accepted prog) (slots : Slots) {known : List String}
    (hknown : known ⊆ names prog) :
    View.Arities ⟨slots, known.contains⟩ (Typing.signatures prog.functions) (library prog) (· ∈ names prog) := by
  constructor
  · intro f hf
    have hmem : f ∈ names prog := hknown (by simpa using hf)
    obtain ⟨fn, hfn, rfl⟩ := exists_function hmem
    obtain ⟨k, hk⟩ := exists_routine hacc.entered.nodup hfn
    have hfn' := mem_of_getElem? hfn
    refine ⟨hmem, builtinArity_of_fresh (hacc.entered.fresh fn hfn'), fun sig hsig => ?_⟩
    rw [hacc.entered.lookup hfn', Option.some.injEq] at hsig
    rw [hk, ← hsig]
    simp [routineOf, Typing.Signatures.ofFunction]
  · intro f n sig hn hsig
    rcases Typing.lookup_signatures hsig with hb | ⟨fn, hfn, rfl, -⟩
    · rw [builtinArity_of_lookup hb, Option.some.injEq] at hn
      exact hn
    · rw [builtinArity_of_fresh (hacc.entered.fresh fn hfn)] at hn
      cases hn

theorem exists_accepted (hacc : Typing.Accepted prog) {f : String} (hf : f ∈ names prog) :
    ∃ fn ∈ prog.functions, ∃ known k scope, fn.name = f ∧ known ⊆ names prog ∧
      (library prog).routine f = routineOf known k fn ∧
      Typing.Checked (Typing.signatures prog.functions) scope fn.body := by
  obtain ⟨fn, hfn, rfl⟩ := exists_function hf
  obtain ⟨k, hk⟩ := exists_routine hacc.entered.nodup hfn
  have hmem := mem_of_getElem? hfn
  obtain ⟨scope, -, hbody⟩ := (hacc.checked fn hmem).body
  exact ⟨fn, hmem, _, k, scope, rfl, take_subset _ _, hk, hbody⟩

theorem library_even (hacc : Typing.Accepted prog) (hvalued : prog.valued = true) (hfree : prog.inlineFree = true)
    {loud : Bool} (hquiet : (loud || prog.quiet) = true) :
    ∀ f ∈ names prog, ((library prog).routine f).body.Even (library prog) (· ∈ names prog) loud 0 := by
  intro f hf
  obtain ⟨fn, hfn, known, k, scope, rfl, hknown, hroutine, hbody⟩ := exists_accepted hacc hf
  rw [hroutine]
  simp only [Program.valued, Program.inlineFree, all_eq_true, Bool.and_eq_true] at hvalued hfree
  refine View.stmts_even (library_arities hacc _ hknown) hbody ⟨(hvalued fn hfn).1, hfree fn hfn, ?_⟩
  cases loud with
  | true => rfl
  | false =>
    simp only [Program.quiet, Bool.false_or, all_eq_true] at hquiet
    exact hquiet fn hfn

end Routines

/-! ### The run of a call -/

/-- A run from `s` that has come to leave the call, where the machine does what `r` says. -/
theorem Shows.returned {img : Image} {n k : Nat} {s u t : Machine.State} {out : List String}
    {r : Result (Int × List Int)} (h : Shows img n (fun (v, rest) t => Leaves img s.calls v rest t) s r)
    (hr : ∀ v rest, r.flow ≠ .ret v rest) (hrun : Runs img s.calls.length k out s u) (hn : k < n)
    (hstep : Machine.step img u = .next t none) (hback : t.calls.length < s.calls.length) :
    ∃ v rest, r.flow = .done (v, rest) ∧ texts r.log = out ∧ Leaves img s.calls v rest u := by
  obtain ⟨k', u', hrun', hend⟩ := h
  have hle : k' ≤ k := hrun.le_of_leaving hstep hback hrun'
  obtain ⟨more, hrest, hout⟩ := hrun'.split hrun hle
  generalize hm : k - k' = m at hrest
  obtain ⟨log, flow⟩ := r
  cases flow with
  | done vr =>
    obtain ⟨v, rest⟩ := vr
    obtain ⟨fr, frs, hcalls⟩ := exists_cons_of_length_pos (Nat.zero_lt_of_lt hback)
    have hend' : Leaves img (fr :: frs) v rest u' := hcalls ▸ hend
    have hge : k ≤ k' := hrun'.le_of_leaving hend'.back (by simp [hcalls]) hrun
    cases hrest with
    | refl => exact ⟨v, rest, rfl, by simpa using hout.symm, hend⟩
    | head => omega
  | ret v rest => exact absurd rfl (hr v rest)
  | fault f =>
    obtain ⟨w, hw⟩ := hend
    cases hrest with
    | refl =>
      rw [hstep] at hw
      cases hw
    | head _ hs _ =>
      rw [hs] at hw
      cases hw
  | cut => exact absurd hend (not_le.2 (hle.trans_lt hn))

/-- A call of `f` with the arguments `args`, made over the operands `below`, runs to its end and logs `log`. -/
def Library.CallLogs (lib : Library) (f : String) (args below : List Int) (log : List Event) : Prop :=
  ∃ n v rest, (lib.routine f).close
      ((lib.routine f).body.exec lib n (lib.routine f).string ⟨below, (lib.routine f).frame args⟩) =
    ⟨log, .done (v, rest)⟩

/-- A call that comes back has run the routine of its function. -/
theorem called_routine {prog : Program Note} {obj : Object} (hnodup : (names prog).Nodup) (hobj : emit prog = .ok obj)
    {info : FunctionInfo} {out : List String} {s t : Machine.State} (h : Called obj.image info out s t)
    {args below : List Int} (hstack : s.stack = args.reverse ++ below) (hlen : (args.length : Int) = info.numParams) :
    info.name ∈ names prog ∧ ∃ n v rest, t.stack = v :: rest ∧
      let r := (library prog).routine info.name
      let res := r.close (r.body.exec (library prog) n r.string ⟨below, r.frame args⟩)
      res.flow = .done (v, rest) ∧ texts res.log = out := by
  obtain ⟨⟨n, hfetch, hinfo⟩, ⟨s', u, k, henter, hrun, hleave⟩, hback⟩ := h
  obtain ⟨j, -, hj⟩ := Machine.Image.function_eq_ok.1 hinfo
  obtain ⟨hname, rfl⟩ := idxOf_image hnodup hobj hj
  have L := linked_of_emit hnodup hobj
  obtain ⟨info', entry, hinfo', hentry, hsize, -, hplaced⟩ := L.function info.name hname
  obtain rfl : info = info' := by simpa using hj.symm.trans hinfo'
  generalize (library prog).routine info.name = r at *
  have hs' : s' = Act.state ⟨below, r.frame args⟩ entry (⟨s.pc + 1, s.locals⟩ :: s.calls) := by
    simp only [Machine.step, hfetch, Machine.execute, Machine.withArg, hinfo, Machine.enter, ← hlen,
      Int.toNat_natCast] at henter
    rw [hstack, drop_left' length_reverse, take_left' length_reverse,
      reverse_reverse] at henter
    split at henter
    · cases henter
    · split at henter
      · cases henter
      · cases henter
        simp only [Act.state, hentry, Routine.frame, Machine.callCells, hsize]
  subst hs'
  have hshows := Linked.shows_close hplaced.code.right (L.exec_adequate (k + 1) r.body r.string entry
    ⟨below, r.frame args⟩ (⟨s.pc + 1, s.locals⟩ :: s.calls) hplaced.fits hplaced.strings hplaced.code.left)
  obtain ⟨v, rest, hflow, hout, hleaves⟩ := hshows.returned (r.close_ne_ret _) hrun (Nat.lt_succ_self k) hleave
    (by rw [hback]; exact Nat.lt_succ_self _)
  refine ⟨hname, k + 1, v, rest, ?_, hflow, hout⟩
  rw [hleaves.back] at hleave
  cases hleave
  rfl

/-! ### What is never logged -/

def Result.Lacks {α : Type} (e : Event) (r : Result α) : Prop := e ∉ r.log

namespace Result

variable {α β : Type} {e : Event} {r : Result α} {f : α → Result β}

theorem Lacks.nil {flow : Flow α} : Lacks e ⟨[], flow⟩ := not_mem_nil

theorem Lacks.event {e' : Event} {a : α} (h : e ≠ e') : (Result.event e' a).Lacks e := by
  simpa [Lacks, Result.event] using h

theorem Lacks.bind (h : r.Lacks e) (hf : ∀ a, (f a).Lacks e) : (r.bind f).Lacks e := by
  unfold Result.bind
  split
  case h_1 a _ => simpa [Lacks] using ⟨h, hf a⟩
  all_goals exact h

theorem Lacks.pop {a : Act} {g : Int → Act → Result β} (hg : ∀ v b, (g v b).Lacks e) : (a.pop g).Lacks e := by
  unfold Act.pop
  split
  · exact hg _ _
  · exact .nil

theorem Lacks.close {r : Result Act} (h : r.Lacks e) {routine : Routine}
    (hbare : e = .taken → routine.bare = true → ∀ b, r.flow ≠ .done b) : (routine.close r).Lacks e := by
  unfold Routine.close
  split
  case h_1 b hb =>
    split
    case h_1 v rest hbare' _ =>
      have htaken : e ≠ .taken := fun he => hbare he hbare' b hb
      simpa [Lacks] using ⟨h, htaken⟩
    case h_2 => exact h
  all_goals exact h

end Result

theorem Act.perform_lacks {e : Event} (he : ∀ s, e ≠ .text s) (lib : Library) (i : Machine.Instr) (a : Act) :
    (a.perform lib i).Lacks e := by
  unfold Act.perform
  split
  · simp only [Result.Lacks, mem_map, not_exists, not_and]
    exact fun s _ hs => he s hs.symm
  all_goals exact .nil

namespace Shape

/-- No expression of the shape is a statement. -/
def quiet : Shape → Bool
  | .seq a b | .branch a b | .loop a b => a.quiet && b.quiet
  | .circuit _ a => a.quiet
  | .drop _ => false
  | .skip | .instr _ | .text _ | .say .. | .call _ | .ret => true

variable {lib : Library} {known : String → Prop} {deeper : Nat → Shape → Act → Result Act} {e : Event}

theorem Straight.quiet {s : Shape} {p q : Nat} (h : s.Straight lib known p q) : s.quiet = true := by
  induction h with
  | skip | instr | text | say | call => rfl
  | seq hs ht hq ihs iht => rw [Shape.quiet, ihs, iht]; rfl
  | last hs ih => rw [Shape.quiet, ih]; rfl
  | circuit hs ih => exact ih

theorem Even.quiet {s : Shape} {p : Nat} (h : s.Even lib known false p) : s.quiet = true := by
  induction h with
  | straight hs => exact hs.quiet
  | drop hloud => cases hloud
  | ret => rfl
  | branch hs ht ihs iht | seq hs ht ihs iht => rw [Shape.quiet, ihs, iht]; rfl
  | loop hs ht iht | after hs ht iht => rw [Shape.quiet, hs.quiet, iht]; rfl

theorem lacks_run (he : ∀ s, e ≠ .text s)
    (hcall : ∀ f, known f → ∀ a : Act,
      (a.enter (lib.routine f) (deeper (lib.routine f).string (lib.routine f).body)).Lacks e)
    (hgo : ∀ s : Shape, s.Fits known → (e = .left → s.quiet = true) → ∀ k a, (deeper k s a).Lacks e) (s : Shape) :
    s.Fits known → (e = .left → s.quiet = true) → ∀ k a, (s.run lib deeper k a).Lacks e := by
  induction s with
  | skip | text | ret => exact fun _ _ k a => .nil
  | say newline s => exact fun _ _ k a => .event (he _)
  | instr i => exact fun _ _ k a => a.perform_lacks he lib i
  | call f => exact fun hf _ k => hcall f hf
  | drop s ih =>
    intro hfits h k a
    have hleft : e ≠ .left := fun hl => Bool.false_ne_true (h hl)
    exact (ih hfits (fun hl => absurd hl hleft) k a).bind fun b => .event hleft
  | seq s t ihs iht =>
    intro hfits h k a
    simp only [Shape.quiet, Bool.and_eq_true] at h
    exact (ihs hfits.1 (fun hl => (h hl).1) k a).bind (iht hfits.2 (fun hl => (h hl).2) _)
  | branch s t ihs iht =>
    intro hfits h k a
    simp only [Shape.quiet, Bool.and_eq_true] at h
    refine .pop fun v b => ?_
    split
    · exact ihs hfits.1 (fun hl => (h hl).1) k b
    · exact iht hfits.2 (fun hl => (h hl).2) _ b
  | circuit d s ih =>
    intro hfits h k a
    refine .pop fun v b => ?_
    split
    · exact .nil
    · exact (ih hfits h k b).bind fun c => .pop fun w c => .nil
  | loop s t ihs iht =>
    intro hfits h k a
    have hloop := h
    simp only [Shape.quiet, Bool.and_eq_true] at h
    refine (ihs hfits.1 (fun hl => (h hl).1) k a).bind fun b => .pop fun v c => ?_
    split
    · exact (iht hfits.2 (fun hl => (h hl).2) _ c).bind (hgo _ hfits hloop k)
    · exact .nil

/-- No value stays where no routine has an expression for a statement, and no operand is taken where no bare routine
comes to its end. -/
theorem lacks_exec (he : ∀ s, e ≠ .text s) (hfits : ∀ f, known f → (lib.routine f).body.Fits known)
    (hleft : e = .left → ∀ f, known f → (lib.routine f).body.quiet = true)
    (htaken : e = .taken → ∀ f, known f → (lib.routine f).bare = true →
      ∀ n k a b, ((lib.routine f).body.exec lib n k a).flow ≠ .done b) (n : Nat) :
    ∀ s : Shape, s.Fits known → (e = .left → s.quiet = true) → ∀ k a, (s.exec lib n k a).Lacks e := by
  induction n with
  | zero => exact fun s _ _ k a => .nil
  | succ n ih =>
    refine lacks_run he (fun f hf a => ?_) ih
    unfold Act.enter
    split
    · exact .nil
    · have hbody := ih _ (hfits f hf) (fun hl => hleft hl f hf)
      exact ((hbody _ _).close fun ht hb => htaken ht f hf hb n _ _).bind fun _ => .nil

end Shape

section Never

variable {v : View} {lib : Library} {prog : Program Note} {e : Event}

theorem View.stmts_ne_done {deeper : Nat → Shape → Act → Result Act} {ss : List (Stmt Note)}
    (h : ss.any Stmt.isReturn = true) : ∀ k a b, ((v.stmts ss).run lib deeper k a).flow ≠ .done b := by
  induction ss with
  | nil => cases h
  | cons s ss ih =>
    intro k a b hb
    rw [View.stmts, Shape.run, Result.bind] at hb
    split at hb
    case h_1 c hc =>
      rw [any_cons, Bool.or_eq_true] at h
      rcases h with h | h
      · cases s with
        | ret value =>
          have hret : ∀ t : Shape, ((Shape.seq t .ret).run lib deeper k a).flow ≠ .done c := by
            intro t
            rw [Shape.run, Result.bind]
            split <;> simp [Shape.run]
          cases value with
          | none => exact hret _ hc
          | some e => exact hret _ hc
        | _ => cases h
      · exact ih h _ _ _ hb
    all_goals cases hb

theorem library_fits (hacc : Typing.Accepted prog) :
    ∀ f ∈ names prog, ((library prog).routine f).body.Fits (· ∈ names prog) := by
  intro f hf
  obtain ⟨fn, -, known, k, -, -, hknown, hroutine, -⟩ := exists_accepted hacc hf
  rw [hroutine]
  exact View.stmts_fits (fun h hh => hknown (by simpa using hh)) fn.body

/-- A bare routine returns before its end if functions with a written result type return at the top level. -/
theorem returning_ne_done (hacc : Typing.Accepted prog) (hret : prog.returning = true) {f : String}
    (hf : f ∈ names prog) (hbare : ((library prog).routine f).bare = true) :
    ∀ n k a b, (((library prog).routine f).body.exec (library prog) n k a).flow ≠ .done b := by
  obtain ⟨fn, hfn, known, k, -, -, -, hroutine, -⟩ := exists_accepted hacc hf
  rw [hroutine] at hbare ⊢
  simp only [Program.returning, all_eq_true, Bool.or_eq_true, Option.isNone_iff_eq_none] at hret
  simp only [routineOf, Bool.not_eq_true', decide_eq_false_iff_not, not_or] at hbare
  intro n
  cases n with
  | zero => exact fun k a b => by simp [Shape.exec, Result.cut]
  | succ n => exact View.stmts_ne_done ((hret fn hfn).resolve_left hbare.1)

theorem call_lacks (hacc : Typing.Accepted prog) (he : ∀ s, e ≠ .text s)
    (hleft : e = .left → ∀ f ∈ names prog, ((library prog).routine f).body.quiet = true)
    (htaken : e = .taken → prog.returning = true) {f : String} (hf : f ∈ names prog) (n : Nat) (a : Act) :
    (((library prog).routine f).close (((library prog).routine f).body.exec (library prog) n
      ((library prog).routine f).string a)).Lacks e := by
  have hends := fun ht f => returning_ne_done hacc (htaken ht) (f := f)
  have hfits := library_fits hacc
  have hbody := Shape.lacks_exec he hfits hleft hends n _ (hfits f hf) fun hl => hleft hl f hf
  exact (hbody _ a).close fun ht hb => hends ht f hf hb n _ a

end Never

/-! ### The account of a call -/

variable {log : List Event} {rest S : List Int}

theorem Moves.below_value {v : Int} (h : Moves 0 1 log S (v :: rest)) : S.drop (log.count .taken) <:+ rest := by
  have hbelow := h.below
  rw [Nat.zero_add] at hbelow
  rcases suffix_cons_iff.1 hbelow with heq | hsuffix
  · have hlen := congrArg length heq
    have hheight := h.height
    simp only [length_drop, length_cons] at hlen hheight
    omega
  · exact hsuffix

/-- Where nothing is taken, a call leaves one value exactly if nothing stays under it. -/
theorem Moves.one_value_iff {v : Int} (h : Moves 0 1 log S (v :: rest)) (htaken : .taken ∉ log) :
    (∃ r, v :: rest = r :: S) ↔ .left ∉ log := by
  have hbelow := h.below_value
  have hheight := h.height
  rw [count_eq_zero_of_not_mem htaken] at hbelow hheight
  rw [drop_zero] at hbelow
  simp only [length_cons] at hheight
  constructor
  · rintro ⟨r, hr⟩
    cases hr
    rw [← count_eq_zero]
    omega
  · intro hleft
    rw [count_eq_zero_of_not_mem hleft] at hheight
    exact ⟨v, by rw [hbelow.eq_of_length (by omega)]⟩

/-- **The operand stack over a call** that is made with its arguments over `below` and comes back. The stack is one
value higher than `below`, but for the values that stay and the operands that are taken, and the operands that are not
taken are where they were. If none is taken, exactly one value is on `below` if and only if none stays. -/
theorem called_stack {source : String} {prog : Program Note} (h : checkedProgram source = .ok prog)
    (hfree : prog.inlineFree = true) : ∃ img, imageOf source = .ok img ∧
      ∀ info out s t, Called img info out s t →
        ∀ args below, s.stack = args.reverse ++ below → (args.length : Int) = info.numParams →
          ∃ log, (library prog).CallLogs info.name args below log ∧ texts log = out ∧
            t.stack.length + log.count .taken = below.length + 1 + log.count .left ∧
            below.drop (log.count .taken) <:+ t.stack.tail ∧
            (.taken ∉ log → ((∃ r, t.stack = r :: below) ↔ .left ∉ log)) ∧
            (prog.returning = true → .taken ∉ log) ∧ (prog.quiet = true → .left ∉ log) := by
  have hacc := accepted_of_source h
  have hvalued := valued_of_source h
  obtain ⟨obj, hobj, himg⟩ := imageOf_isOk h hfree
  refine ⟨obj.image, himg, fun info out s t hcalled args below hstack hlen => ?_⟩
  obtain ⟨hname, n, v, rest, ht, hflow, hout⟩ := called_routine hacc.entered.nodup hobj hcalled hstack hlen
  have hlib := library_even hacc hvalued hfree (rfl : (true || prog.quiet) = true)
  have hmoves := (Shape.Even.exec hlib n _ (hlib _ hname) _ _).close _ hflow
  rw [ht]
  refine ⟨_, ⟨n, v, rest, by rw [← hflow]⟩, hout, ?_, hmoves.below_value, hmoves.one_value_iff, fun hret => ?_,
    fun hquiet => ?_⟩
  · have hheight := hmoves.height
    dsimp only at hheight
    omega
  · exact call_lacks hacc (by simp) (by simp) (fun _ => hret) hname n _
  · exact call_lacks hacc (by simp) (fun _ g hg => (library_even hacc hvalued hfree (by exact hquiet) g hg).quiet)
      (by simp) hname n _

/-- A function that divides before a call of it is taken from ten. -/
def tenLessThird : String :=
  "fn third(a: int): int \x7b return a / 3; \x7d fn main(): int \x7b return 10 - third(7); \x7d"

theorem tenLessThird_calls : ∃ prog img, checkedProgram tenLessThird = .ok prog ∧ prog.inlineFree = true ∧
    imageOf tenLessThird = .ok img ∧ ∀ info out s t, Called img info out s t →
      ∀ args below : List Int, s.stack = args.reverse ++ below → (args.length : Int) = info.numParams →
        ∃ r, t.stack = r :: below := by
  obtain ⟨prog, hprog, hfree, hret, hquiet⟩ : ∃ prog, checkedProgram tenLessThird = .ok prog ∧
      prog.inlineFree = true ∧ prog.returning = true ∧ prog.quiet = true := by decide +kernel
  obtain ⟨img, himg, hcalls⟩ := called_stack hprog hfree
  refine ⟨prog, img, hprog, hfree, himg, fun info out s t hcalled args below hstack hlen => ?_⟩
  obtain ⟨log, -, -, -, -, hone, htaken, hleft⟩ := hcalls info out s t hcalled args below hstack hlen
  exact (hone (htaken hret)).2 (hleft hquiet)

/-- A function with an expression for a statement, called with an operand of the caller waiting. -/
def tenLessTwo : String :=
  "fn two(): int \x7b 7; return 2; \x7d fn main(): int \x7b return 10 - two(); \x7d"

/-- The code of `tenLessTwo`. -/
def tenLessTwoImage : Image where
  code := #[⟨.pushInt, some 7⟩, ⟨.pushInt, some 2⟩, ⟨.ret, none⟩, ⟨.pushInt, some 0⟩, ⟨.ret, none⟩,
    ⟨.pushInt, some 10⟩, ⟨.call, some 0⟩, ⟨.sub, none⟩, ⟨.ret, none⟩, ⟨.pushInt, some 0⟩, ⟨.ret, none⟩]
  functions := #[⟨"two", 0, 0, 0⟩, ⟨"main", 5, 0, 0⟩]
  strings := []

theorem imageOf_tenLessTwo : imageOf tenLessTwo = .ok tenLessTwoImage := by
  rw [imageOf, checkedProgram, show Token.tokens tenLessTwo = _ from Token.tokens_ofList _]
  decide +kernel

/-- The value of the expression statement comes to lie between the operand of the caller and the result, so the caller
subtracts from it: five, not eight. -/
theorem tenLessTwo_leaves_seven : ∃ prog img info s t, checkedProgram tenLessTwo = .ok prog ∧
    prog.inlineFree = true ∧ imageOf tenLessTwo = .ok img ∧ info.numParams = 0 ∧
    (∃ n f, img.main? = some f ∧ Runs img 0 n [] (.start f) s) ∧ Called img info [] s t ∧
    s.stack = [10] ∧ t.stack = [2, 7, 10] ∧ img.Ends [] (.exit 5) := by
  obtain ⟨prog, hprog, hfree⟩ : ∃ prog, checkedProgram tenLessTwo = .ok prog ∧ prog.inlineFree = true := by
    decide +kernel
  refine ⟨prog, tenLessTwoImage, ⟨"two", 0, 0, 0⟩, ⟨6, [10], #[], []⟩, ⟨7, [2, 7, 10], #[], []⟩, hprog, hfree,
    imageOf_tenLessTwo, rfl, ⟨1, ⟨"main", 5, 0, 0⟩, by decide, ?_⟩, ⟨⟨0, rfl, rfl⟩, ?_, rfl⟩, rfl, rfl, ?_⟩
  · exact .head (o := none) (Nat.zero_le _) rfl (.refl (Nat.zero_le _))
  · refine ⟨⟨0, [10], #[], [⟨7, #[]⟩]⟩, ⟨2, [2, 7, 10], #[], [⟨7, #[]⟩]⟩, 2, rfl, ?_, rfl⟩
    exact .head (o := none) (Nat.le_refl _) rfl (.head (o := none) (Nat.le_refl _) rfl (.refl (Nat.le_refl _)))
  · exact ⟨by simp, 20, by decide, by decide⟩

end Workbench.Bytecode
