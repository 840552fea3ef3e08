import Mathlib.Data.List.Nodup
import Workbench.Proofs.Link
import Workbench.Proofs.ScalarSim

/-!
# Scalar programs are compiled correctly

The code of a scalar program does what the program means (`compiled_correctly`). A call binds the parameters to the
first cells of the frame and the rest of the function's variables to cells of their own, so `stmts_sim`
applies to its body; by induction on the fuel, calls and loops agree at every depth (`deep`).
-/

open List

namespace Workbench.Scalar

open Bytecode (Act Result Flow Library Routine Shape Slots View routineOf library texts)
open Machine (Fault wrap ofBool)
open Typing (Note Signatures Scope HasType Checked)

/-! ### Functions -/

section Functions

variable {table : Signatures} {lib : Library} {all known : List String} {d : Deeper Note}
  {go : Nat → Shape → Act → Result Act} {f : Function Note}

theorem arrayLength?_of_scalarTy {name : String} (h : scalarTy (Ty.ofName name) = true) :
    Ty.arrayLength? name = none := by
  unfold Ty.ofName at h
  split at h
  · cases h
  · assumption

theorem scalarDecl_scalar {written : Option String} {init : Option (Expr Note)} (h : scalarDecl written init = true) :
    written.bind Ty.arrayLength? = none := by
  unfold scalarDecl at h
  cases written with
  | none => rfl
  | some name =>
    by_cases hname : name.isEmpty = true
    · have hempty : name = "" := by simpa using hname
      subst hempty
      decide
    · rw [show Ty.written? (some name) = some name by simp [Ty.written?, hname]] at h
      exact arrayLength?_of_scalarTy h

theorem scalarStmts_decls (ss : List (Stmt Note)) : scalarStmts known ss = true →
    ∀ x ∈ Stmt.decls ss, x.2.bind Ty.arrayLength? = none := by
  induction ss using Stmt.parts_induction (P := fun s => scalarStmt known s = true →
      ∀ x ∈ s.declsOf, x.2.bind Ty.arrayLength? = none) with
  | nil => simp [Stmt.decls]
  | cons s ss ihs ih =>
    intro h
    rw [scalarStmts, Bool.and_eq_true] at h
    exact forall_mem_append.2 ⟨ihs h.1, ih h.2⟩
  | decl x written init h y hy =>
    cases mem_singleton.1 hy
    exact scalarDecl_scalar (scalarDecl_of_scalarStmt h)
  | cond test yes no ihy ihn h y hy =>
    rw [scalarStmt, Bool.and_eq_true, Bool.and_eq_true] at h
    exact (mem_append.1 hy).elim (ihy h.1.2 y) (ihn h.2 y)
  | condThen test body ihb h y hy | loop test body ihb h y hy =>
    rw [scalarStmt, Bool.and_eq_true] at h
    exact ihb h.2 y hy
  | _ => simp_all [Stmt.declsOf]

/-- The parts of `scalarFunction`. -/
structure ScalarFunction (known : List String) (f : Function Note) : Prop where
  params : ∀ p ∈ f.params, scalarTy (Ty.ofName p.typeName) = true
  result : ∀ name, f.returnType = some name → name ≠ "" ∧ scalarTy (Ty.ofName name) = true
  nodup : (f.params.map (·.name) ++ (Stmt.decls f.body).map (·.1)).Nodup
  body : scalarStmts known f.body = true

theorem scalarFunction_iff : scalarFunction known f = true ↔ ScalarFunction known f := by
  simp only [scalarFunction, Bool.and_eq_true, all_eq_true, decide_eq_true_eq, Option.all_eq_true]
  constructor
  · rintro ⟨⟨⟨hp, hr⟩, hn⟩, hb⟩
    exact ⟨hp, fun name hname => by simpa using hr name hname, hn, hb⟩
  · rintro ⟨hp, hr, hn, hb⟩
    exact ⟨⟨⟨hp, fun name hname => by simpa using hr name hname⟩, hn⟩, hb⟩

theorem ScalarFunction.slots (h : ScalarFunction known f) : ScalarSlots (Slots.ofFunction f) := by
  refine ⟨Slots.sound_ofFunction f, fun x => ?_⟩
  rw [Slots.length?_ofFunction, Option.bind_eq_none_iff]
  intro w hw
  rcases mem_append.1 (mem_of_lookup hw) with hx | hx
  · obtain ⟨p, -, heq⟩ := mem_map.1 hx
    cases heq
    rfl
  · exact scalarStmts_decls f.body h.body _ hx

theorem declareParams_eq {ps : List Param} {b : Typing.Frame} {ts : List Ty} {scope : Scope}
    (hlen : ps.length = ts.length) (h : Typing.declareParams [b] ps ts = .ok scope) :
    scope = [b ++ (ps.map (·.name)).zip ts] := by
  induction ps generalizing b ts with
  | nil =>
    cases eq_nil_of_length_eq_zero hlen.symm
    cases h
    simp
  | cons p ps ih =>
    cases ts with
    | nil => simp at hlen
    | cons t ts =>
      simp only [Typing.declareParams, bind_eq_ok, Typing.declare_eq_ok, Scope.declare?] at h
      obtain ⟨scope', hscope, h⟩ := h
      split at hscope
      · cases hscope
      · cases hscope
        rw [ih (by simpa using hlen) h]
        simp

variable {args : List Int} {r : Routine} {i : Nat}

theorem frame_get (r : Routine) (hi : i < r.size) : (r.frame args)[i]? = some (wrap (args[i]?.getD 0)) := by
  simp only [Routine.frame, Machine.callCells, getElem?_toArray]
  rcases Nat.lt_or_ge i args.length with hlt | hge
  · rw [getElem?_append_left (by simp; omega)]
    simp [hi, hlt]
  · rw [getElem?_append_right (by simp; omega), getElem?_replicate, if_pos (by simp; omega),
      getElem?_eq_none hge]
    rfl

theorem frame_size (r : Routine) (args : List Int) : (r.frame args).size = r.size := by
  simp only [Routine.frame, Machine.callCells, size_toArray, length_append,
    length_map, length_take, length_replicate]
  omega

theorem ScalarFunction.result_ne_str (h : ScalarFunction known f) : (Signatures.ofFunction f).result ≠ .str := by
  cases hr : f.returnType with
  | none => simp [Signatures.ofFunction, hr, Ty.written?]
  | some name =>
    obtain ⟨hne, hscalar⟩ := h.result name hr
    simp only [Signatures.ofFunction, hr, show Ty.written? (some name) = some name by simp [Ty.written?, hne],
      Option.map_some, Option.getD_some]
    intro hstr
    rw [hstr] at hscalar
    cases hscalar

/-- The body of a scalar function can run in a frame with its arguments. -/
theorem ready_body (hf : ScalarFunction known f) (hc : Typing.CheckedFunction table f) (k : Nat)
    (hargs : args.length = f.params.length) :
    ∃ scope, Ready table known (Slots.ofFunction f) scope [(f.params.map (·.name)).zip (args.map wrap)]
      ((routineOf known k f).frame args) f.body := by
  obtain ⟨⟨scope, hscope, hbody⟩, -⟩ := hc
  have hlen : f.params.length = (Signatures.ofFunction f).params.length := by simp [Signatures.ofFunction]
  obtain rfl := declareParams_eq hlen hscope
  rw [nil_append] at hbody
  have hparams : names [(f.params.map (·.name)).zip (Signatures.ofFunction f).params] = [f.params.map (·.name)] := by
    simp [names, map_fst_zip, hlen]
  refine ⟨_, hbody, hf.body, ⟨?_, frame_size _ _, ?_⟩, ?_, ?_, ?_⟩
  · rw [hparams]
    simp [names, map_fst_zip, hargs]
  · intro b hb x v hx
    rw [mem_singleton.1 hb] at hx
    obtain ⟨i, hi⟩ := mem_iff_getElem?.1 hx
    obtain ⟨hname, hvalue⟩ := getElem?_zip_eq_some.1 hi
    have hcell := Slots.cell?_param (nodup_append.1 hf.nodup).1 hname
    refine ⟨i, hcell, ?_⟩
    rw [frame_get _ (hf.slots.lt_size hcell)]
    rw [getElem?_map] at hvalue
    obtain ⟨w, hw, rfl⟩ := Option.map_eq_some_iff.1 hvalue
    rw [hw, Option.getD_some]
  · rw [hparams]
    simpa using hf.nodup
  · intro x hx
    rw [Slots.ofFunction_eq]
    exact Slots.isSome_cell?_addDecls x (mem_append_right _ hx)
  · intro b hb p hp
    rw [mem_singleton.1 hb] at hp
    obtain ⟨q, hq, heq⟩ := mem_map.1 (of_mem_zip hp).2
    have hscalar := hf.params q hq
    rw [heq] at hscalar
    rintro hstr
    rw [hstr] at hscalar
    cases hscalar

theorem stmt_ret_ne_ok (s s' : Store) (value : Option (Expr Note)) : (stmt d s (.ret value)).result ≠ .ok s' := by
  cases value with
  | none => simp [stmt, Eval.stop]
  | some e =>
    have hret : stmt d s (.ret (some e)) = (expr d.call s e).bind fun v => .stop (.returned v) := by rw [stmt]; rfl
    rw [hret, Eval.bind]
    split <;> simp [Eval.stop]

theorem stmts_ne_ok {ss : List (Stmt Note)} (hret : ss.any Stmt.isReturn = true) (s s' : Store) :
    (stmts d s ss).result ≠ .ok s' := by
  induction ss generalizing s with
  | nil => cases hret
  | cons st ss ih =>
    intro h
    have hseq : stmts d s (st :: ss) = (stmt d s st).bind fun s => stmts d s ss := by rw [stmts]; rfl
    rw [hseq, Eval.bind] at h
    split at h
    · rename_i s₁ hs₁
      rw [any_cons, Bool.or_eq_true] at hret
      rcases hret with hret | hret
      · cases st with
        | ret value => exact stmt_ret_ne_ok _ _ _ hs₁
        | _ => cases hret
      · exact ih hret _ h
    · cases h

theorem close_sim {m : Eval Store} {res : Result Act} {stack below : List Int}
    (h : Sim stack (fun _ b => b.stack = stack) m res) (hbare : r.bare = true → ∀ s, m.result ≠ .ok s) :
    Sim below (fun v p => p = (v, stack)) m.returned (r.close res) := by
  obtain ⟨out, result⟩ := m
  obtain ⟨log, flow⟩ := res
  obtain ⟨hout, hagree⟩ := h
  cases hagree with
  | @ok s b hb =>
    have hr : r.bare = false := by
      cases hr : r.bare with
      | false => rfl
      | true => exact absurd rfl (hbare hr s)
    simp only [Routine.close, hr]
    exact ⟨hout, .ok (by rw [hb])⟩
  | returned => exact ⟨hout, .ok rfl⟩
  | division => exact ⟨hout, .division⟩
  | fuel => exact ⟨hout, .fuel⟩

theorem bare_ne_ok (hf : ScalarFunction known f) (hc : Typing.CheckedFunction table f) {k : Nat}
    (hbare : (routineOf known k f).bare = true) (s s' : Store) : (stmts d s f.body).result ≠ .ok s' := by
  refine stmts_ne_ok (hc.returns.resolve_left ?_) s s'
  simp only [routineOf, Bool.not_eq_true', decide_eq_false_iff_not, not_or] at hbare
  obtain ⟨name, hname⟩ := Option.ne_none_iff_exists'.1 hbare.1
  obtain ⟨hne, hscalar⟩ := hf.result name hname
  have hwritten : Ty.written? f.returnType = some name := by simp [hname, Ty.written?, hne]
  simp only [Signatures.ofFunction, hwritten, Option.map_some, Option.getD_some]
  intro hvoid
  rw [hvoid] at hscalar
  cases hscalar

theorem invoke_sim (D : Deep table lib all d go) (hknown : known ⊆ all) (hf : ScalarFunction known f)
    (hc : Typing.CheckedFunction table f) (hargs : args.length = f.params.length) (k : Nat) (stack below : List Int) :
    Sim below (fun v p => p = (v, stack)) (invoke d f args)
      ((routineOf known k f).close ((routineOf known k f).body.run lib go k
        ⟨stack, (routineOf known k f).frame args⟩)) := by
  obtain ⟨scope, hready⟩ := ready_body hf hc k hargs
  rw [invoke, if_pos hargs]
  refine close_sim ?_ fun hbare => bare_ne_ok hf hc hbare _
  exact (stmts_sim (a := ⟨stack, _⟩) D hf.slots hknown hready).mono fun _ _ h => h.1

theorem enter_sim {m : Eval Int} {go : Act → Result Act} {a : Act} {below : List Int} (hargs : args.length = r.arity)
    (h : Sim below (fun v p => p = (v, a.stack)) m (r.close (go ⟨a.stack, r.frame args⟩))) :
    Sim below (fun v b => b = a.push v) m (Act.enter r go { a with stack := args.reverse ++ a.stack }) := by
  have hlen : args.reverse.length = r.arity := by simpa using hargs
  rw [Act.enter, if_neg (by simp; omega)]
  simp only [drop_left' hlen, take_left' hlen, reverse_reverse]
  rw [← bind_pure m]
  refine h.bind ?_
  rintro v _ rfl
  exact .pure rfl

end Functions

/-! ### Programs -/

section Programs

variable {prog : Program Note}

theorem scalarFunctions_get {fs : List (Function Note)} {known : List String} {i : Nat} {f : Function Note}
    (h : scalarFunctions known fs = true) (hf : fs[i]? = some f) :
    ScalarFunction (known ++ (fs.map (·.name)).take (i + 1)) f := by
  induction fs generalizing known i with
  | nil => simp at hf
  | cons g fs ih =>
    rw [scalarFunctions, Bool.and_eq_true] at h
    cases i with
    | zero =>
      cases hf
      exact scalarFunction_iff.1 h.1
    | succ i => simpa using ih h.2 hf

/-- What is known of a function of a scalar program that is accepted. -/
structure Known (prog : Program Note) (f : Function Note) (known : List String) (k : Nat) : Prop where
  mem : f ∈ prog.functions
  find : prog.functions.find? (·.name == f.name) = some f
  routine : (library prog).routine f.name = routineOf known k f
  subset : known ⊆ Bytecode.names prog
  scalar : ScalarFunction known f

theorem exists_known (hacc : Typing.Accepted prog) (hscalar : isScalar prog = true) {g : String}
    (hg : g ∈ Bytecode.names prog) : ∃ f known k, f.name = g ∧ Known prog f known k := by
  obtain ⟨f, hf, hname⟩ := Bytecode.exists_function hg
  have hmem : f ∈ prog.functions := mem_of_getElem? hf
  obtain ⟨k, hk⟩ := Bytecode.exists_routine hacc.entered.nodup hf
  refine ⟨f, _, k, hname, hmem, ?_, hk, take_subset _ _, ?_⟩
  · have hsome : (prog.functions.find? (·.name == f.name)).isSome := find?_isSome.2 ⟨f, hmem, by simp⟩
    obtain ⟨f', hf'⟩ := Option.isSome_iff_exists.1 hsome
    have hname' : f'.name = f.name := by simpa using find?_some hf'
    rw [hf', inj_on_of_nodup_map hacc.entered.nodup (mem_of_find?_eq_some hf') hmem hname']
  · exact scalarFunctions_get hscalar hf

/-- Calls and loops agree, whatever the fuel. -/
theorem deep (hacc : Typing.Accepted prog) (hscalar : isScalar prog = true) (n : Nat) :
    Deep (Typing.signatures prog.functions) (library prog) (Bytecode.names prog) (deeper prog.functions n)
      (Shape.exec (library prog) n) := by
  have hsig : ∀ g ∈ Bytecode.names prog, ∀ sig, (Typing.signatures prog.functions).lookup g = some sig →
      ∃ f known k, f.name = g ∧ Known prog f known k ∧ sig = Signatures.ofFunction f := by
    intro g hg sig hsig
    obtain ⟨f, known, k, rfl, hf⟩ := exists_known hacc hscalar hg
    rw [hacc.entered.lookup hf.mem, Option.some.injEq] at hsig
    exact ⟨f, known, k, rfl, hf, hsig.symm⟩
  have hstatic : ∀ {call go}, (∀ g ∈ Bytecode.names prog, ∀ args : List Int,
      args.length = ((library prog).routine g).arity → ∀ below (a : Act),
      Sim below (fun v b => b = a.push v) (call g args)
        (Act.enter ((library prog).routine g) (go ((library prog).routine g).string ((library prog).routine g).body)
          { a with stack := args.reverse ++ a.stack })) →
      CallsAgree (Typing.signatures prog.functions) (library prog) (Bytecode.names prog) call go := by
    intro call go hsim
    refine ⟨fun g hg sig h => ?_, fun g hg sig h => ?_, fun g hg => ?_, hsim⟩
    · obtain ⟨f, known, k, rfl, hf, rfl⟩ := hsig g hg sig h
      rw [hf.routine]
      simp [routineOf, Signatures.ofFunction]
    · obtain ⟨f, known, k, rfl, hf, rfl⟩ := hsig g hg sig h
      exact hf.scalar.result_ne_str
    · obtain ⟨f, known, k, rfl, hf⟩ := exists_known hacc hscalar hg
      exact Bytecode.builtinArity_of_fresh (hacc.entered.fresh f hf.mem)
  induction n with
  | zero =>
    refine ⟨hstatic fun g hg args hargs below a => ?_, fun _ _ _ _ _ _ _ _ _ _ _ => ⟨rfl, .fuel⟩⟩
    exact enter_sim hargs ⟨rfl, .fuel⟩
  | succ n ih =>
    refine ⟨hstatic fun g hg args hargs below a => ?_, fun slots known scope s test body k a hslots hknown h => ?_⟩
    · obtain ⟨f, known, k, rfl, hf⟩ := exists_known hacc hscalar hg
      have harity : args.length = f.params.length := by rw [hargs, hf.routine]; rfl
      refine enter_sim hargs ?_
      rw [hf.routine]
      simp only [deeper, hf.find]
      exact invoke_sim ih hf.subset hf.scalar (hacc.checked f hf.mem) harity k a.stack below
    · cases h.checked with
      | loop he hbody hs => exact loop_sim ih hknown hslots h he hbody (stmts_sim ih hslots hknown)

theorem frame_zeros (r : Routine) (ps : List Param) : r.frame (ps.map fun _ => 0) = Array.replicate r.size 0 := by
  refine Array.ext_getElem? fun i => ?_
  rcases Nat.lt_or_ge i r.size with hi | hi
  · rw [frame_get r hi, Array.getElem?_replicate, if_pos hi, getElem?_map]
    cases ps[i]? <;> rfl
  · rw [Array.getElem?_eq_none (by rw [frame_size]; exact hi), Array.getElem?_replicate, if_neg (by omega)]

theorem run_sim (hacc : Typing.Accepted prog) (hscalar : isScalar prog = true) (n : Nat) :
    Sim [] (fun v p => p = (v, [])) (run prog n)
      (((library prog).routine "main").start (library prog) (n + 1)) := by
  obtain ⟨f, known, k, hname, hf⟩ := exists_known hacc hscalar hacc.main
  rw [run, ← hname, hf.find, hf.routine, Routine.start, ← frame_zeros _ f.params]
  exact invoke_sim (deep hacc hscalar n) hf.subset hf.scalar (hacc.checked f hf.mem) (by simp) k [] []

/-- What is observed of a program with some fuel. -/
def Eval.observed (m : Eval Int) : Machine.Observed where
  out := m.out
  ending := match m.result with
    | .ok v => some (.exit v)
    | .error .divisionByZero => some (.fault .divisionByZero)
    | .error _ => none

theorem Sim.observed {m : Eval Int} {r : Result (Int × List Int)} (h : Sim [] (fun v p => p = (v, [])) m r)
    (hr : ∀ v rest, r.flow ≠ .ret v rest) :
    r.observed = m.observed ∧ (∀ v, m.result ≠ .error (.returned v)) ∧ m.result ≠ .error .stuck := by
  obtain ⟨out, result⟩ := m
  obtain ⟨log, flow⟩ := r
  obtain ⟨hout, hagree⟩ := h
  obtain rfl : texts log = out := hout
  cases hagree with
  | ok h => subst h; exact ⟨rfl, by simp, by simp⟩
  | returned => exact absurd rfl (hr _ _)
  | division => exact ⟨rfl, by simp, by simp⟩
  | fuel => exact ⟨rfl, by simp, by simp⟩

theorem scalarStmts_inlineFree {known : List String} (ss : List (Stmt Note)) :
    scalarStmts known ss = true → Stmt.allInlineFree ss = true := by
  induction ss using Stmt.parts_induction (P := fun s => scalarStmt known s = true → s.inlineFree = true) with
  | nil => exact fun _ => rfl
  | cons s ss ihs ih =>
    intro h
    rw [scalarStmts, Bool.and_eq_true] at h
    rw [Stmt.allInlineFree, ihs h.1, ih h.2, Bool.and_self]
  | cond test yes no ihy ihn h =>
    rw [scalarStmt, Bool.and_eq_true, Bool.and_eq_true] at h
    rw [Stmt.inlineFree, ihy h.1.2, ihn h.2, Bool.and_self]
  | condThen test body ihb h | loop test body ihb h =>
    rw [scalarStmt, Bool.and_eq_true] at h
    exact ihb h.2
  | vmAsm _ h | block _ _ h => cases h
  | _ => rfl

theorem isScalar_inlineFree (h : isScalar prog = true) : prog.inlineFree = true := by
  simp only [Program.inlineFree, all_eq_true]
  intro f hf
  obtain ⟨i, hi⟩ := mem_iff_getElem?.1 hf
  exact scalarStmts_inlineFree f.body (scalarFunctions_get h hi).body

variable {source : String}

/-- A source text of the scalar language has an image, and the image does what the program means. -/
theorem follows_run (h : checkedProgram source = .ok prog) (hscalar : isScalar prog = true) :
    ∃ img, imageOf source = .ok img ∧ img.Follows fun n => (run prog n).observed := by
  have hacc := Bytecode.accepted_of_source h
  obtain ⟨obj, hobj, himg⟩ := Bytecode.imageOf_isOk h (isScalar_inlineFree hscalar)
  refine ⟨obj.image, himg, ?_⟩
  have hfollows := (Bytecode.follows_of_emit hacc.entered.nodup hobj hacc.main).succ
  simpa only [((run_sim hacc hscalar _).observed (Routine.close_ne_ret _ _)).1] using hfollows

theorem run_result (h : checkedProgram source = .ok prog) (hscalar : isScalar prog = true) (n : Nat) :
    (∃ v, (run prog n).result = .ok v) ∨ (run prog n).result = .error .divisionByZero ∨
      (run prog n).result = .error .outOfFuel := by
  obtain ⟨-, hreturned, hstuck⟩ :=
    (run_sim (Bytecode.accepted_of_source h) hscalar n).observed (Routine.close_ne_ret _ _)
  rcases hr : (run prog n).result with (v | _ | _ | _) | v
  · exact absurd hr (hreturned v)
  · exact .inr (.inl rfl)
  · exact absurd hr hstuck
  · exact .inr (.inr rfl)
  · exact .inl ⟨v, rfl⟩

namespace Eval

variable {m : Eval Int} {out : List String}

theorem observed_exit {v : Int} : m.observed = ⟨out, some (.exit v)⟩ ↔ m = ⟨out, .ok v⟩ := by
  obtain ⟨o, (_ | _ | _ | _) | _⟩ := m <;> simp [observed]

theorem observed_fault : m.observed = ⟨out, some (.fault .divisionByZero)⟩ ↔ m = ⟨out, .error .divisionByZero⟩ := by
  obtain ⟨o, (_ | _ | _ | _) | _⟩ := m <;> simp [observed]

end Eval

/-- Correctness of the code of scalar programs. The image ends with a value, or with a division by zero, exactly when
the program does, after the same prints; it ends in no other way, and all along it prints what the program prints. If no
fuel is enough for the program, the image runs for ever. -/
theorem compiled_correctly (h : checkedProgram source = .ok prog) (hscalar : isScalar prog = true) :
    ∃ img, imageOf source = .ok img ∧
      (∀ out v, img.Ends out (.exit v) ↔ ∃ n, run prog n = ⟨out, .ok v⟩) ∧
      (∀ out, img.Ends out (.fault .divisionByZero) ↔ ∃ n, run prog n = ⟨out, .error .divisionByZero⟩) ∧
      (∀ out e, img.Ends out e → (∃ v, e = .exit v) ∨ e = .fault .divisionByZero) ∧
      (∀ out, img.Prints out ↔ ∃ n, out <+: (run prog n).out) ∧
      ∀ n, (∃ v, (run prog n).result = .ok v) ∨ (run prog n).result = .error .divisionByZero ∨
        (run prog n).result = .error .outOfFuel := by
  obtain ⟨img, himg, hfollows⟩ := follows_run h hscalar
  refine ⟨img, himg, fun out v => ?_, fun out => ?_, fun out e he => ?_, fun out => hfollows.prints_iff,
    run_result h hscalar⟩
  · simp only [hfollows.ends_iff, Eval.observed_exit]
  · simp only [hfollows.ends_iff, Eval.observed_fault]
  · obtain ⟨n, hn⟩ := hfollows.ends_iff.1 he
    generalize run prog n = m at hn
    obtain ⟨_, (_ | _ | _ | _) | v⟩ := m <;> cases hn
    · exact .inr rfl
    · exact .inl ⟨v, rfl⟩

/-- Prints factorials until it divides by zero. -/
def factorials : String :=
  "fn f(n: int): int \x7b if (n < 2) \x7b return 1; \x7d return n * f(n - 1); \x7d
fn main(): int \x7b let i: int = 6; while (i > 0) \x7b print(f(i)); i = i - 3; \x7d return 1 / i; \x7d"

set_option maxRecDepth 1000 in
theorem factorials_run : ∃ prog, checkedProgram factorials = .ok prog ∧ isScalar prog = true ∧
    run prog 9 = ⟨["720", "6"], .error .divisionByZero⟩ := by
  rw [checkedProgram, show Token.tokens factorials = _ from Token.tokens_ofList _]
  decide +kernel

theorem factorials_divide : ∃ prog img, checkedProgram factorials = .ok prog ∧ isScalar prog = true ∧
    imageOf factorials = .ok img ∧ img.Ends ["720", "6"] (.fault .divisionByZero) := by
  obtain ⟨prog, hprog, hscalar, hrun⟩ := factorials_run
  obtain ⟨img, himg, -, hfault, -⟩ := compiled_correctly hprog hscalar
  exact ⟨prog, img, hprog, hscalar, himg, (hfault _).2 ⟨9, hrun⟩⟩

end Programs

end Workbench.Scalar
