import Workbench.Proofs.CallStack
import Workbench.Proofs.Sealed
import Workbench.Proofs.WordRange

/-!
# The faults of compiled programs

Code that is compiled has the operands of its instructions in range (`exists_instr`), puts no negative number on the
stack, and keeps account of the stack (`Shape.Even`). So a program in which every function has a value of its own
never lacks operands (`no_underflow`), and of all faults only those remain that depend on values: a zero divisor, and
places outside the cells of a call (`Tolerated`). That is the main statement, `faults_tolerated`.
-/

namespace Workbench

theorem Ty.eq_void_of_ofName {name : String} (h : Ty.ofName name = .void) : name = "void" := by
  unfold Ty.ofName at h
  split at h
  · cases h
  · repeat' split at h
    all_goals simp_all

namespace Machine

/-- A fault that depends on values: division by zero, or a place outside the cells. -/
inductive Tolerated : Op → Fault → Prop
  | divisionByZero : Tolerated .div .divisionByZero
  | loadElement (e : BadIndex) : Tolerated .loadLocalIdx (.ofRead e)
  | storeElement (base index : Int) (size : Nat) : Tolerated .storeLocalIdx (.storeElement base index size)
  | loadIndirect (cell : Int) (size : Nat) : Tolerated .loadIndirect (.loadIndirect cell size)
  | storeIndirect (cell : Int) (size : Nat) : Tolerated .storeIndirect (.storeIndirect cell size)
  | copyRange (src dst count : Int) (size : Nat) : Tolerated .memcpyLocals (.copyRange src dst count size)
  | fillRange (dst count : Int) (size : Nat) : Tolerated .memsetLocals (.fillRange dst count size)

/-- The fault of an instruction that has its operands, in a frame that admits it. -/
theorem Faults.tolerated {img : Image} {k : Nat} {f : FunctionInfo} {pc : Int} {i : Instr} {s : State} {e : Fault}
    {num : Int → Prop} (h : Faults img i s e) (hadmits : img.Admits k f pc i)
    (hsize : (s.locals.size : Int) = f.numLocals) (hproper : i.Proper num) (hstack : ∀ v ∈ s.stack, 0 ≤ v)
    (hshort : e.isUnderflow = false) : Tolerated i.op e := by
  cases h with
  | short | arguments => cases hshort
  | noOperand hop harg =>
    have hsome := hproper.arg hop
    simp [harg] at hsome
  | read hop harg he =>
    obtain ⟨c, hc⟩ := hadmits.exists_cell hsize (.inl hop) harg
    simp [hc] at he
  | write hop harg he =>
    obtain ⟨c, hc⟩ := hadmits.exists_cell hsize (.inr hop) harg
    simp [hc] at he
  | function hop harg he =>
    obtain ⟨m, hm, hlt⟩ := hadmits.call hop
    cases harg.symm.trans hm
    simp [Image.function_of_get (Array.getElem?_eq_getElem hlt)] at he
  | divisionByZero hop => exact hop ▸ .divisionByZero
  | loadElement e hop => exact hop ▸ .loadElement e
  | storeElement base index hop => exact hop ▸ .storeElement base index _
  | loadIndirect cell hop => exact hop ▸ .loadIndirect cell _
  | storeIndirect cell hop => exact hop ▸ .storeIndirect cell _
  | copyNegative _ hmem hneg | fillNegative _ hmem hneg => exact absurd (hstack _ hmem) (by omega)
  | copyRange src dst count hop => exact hop ▸ .copyRange src dst count _
  | fillRange dst count hop => exact hop ▸ .fillRange dst count _
  | unknownOp hop => exact absurd hop (hproper.known _)

theorem lasting_nonneg : Lasting (0 ≤ ·) where
  wrap n := by
    unfold wrap
    omega
  fdiv _ _ ha hb _ := Int.fdiv_nonneg ha hb

end Machine

namespace Bytecode

open Machine (Image Fault State step step_of_fetch execute_faults Tolerated)
open Typing (Note)

section Accepted

variable {prog : Program Note} {obj : Object}

theorem returning_of_accepted (hacc : Typing.Accepted prog) (hvalued : prog.valued = true)
    (hvoid : ∀ f ∈ prog.functions, f.returnType ≠ some "void") : prog.returning = true := by
  simp only [Program.valued, List.all_eq_true, Bool.and_eq_true, decide_eq_true_eq] at hvalued
  simp only [Program.returning, List.all_eq_true, Bool.or_eq_true]
  intro f hf
  cases hname : f.returnType with
  | none => exact .inl rfl
  | some name =>
    refine .inr ((hacc.checked f hf).returns.resolve_left fun hresult => ?_)
    have hempty : name ≠ "" := by
      rintro rfl
      exact (hvalued f hf).2 hname
    have hofName : Ty.ofName name = .void := by
      simpa [Typing.Signatures.ofFunction, hname, Ty.written?, Option.filter, hempty] using hresult
    rw [Ty.eq_void_of_ofName hofName] at hname
    exact hvoid f hf hname

theorem pushes_of_emit (hnodup : (names prog).Nodup) (h : emit prog = .ok obj) (hvalued : prog.valued = true)
    (hfree : prog.inlineFree = true) : obj.image.Pushes (0 ≤ ·) := by
  intro i hi hop n hn
  obtain ⟨a, ha⟩ := Array.mem_iff_getElem?.1 hi
  have hlt : a < obj.image.code.size := (Array.getElem?_eq_some_iff.1 ha).1
  obtain ⟨k, f, hk, hle, hend⟩ := Image.exists_owner (entryOf_zero h) (Int.natCast_nonneg a) (by omega)
  obtain ⟨j, hj, -, hproper⟩ := exists_instr hnodup h hvalued (0 ≤ ·) (fun _ => id) (.inl hfree) hk hle hend
  obtain rfl : i = j := by simpa using (Image.fetch_of_code ha).symm.trans hj
  exact hproper.push hop n hn

variable {e : Fault} {s t : State}

theorem Result.flow_of_observed {r : Result (Int × List Int)} (h : r.observed.ending = some (.fault e)) :
    r.flow = .fault e := by
  unfold Result.observed at h
  dsimp only at h
  split at h <;> cases h
  assumption

/-- **No run lacks operands**, if every function has a value of its own. -/
theorem no_underflow (hacc : Typing.Accepted prog) (hvalued : prog.valued = true) (hfree : prog.inlineFree = true)
    (hret : prog.returning = true) (h : emit prog = .ok obj) (hs : obj.image.Reaches s)
    (hstep : step obj.image s = .fault e t) : e.isUnderflow = false := by
  obtain ⟨f, n, out, hm, hrun⟩ := hs
  have hending : s.ending? obj.image = some (.fault e) := by simp [State.ending?, hstep]
  have hends := (Image.ends_iff hm).2 ⟨n, s, hrun, hending⟩
  obtain ⟨k, hk⟩ := (follows_of_emit hacc.entered.nodup h hacc.main).ends_iff.1 hends
  have hlib := library_even hacc hvalued hfree (rfl : (true || prog.quiet) = true)
  have hshort := (Shape.Even.exec hlib k _ (hlib _ hacc.main) ((library prog).routine "main").string
    ⟨[], Array.replicate ((library prog).routine "main").size 0⟩).close_short ((library prog).routine "main")
  have htaken := call_lacks (e := .taken) hacc (by simp) (by simp) (fun _ => hret) hacc.main k
    ⟨[], Array.replicate ((library prog).routine "main").size 0⟩
  rw [← Routine.start] at hshort htaken
  generalize ((library prog).routine "main").start (library prog) k = r at *
  by_contra hu
  have hcount := hshort e (Result.flow_of_observed (congrArg (·.ending) hk)) (by simpa using hu)
  rw [List.count_eq_zero.2 htaken] at hcount
  simp at hcount

theorem step_tolerated (hacc : Typing.Accepted prog) (hvalued : prog.valued = true) (hfree : prog.inlineFree = true)
    (hret : prog.returning = true) (h : emit prog = .ok obj) (hs : obj.image.Reaches s)
    (hstep : step obj.image s = .fault e t) : ∃ i, obj.image.fetch s.pc = .ok i ∧ Tolerated i.op e := by
  have hnodup := hacc.entered.nodup
  have hunderflow := no_underflow hacc hvalued hfree hret h hs hstep
  have hnonneg := (hs.all Machine.lasting_nonneg (pushes_of_emit hnodup h hvalued hfree)).stack
  obtain ⟨ks, hactive⟩ := Image.reaches_iff_active.1 hs
  have hwithin := (sealed_of_emit hnodup hvalued h).within hactive
  cases hwithin with
  | cons hcurrent _ =>
    obtain ⟨f, hf, hle, hlt, hsize⟩ := hcurrent
    obtain ⟨i, hi, hadmits, hproper⟩ := exists_instr hnodup h hvalued (0 ≤ ·) (fun _ => id) (.inl hfree) hf hle hlt
    rw [step_of_fetch hi] at hstep
    exact ⟨i, hi, (execute_faults hstep).tolerated hadmits hsize hproper hnonneg hunderflow⟩

end Accepted

/-- **The faults of compiled programs** without machine instructions, in which every function has a value of its own: in
any state of a run only divisions by zero and accesses outside the cells of the call cannot be carried out; so a run
ends with a value, at the will of its watcher, at its step limit, or with such a fault. -/
theorem faults_tolerated {source : String} {prog : Program Note} (h : checkedProgram source = .ok prog)
    (hfree : prog.inlineFree = true) (hvoid : ∀ f ∈ prog.functions, f.returnType ≠ some "void") :
    ∃ img, imageOf source = .ok img ∧
      (∀ s t e, img.Reaches s → step img s = .fault e t → ∃ i, img.fetch s.pc = .ok i ∧ Tolerated i.op e) ∧
      ∀ limit watch, (∃ v, (img.run limit watch).ending = .exit v) ∨ (img.run limit watch).ending = .stopped ∨
        (img.run limit watch).ending = .stepLimit ∨
        ∃ op e, Tolerated op e ∧ (img.run limit watch).ending = .fault e := by
  have hacc := accepted_of_source h
  have hvalued := valued_of_source h
  have hret := returning_of_accepted hacc hvalued hvoid
  obtain ⟨obj, hobj, himg⟩ := imageOf_isOk h hfree
  have hfault := fun s t e => step_tolerated hacc hvalued hfree hret hobj (s := s) (t := t) (e := e)
  refine ⟨obj.image, himg, hfault, fun limit watch => ?_⟩
  rcases obj.image.run_reaches limit watch with hstop | hlimit | ⟨hmain, -⟩ | ⟨s, hs, hending⟩
  · exact .inr (.inl hstop)
  · exact .inr (.inr (.inl hlimit))
  · obtain ⟨info, hinfo, -⟩ := main?_of_emit hacc.entered.nodup hobj hacc.main
    rw [hmain] at hinfo
    cases hinfo
  · unfold State.ending? at hending
    split at hending
    case h_1 => cases hending
    case h_2 v t _ => exact .inl ⟨v, by simpa using hending.symm⟩
    case h_3 e t hstep =>
      obtain ⟨i, -, htolerated⟩ := hfault s t e hs hstep
      exact .inr (.inr (.inr ⟨i.op, e, htolerated, by simpa using hending.symm⟩))

/-- Divides by zero, after a value was left on the stack and a call was made within an expression. -/
def halves : String :=
  "fn half(n: int): int \x7b n; return n / 2; \x7d " ++
    "fn main(): int \x7b let a: int[2]; a[1] = half(9); half(6); return 1 + a[1] / half(1); \x7d"

theorem halves_tolerated : ∃ prog img, checkedProgram halves = .ok prog ∧ prog.inlineFree = true ∧
    (∀ f ∈ prog.functions, f.returnType ≠ some "void") ∧ imageOf halves = .ok img ∧
    img.Ends [] (.fault .divisionByZero) ∧
    ∀ s t e, img.Reaches s → step img s = .fault e t → ∃ i, img.fetch s.pc = .ok i ∧ Tolerated i.op e := by
  obtain ⟨prog, hprog, hfree, hvoid, img', himg', hends⟩ : ∃ prog, checkedProgram halves = .ok prog ∧
      prog.inlineFree = true ∧ (∀ f ∈ prog.functions, f.returnType ≠ some "void") ∧ ∃ img, imageOf halves = .ok img ∧
        (img.run 60 {}).ending = .fault .divisionByZero ∧ (img.run 60 {}).run.out = [] := by decide +kernel
  obtain ⟨img, himg, hfaults, -⟩ := faults_tolerated hprog hfree hvoid
  obtain rfl : img = img' := by simpa using himg.symm.trans himg'
  exact ⟨prog, img, hprog, hfree, hvoid, himg, ⟨by simp, 60, hends⟩, hfaults⟩

end Bytecode

end Workbench
