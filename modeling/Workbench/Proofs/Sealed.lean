import Workbench.Proofs.Frames
import Workbench.Proofs.Link
import Workbench.Proofs.Slots

/-!
# Generated code is sealed

The code of a shape is written between two addresses, and its jumps stay between them (`Shape.written`). The
instructions that come from the source name cells of the function that they are written for
(`View.stmts_writes`). The code of each function ends with a return, and the next function starts right after it. So
the image of a program is sealed (`sealed_of_emit`), and what holds of the frames of sealed images holds of every
run of a compiled program.
-/

open List

namespace Workbench.Bytecode

open Machine (Instr Op Image FunctionInfo step step_of_fetch execute_exit)
open Typing (Note)

/-! ### The instructions of a shape -/

namespace Shape

def All (P : Instr → Prop) : Shape → Prop
  | .instr i => P i
  | .seq a b | .branch a b | .loop a b => a.All P ∧ b.All P
  | .circuit _ a | .drop a => a.All P
  | .skip | .text _ | .say .. | .call _ | .ret => True

/-- An instruction in the code of a shape that stands between `lo` and `hi`. -/
inductive Written (P : Instr → Prop) (number : String → Nat) (known : String → Prop) (lo hi : Nat) : Instr → Prop
  | plain {i : Instr} (hplain : i.op.isPlain = true) (hP : P i) : Written P number known lo hi i
  | push (n : Nat) : Written P number known lo hi ⟨.pushInt, some (n : Int)⟩
  | print (newline : Bool) : Written P number known lo hi ⟨printOp newline .str, none⟩
  | jump {op : Op} {target : Nat} (hop : op = .jmp ∨ op = .jz ∨ op = .jnz) (hlo : lo ≤ target) (hhi : target ≤ hi) :
      Written P number known lo hi ⟨op, some (target : Int)⟩
  | call {f : String} (hf : known f) : Written P number known lo hi ⟨.call, some (number f : Int)⟩
  | ret : Written P number known lo hi ⟨.ret, none⟩

variable {P : Instr → Prop} {number : String → Nat} {known : String → Prop}

theorem Written.mono {lo hi lo' hi' : Nat} {i : Instr} (h : Written P number known lo hi i) (hlo : lo' ≤ lo)
    (hhi : hi ≤ hi') : Written P number known lo' hi' i := by
  cases h with
  | plain hplain hP => exact .plain hplain hP
  | push n => exact .push n
  | print newline => exact .print newline
  | jump hop hlo' hhi' => exact .jump hop (hlo.trans hlo') (hhi'.trans hhi)
  | call hf => exact .call hf
  | ret => exact .ret

theorem Written.jumpOn {lo hi target : Nat} (d : Bool) (hlo : lo ≤ target) (hhi : target ≤ hi) :
    Written P number known lo hi ⟨Shape.jumpOn d, some (target : Int)⟩ :=
  .jump (by cases d <;> simp [Shape.jumpOn]) hlo hhi

theorem Written.pushBool {lo hi : Nat} (b : Bool) :
    Written P number known lo hi ⟨.pushInt, some (Machine.ofBool b)⟩ := by
  cases b
  · exact .push 0
  · exact .push 1

variable (number) in
/-- The code of a shape jumps only within itself, and up to its end. -/
theorem written {s : Shape} : s.All P → s.Fits known → ∀ pc k, ∀ i ∈ s.codeAt number pc k,
    Written P number known pc (pc + (s.codeAt number pc k).length) i := by
  induction s with
  | skip => exact fun _ _ pc k i hi => absurd hi not_mem_nil
  | instr j =>
    intro hP hfits pc k i hi
    obtain rfl := mem_singleton.1 hi
    exact .plain hfits hP
  | text s =>
    intro _ _ pc k i hi
    obtain rfl := mem_singleton.1 hi
    exact .push k
  | say newline s =>
    intro _ _ pc k i hi
    rcases mem_cons.1 hi with rfl | hi
    · exact .push k
    · obtain rfl := mem_singleton.1 hi
      exact .print newline
  | call f =>
    intro _ hfits pc k i hi
    obtain rfl := mem_singleton.1 hi
    exact .call hfits
  | ret =>
    intro _ _ pc k i hi
    obtain rfl := mem_singleton.1 hi
    exact .ret
  | drop s ih => exact ih
  | seq s t ihs iht =>
    intro hP hfits pc k i hi
    rw [codeAt_seq] at hi ⊢
    rw [length_append]
    rcases mem_append.1 hi with hi | hi
    · exact (ihs hP.1 hfits.1 pc k i hi).mono le_rfl (by omega)
    · exact (iht hP.2 hfits.2 _ _ i hi).mono (by omega) (by omega)
  | circuit d s ih =>
    intro hP hfits pc k i hi
    rw [codeAt_circuit] at hi ⊢
    simp only [mem_cons, mem_append, not_mem_nil, or_false] at hi
    simp only [length_cons, length_append]
    rcases hi with rfl | hi | rfl | rfl | rfl | rfl
    · exact .jumpOn d (by omega) (by omega)
    · exact (ih hP hfits _ _ i hi).mono (by omega) (by omega)
    · exact .jumpOn d (by omega) (by omega)
    · exact .pushBool _
    · exact .jump (.inl rfl) (by omega) (by omega)
    · exact .pushBool _
  | branch s t ihs iht =>
    intro hP hfits pc k i hi
    rw [codeAt_branch] at hi ⊢
    simp only [mem_cons, mem_append] at hi
    simp only [length_cons, length_append]
    rcases hi with rfl | hi | rfl | hi
    · exact .jumpOn false (by omega) (by omega)
    · exact (ihs hP.1 hfits.1 _ _ i hi).mono (by omega) (by omega)
    · exact .jump (.inl rfl) (by omega) (by omega)
    · exact (iht hP.2 hfits.2 _ _ i hi).mono (by omega) (by omega)
  | loop s t ihs iht =>
    intro hP hfits pc k i hi
    rw [codeAt_loop] at hi ⊢
    simp only [mem_cons, mem_append, not_mem_nil, or_false] at hi
    simp only [length_cons, length_append]
    rcases hi with hi | rfl | hi | rfl
    · exact (ihs hP.1 hfits.1 _ _ i hi).mono (by omega) (by omega)
    · exact .jumpOn false (by omega) (by omega)
    · exact (iht hP.2 hfits.2 _ _ i hi).mono (by omega) (by omega)
    · exact .jump (.inl rfl) (by omega) (by omega)

end Shape

/-! ### The instructions of a function -/

namespace Slots

/-- An instruction that names cells of the frame, and pushes a number that satisfies `num` if it pushes one. -/
def Writes (slots : Slots) (num : Int → Prop) (i : Instr) : Prop :=
  match i.op with
  | .pushInt => ∃ n, i.arg = some n ∧ num n
  | .loadLocal | .storeLocal => ∃ k : Nat, i.arg = some (k : Int) ∧ k < slots.size
  | .loadLocalIdx | .storeLocalIdx => i.arg.isSome = true
  | .jmp | .jz | .jnz | .call | .ret | .other _ => False
  | _ => True

/-- The cells of the variables lie in the frame, and every variable has one. -/
structure Framed (s : Slots) : Prop extends s.Sound where
  pos : ∀ x, 0 < s.width x

theorem Framed.lt {s : Slots} (h : s.Framed) {x : String} {k : Nat} (hk : s.cell? x = some k) : k < s.size := by
  have hbound := h.bound x k hk
  have hpos := h.pos x
  omega

theorem arrayLength?_pos {t : String} {n : Nat} (h : Ty.arrayLength? t = some n) : 0 < n := by
  unfold Ty.arrayLength? at h
  split at h
  · split at h
    · cases h
      omega
    · cases h
  · cases h

theorem framed_ofFunction {α : Type} (f : Function α) : (ofFunction f).Framed where
  toSound := sound_ofFunction f
  pos := by
    intro x
    rw [width, length?_ofFunction]
    cases hn : ((declsOf f).lookup x).bind (·.bind Ty.arrayLength?) with
    | none => exact Nat.one_pos
    | some n =>
      obtain ⟨w, -, hw⟩ := Option.bind_eq_some_iff.1 hn
      obtain ⟨t, -, ht⟩ := Option.bind_eq_some_iff.1 hw
      exact arrayLength?_pos ht

end Slots

section Writes

variable {v : View} {num : Int → Prop}

/-- The instructions of `I` among those of a shape. -/
theorem View.closed_all (v : View) (I : Instr → Prop) : v.ClosedAll I (Shape.All I) where
  skip := trivial
  instr _ hi := hi
  call _ _ := trivial
  seq ha hb := ⟨ha, hb⟩
  circuit ha := ha
  ret := trivial
  branch ha hb := ⟨ha, hb⟩
  loop ha hb := ⟨ha, hb⟩
  drop ha := ha

theorem Slots.Emits.writes {s : Slots} {neg : Prop} {xs ds : List String} {i : Instr} (h : s.Emits neg xs ds i)
    (hs : s.Framed) (hnum : ∀ n, neg ∨ 0 ≤ n → num n) (hds : ∀ x ∈ ds, (s.cell? x).isSome = true) :
    s.Writes num i := by
  cases h with
  | op ho =>
    have hall : ∀ o ∈ bareOps, s.Writes num ⟨o, none⟩ := by simp [bareOps, Writes]
    exact hall _ ho
  | push hn => exact ⟨_, rfl, hnum _ hn⟩
  | load hk | store _ hk => exact ⟨_, rfl, hs.lt hk⟩
  | loadElement | storeElement => rfl
  | @declare x j _ hd hj =>
    obtain ⟨k, hk⟩ := Option.isSome_iff_exists.1 (hds x hd)
    have hbound := hs.bound x k hk
    exact ⟨_, rfl, by rw [hk, Option.getD_some]; omega⟩

/-- The code of statements names cells of the frame. What it pushes is not negative, unless machine instructions push
it. -/
theorem View.stmts_writes (hnum : ∀ n, 0 ≤ n → num n) (hslots : v.slots.Framed) (ss : List (Stmt Note))
    (hvalued : Stmt.allValued ss = true) (hinline : Stmt.allInlineFree ss = true ∨ ∀ n, num n)
    (hdecls : ∀ d ∈ Stmt.decls ss, (v.slots.cell? d.1).isSome = true) : (v.stmts ss).All (v.slots.Writes num) := by
  have hemits : v.ClosedAll (v.slots.Emits (∀ n, num n) (Stmt.stored ss) ((Stmt.decls ss).map (·.1)))
      (Shape.All (v.slots.Writes num)) :=
    { v.closed_all (v.slots.Writes num) with
      instr := fun i hi => hi.writes hslots (fun n hn => hn.elim (· n) (hnum n)) (by simpa using hdecls) }
  refine hemits.stmts ss (hinline.symm.imp_right fun h => ⟨hvalued, h⟩) (List.Subset.refl _)
    (fun d => mem_map_of_mem) (.inl ⟨fun _ => trivial, fun _ _ => trivial, fun newline => ?_⟩)
  cases newline <;> trivial

end Writes

/-! ### The ranges of functions -/

theorem Routine.closing_length_pos (r : Routine) : 0 < r.closing.length := by
  unfold Routine.closing
  split <;> simp

theorem Routine.closing_get (r : Routine) {d : Nat} {i : Instr} (h : r.closing[d]? = some i) :
    i = ⟨.ret, none⟩ ∨ i = ⟨.pushInt, some 0⟩ ∧ d + 1 < r.closing.length := by
  unfold Routine.closing at h ⊢
  split at h
  · obtain ⟨rfl, rfl⟩ : d = 0 ∧ i = ⟨.ret, none⟩ := by
      cases d with
      | zero => simpa [eq_comm] using h
      | succ d => simp at h
    exact .inl rfl
  · rcases d with _ | _ | d
    · cases h
      simp [*]
    · cases h
      exact .inl rfl
    · simp at h

section Emitted

variable {prog : Program Note} {obj : Object}

variable {info : FunctionInfo} {k lo hi : Nat} {slots : Slots} {i : Instr} {pc : Int}

/-- Instructions between the entry of a function and its last instruction keep control in it. -/
theorem Shape.Written.admits {num : Int → Prop} {number : String → Nat} {known : String → Prop} {img : Image}
    (h : Written (slots.Writes num) number known lo hi i) (hentry : info.entry = lo)
    (hsize : info.numLocals = slots.size) (hknown : ∀ f, known f → number f < img.functions.size)
    (hhi : (hi : Int) < img.entryOf (k + 1)) (hnext : i.op ≠ .ret → pc + 1 < img.entryOf (k + 1)) :
    img.Admits k info pc i := by
  cases h with
  | @plain i hplain hP =>
    obtain ⟨op, arg⟩ := i
    refine ⟨fun hop => ?_, fun hop => ?_, fun hop => ?_, fun _ => hnext⟩
    · rcases hop with rfl | rfl | rfl <;> cases hplain
    · cases hop
      cases hplain
    · have hcell : ∃ k : Nat, arg = some k ∧ k < slots.size := by
        rcases hop with rfl | rfl <;> exact hP
      obtain ⟨n, harg, hn⟩ := hcell
      exact ⟨n, harg, by omega⟩
  | push n => exact ⟨by simp, by simp, by simp, fun _ => hnext⟩
  | print newline => exact ⟨by cases newline <;> simp [printOp], by cases newline <;> simp [printOp],
      by cases newline <;> simp [printOp], fun _ => hnext⟩
  | @jump op target hop hlo hhi' =>
    refine ⟨fun _ => ⟨target, rfl, by omega, by omega⟩, ?_, ?_, fun _ => hnext⟩
    · rcases hop with rfl | rfl | rfl <;> simp
    · rcases hop with rfl | rfl | rfl <;> simp
  | call hf => exact ⟨by simp, fun _ => ⟨_, rfl, hknown _ hf⟩, by simp, fun _ => hnext⟩
  | ret => exact ⟨by simp, by simp, by simp, by simp⟩

theorem Shape.Written.proper {num : Int → Prop} (hnum : ∀ n, 0 ≤ n → num n) {number : String → Nat}
    {known : String → Prop} (h : Written (slots.Writes num) number known lo hi i) : i.Proper num := by
  cases h with
  | @plain i hplain hP =>
    obtain ⟨op, arg⟩ := i
    refine ⟨?_, fun hop => ?_, ?_⟩
    · rintro name rfl
      exact hP
    · cases op
      case pushInt | loadLocal | storeLocal =>
        obtain ⟨n, rfl, -⟩ := hP
        rfl
      case loadLocalIdx | storeLocalIdx => exact hP
      case jmp | jz | jnz | call => exact hP.elim
      all_goals cases hop
    · rintro rfl n hn
      obtain ⟨m, rfl, hm⟩ := hP
      cases hn
      exact hm
  | push n =>
    refine ⟨by simp, fun _ => rfl, ?_⟩
    rintro - _ ⟨⟩
    exact hnum n (Int.natCast_nonneg n)
  | print newline => cases newline <;> exact ⟨by simp [printOp], by simp [printOp, Op.needsArg], by simp⟩
  | jump hop => rcases hop with rfl | rfl | rfl <;> exact ⟨by simp, fun _ => rfl, by simp⟩
  | call hf => exact ⟨by simp, fun _ => rfl, by simp⟩
  | ret => exact ⟨by simp, by simp [Op.needsArg], by simp⟩

theorem entryOf_image (obj : Object) (k : Nat) : obj.image.entryOf k = entryAt obj.functions obj.code.length k := by
  simp only [Image.entryOf, Object.image, entryAt, getElem?_toArray, getElem?_map]
  cases obj.functions[k]? <;> rfl

/-- The function with a given number in the image of a program, with its routine and the range of its code. -/
theorem exists_range (hnodup : (names prog).Nodup) (h : emit prog = .ok obj)
    (hk : obj.image.functions[k]? = some info) : ∃ f ∈ prog.functions, ∃ known j pc, known ⊆ names prog ∧
      info = ⟨f.name, (pc : Nat), (Slots.ofFunction f).size, f.params.length⟩ ∧
      (routineOf known j f).Placed obj.image (library prog) (fun g => (names prog).idxOf g) (· ∈ names prog) pc ∧
      obj.image.entryOf (k + 1) = (pc + ((routineOf known j f).body.codeAt (fun g => (names prog).idxOf g) pc j ++
        (routineOf known j f).closing).length : Nat) := by
  obtain ⟨hname, rfl⟩ := idxOf_image hnodup h hk
  obtain ⟨f, hf, hfname⟩ := exists_function hname
  obtain ⟨q, r, body, rfl, rfl, hget, hinfo, -, hplaced, hnext⟩ := exists_placed hnodup h hf
  refine ⟨f, mem_of_getElem? hf, _, q.string, q.pc, take_subset _ _, ?_, hplaced, ?_⟩
  · simpa [Object.image, hinfo, eq_comm] using hk
  · rw [entryOf_image, hnext]
    simp [Shape.codeAt, code_closingCode ((names prog).take ((names prog).idxOf info.name + 1)) q.string]

theorem idxOf_lt_size (h : emit prog = .ok obj) {f : String} (hf : f ∈ names prog) :
    (names prog).idxOf f < obj.image.functions.size := by
  rw [← Array.length_toList, ← length_map (·.name), names_image h]
  exact idxOf_lt_length_iff.2 hf

/-- In the code of a function stand instructions that the function admits. -/
theorem exists_instr (hnodup : (names prog).Nodup) (h : emit prog = .ok obj) (hvalued : prog.valued = true)
    (num : Int → Prop) (hnum : ∀ n, 0 ≤ n → num n) (hinline : prog.inlineFree = true ∨ ∀ n, num n)
    (hk : obj.image.functions[k]? = some info) (hle : info.entry ≤ pc) (hlt : pc < obj.image.entryOf (k + 1)) :
    ∃ i, obj.image.fetch pc = .ok i ∧ obj.image.Admits k info pc i ∧ i.Proper num := by
  obtain ⟨f, hf, known, j, entry, hknown, rfl, hplaced, hnext⟩ := exists_range hnodup h hk
  simp only [Program.valued, Program.inlineFree, all_eq_true, Bool.and_eq_true] at hvalued hinline
  have hwrites : (routineOf known j f).body.All ((Slots.ofFunction f).Writes num) :=
    View.stmts_writes (v := ⟨.ofFunction f, known.contains⟩) hnum (Slots.framed_ofFunction f) f.body (hvalued f hf).1
      (hinline.imp_left fun hfree => hfree f hf)
      fun _ hd => (Slots.isSome_cell?_iff f _).2 (mem_map_of_mem (mem_append_right _ hd))
  have hwritten := Shape.written (fun g => (names prog).idxOf g) hwrites hplaced.fits entry j
  have hcode := hplaced.code
  rw [routineOf_string] at hcode
  generalize (routineOf known j f).body.codeAt (fun g => (names prog).idxOf g) entry j = body at *
  have hclosing := (routineOf known j f).closing_length_pos
  rw [length_append] at hnext
  rw [hnext] at hlt
  -- The address is that of the `d`-th instruction of the function.
  obtain ⟨d, rfl⟩ : ∃ d : Nat, pc = (entry + d : Nat) := ⟨(pc - entry).toNat, by dsimp only at hle; omega⟩
  have hd : d < (body ++ (routineOf known j f).closing).length := by
    rw [length_append]
    omega
  obtain ⟨i, hi⟩ : ∃ i, (body ++ (routineOf known j f).closing)[d]? = some i := ⟨_, getElem?_eq_getElem hd⟩
  obtain ⟨hwritten, hlast⟩ : Shape.Written ((Slots.ofFunction f).Writes num) (fun g => (names prog).idxOf g)
      (· ∈ names prog) entry (entry + body.length) i ∧
      (i.op ≠ .ret → ((entry + d : Nat) : Int) + 1 < obj.image.entryOf (k + 1)) := by
    rcases Nat.lt_or_ge d body.length with hbody | hbody
    · rw [getElem?_append_left hbody] at hi
      exact ⟨hwritten i (mem_of_getElem? hi), fun _ => by omega⟩
    · rw [getElem?_append_right hbody] at hi
      rcases (routineOf known j f).closing_get hi with rfl | ⟨rfl, hlast⟩
      · exact ⟨.ret, fun hret => absurd rfl hret⟩
      · exact ⟨.push 0, fun _ => by omega⟩
  exact ⟨i, Image.fetch_of_code (by rw [hcode d hd, hi]),
    hwritten.admits rfl rfl (fun g hg => idxOf_lt_size h hg) (by omega) hlast, hwritten.proper hnum⟩

/-- **The image of a program is sealed.** -/
theorem sealed_of_emit (hnodup : (names prog).Nodup) (hvalued : prog.valued = true) (h : emit prog = .ok obj) :
    obj.image.Sealed := by
  refine ⟨fun k info hk => ?_, fun k info pc hk hle hlt => ?_⟩
  · obtain ⟨f, -, known, j, pc, -, rfl, -, hnext⟩ := exists_range hnodup h hk
    rw [hnext]
    dsimp only
    have hclosing := (routineOf known j f).closing_length_pos
    rw [length_append]
    exact ⟨by omega, Int.natCast_nonneg _⟩
  · obtain ⟨i, hi, hadmits, -⟩ := exists_instr hnodup h hvalued (fun _ => True) (fun _ _ => trivial)
      (.inr fun _ => trivial) hk hle hlt
    exact ⟨i, hi, hadmits⟩

theorem entryOf_zero (h : emit prog = .ok obj) : obj.image.entryOf 0 = 0 := by
  rw [entryOf_image]
  simp only [emit, bind_eq_ok] at h
  obtain ⟨⟨c, infos⟩, hc, h⟩ := h
  cases h
  cases hfs : prog.functions with
  | nil =>
    rw [hfs] at hc
    cases hc
    rfl
  | cons f fs =>
    simp only [hfs, functionsCode, bind_eq_ok] at hc
    obtain ⟨body, -, ⟨cs, infos'⟩, -, hc⟩ := hc
    cases hc
    rfl

end Emitted

/-- **Control flow and frames of compiled code.** The functions share out the code. In every state of a run of `main`
each frame is in the code of its function and has the cells of that function; so there is a next instruction, it belongs
to the function on top, its jumps and calls are in range, and a load or a store of a cell finds the cell. -/
theorem frame_integrity {source : String} {img : Image} (h : imageOf source = .ok img) :
    (img.entryOf 0 = 0 ∧ (∀ k f, img.functions[k]? = some f → f.entry = img.entryOf k ∧ f.entry < img.entryOf (k + 1)) ∧
      img.entryOf img.functions.size = img.code.size) ∧
    (∀ s, img.Reaches s → ∃ ks, img.Active s ks) ∧
    ∀ s ks, img.Active s ks → List.Forall₂ img.Within ks s.frames ∧
      ∃ k f i, ks.head? = some k ∧ img.functions[k]? = some f ∧ img.fetch s.pc = .ok i ∧ img.Admits k f s.pc i ∧
        (∀ v u, step img s = .exit v u → i.op = .ret ∧ s.calls = []) ∧
        (i.op = .loadLocal ∨ i.op = .storeLocal → ∀ e u, step img s = .fault e u → e = .emptyStack) := by
  obtain ⟨prog, obj, hprog, hobj, rfl⟩ := imageOf_eq_ok.1 h
  have hsealed := sealed_of_emit (accepted_of_source hprog).entered.nodup (valued_of_source hprog) hobj
  refine ⟨⟨entryOf_zero hobj, fun k f hk => ⟨by simp [Image.entryOf, hk], (hsealed.entry k f hk).1⟩,
    by simp [Image.entryOf]⟩, fun s => Image.reaches_iff_active.1, fun s ks ha => ⟨hsealed.within ha, ?_⟩⟩
  obtain ⟨k, f, i, hk, hf, hsize, hi, hadmits⟩ := hsealed.fetch ha
  refine ⟨k, f, i, hk, hf, hi, hadmits, fun v u hexit => ?_, fun hop e u hfault => ?_⟩
  · rw [step_of_fetch hi] at hexit
    exact execute_exit (s := { s with pc := s.pc + 1 }) hexit
  · rw [step_of_fetch hi] at hfault
    exact hadmits.cell_fault (s := { s with pc := s.pc + 1 }) hsize hop hfault

/-- A call with machine instructions in the callee. -/
def echoSix : String :=
  "fn echo(n: int): int \x7b vm_asm \x7b load_local n; store_local n; \x7d return n; \x7d " ++
    "fn main(): int \x7b return echo(6); \x7d"

/-- The code of `echoSix`. -/
def echoSixImage : Image where
  code := #[⟨.loadLocal, some 0⟩, ⟨.storeLocal, some 0⟩, ⟨.loadLocal, some 0⟩, ⟨.ret, none⟩, ⟨.pushInt, some 0⟩,
    ⟨.ret, none⟩, ⟨.pushInt, some 6⟩, ⟨.call, some 0⟩, ⟨.ret, none⟩, ⟨.pushInt, some 0⟩, ⟨.ret, none⟩]
  functions := #[⟨"echo", 0, 1, 1⟩, ⟨"main", 6, 0, 0⟩]
  strings := []

/-- At the start of the callee of `echoSix` two frames are active, the one of `main` past its call. -/
theorem echoSix_frames : imageOf echoSix = .ok echoSixImage ∧
    echoSixImage.Active ⟨0, [], #[6], [⟨8, #[]⟩]⟩ [0, 1] ∧
    List.Forall₂ echoSixImage.Within [0, 1] [⟨0, #[6]⟩, ⟨8, #[]⟩] ∧
    ∃ i, echoSixImage.fetch 0 = .ok i ∧ echoSixImage.Admits 0 ⟨"echo", 0, 1, 1⟩ 0 i := by
  have himg : imageOf echoSix = .ok echoSixImage := by decide +kernel
  have hactive : echoSixImage.Active ⟨0, [], #[6], [⟨8, #[]⟩]⟩ [0, 1] := by
    have hstart : echoSixImage.Active (.start ⟨"main", 6, 0, 0⟩) [1] := .start (by decide) rfl
    have hpush : echoSixImage.Active ⟨7, [6], #[], []⟩ [1] :=
      .other (o := none) hstart (i := ⟨.pushInt, some 6⟩) rfl (by decide) (by decide) rfl
    exact .call (o := none) hpush (i := ⟨.call, some 0⟩) (n := 0) rfl rfl rfl rfl rfl
  obtain ⟨-, -, hframes⟩ := frame_integrity himg
  obtain ⟨hwithin, k, f, i, hk, hf, hi, hadmits, -⟩ := hframes _ _ hactive
  cases hk
  cases hf
  exact ⟨himg, hactive, hwithin, i, hi, hadmits⟩

end Workbench.Bytecode
