import Mathlib.Data.List.Induction
import Workbench.Compile
import Workbench.Proofs.Adequacy
import Workbench.Proofs.Emitted
import Workbench.Proofs.Literals
import Workbench.Proofs.Typed

/-!
# The image of a program

Every function of a program has a routine: the shape of its body, generated with the functions up to
itself known, and the number of its first string. The image that is emitted for a program holds all these
routines (`linked_of_emit`), so its runs are those of the routine of `main` (`follows_of_emit`).
-/

open List

namespace Workbench.Bytecode

open Machine (Instr Op Image)
open Typing (Note)

/-! ### Shapes of generated code fit -/

section Fits

variable {α : Type} {v : View} {known : String → Prop}

theorem View.closed_fits (hk : ∀ f, v.known f = true → known f) :
    v.ClosedAll (fun i => i.op.isPlain = true) (Shape.Fits known) where
  skip := trivial
  instr _ hi := hi
  call := hk
  seq ha hb := ⟨ha, hb⟩
  circuit ha := ha
  ret := trivial
  branch ha hb := ⟨ha, hb⟩
  loop ha hb := ⟨ha, hb⟩
  drop ha := ha

theorem View.expr_fits (hk : ∀ f, v.known f = true → known f) (e : Expr α) : (v.expr e).Fits known :=
  (View.closed_fits hk).expr_of_plain (fun _ => trivial) e

theorem View.stmts_fits (hk : ∀ f, v.known f = true → known f) (ss : List (Stmt Note)) : (v.stmts ss).Fits known := by
  have hemits : v.ClosedAll (v.slots.Emits True (Stmt.stored ss) ((Stmt.decls ss).map (·.1))) (Shape.Fits known) :=
    { View.closed_fits hk with instr := fun _ hi => hi.isPlain }
  refine hemits.stmts ss (.inl trivial) (List.Subset.refl _) (fun d => mem_map_of_mem) (.inl ?_)
  refine ⟨fun _ => trivial, fun _ _ => trivial, fun newline => ?_⟩
  cases newline <;> rfl

end Fits

/-! ### Routines -/

/-- The routine of a function, where the functions of `known` can be called and its first string is the
`k`-th. -/
def routineOf (known : List String) (k : Nat) (f : Function Note) : Routine where
  body := View.stmts ⟨Slots.ofFunction f, known.contains⟩ f.body
  bare := !decide (f.returnType = none ∨ f.returnType = some "int")
  string := k
  size := (Slots.ofFunction f).size
  arity := f.params.length

@[simp] theorem routineOf_string (known : List String) (k : Nat) (f : Function Note) :
    (routineOf known k f).string = k := rfl

/-- The routines of functions, after the functions of `known` with `k` strings. -/
def routines : (known : List String) → (k : Nat) → List (Function Note) → List Routine
  | _, _, [] => []
  | known, k, f :: fs =>
    routineOf (known ++ [f.name]) k f ::
      routines (known ++ [f.name]) (k + (routineOf (known ++ [f.name]) k f).body.strings.length) fs

instance : Inhabited Routine := ⟨⟨.skip, true, 0, 0, 0⟩⟩

def names {α : Type} (prog : Program α) : List String := prog.functions.map (·.name)

def numbered (ss : List String) : List (Int × String) := ss.zipIdx.map fun (s, k) => ((k : Int), s)

/-- The routines of a program by name, and its strings. -/
def library (prog : Program Note) : Library where
  routine g := (((names prog).zip (routines [] 0 prog.functions)).lookup g).getD default
  strings := numbered ((routines [] 0 prog.functions).flatMap (·.body.strings))

theorem lookup_numbered (ss : List String) (j : Nat) : (numbered ss).reverse.lookup (j : Int) = ss[j]? := by
  induction ss using reverseRecOn with
  | nil => rfl
  | append_singleton ss s ih =>
    have hsnoc : (numbered (ss ++ [s])).reverse = ((ss.length : Int), s) :: (numbered ss).reverse := by
      simp [numbered, zipIdx_append]
    rw [hsnoc, lookup_cons]
    by_cases hj : j = ss.length
    · simp [hj]
    · have : (j == (ss.length : Int)) = false := by simp; omega
      rw [this]
      simp only [ih]
      grind

theorem library_holds (prog : Program Note) :
    (library prog).Holds 0 ((routines [] 0 prog.functions).flatMap (·.body.strings)) := by
  intro j s hj
  simp only [Library.text, Image.text, Library.image, library, Nat.zero_add]
  rw [lookup_numbered, hj]
  rfl

/-- The numbers of functions, the latest first. -/
def numbering (known : List String) : List (String × Nat) := known.zipIdx.reverse

theorem numbering_snoc (known : List String) (f : String) :
    numbering (known ++ [f]) = (f, (numbering known).length) :: numbering known := by
  simp [numbering, zipIdx_append]

variable {fs : List (Function Note)} {f : String} {all : List String}

theorem lookup_numbering {all known : List String} (hall : all.Nodup) (hk : known <+: all) {n : Nat}
    (h : (numbering known).lookup f = some n) : all.idxOf f = n := by
  have hmem : (f, n) ∈ known.zipIdx := by simpa [numbering] using mem_of_lookup h
  have hget : known[n]? = some f := by exact mem_zipIdx_iff_getElem?.1 hmem
  obtain ⟨later, rfl⟩ := hk
  have hget' : (known ++ later)[n]? = some f := by
    rw [List.getElem?_append_left (List.getElem?_eq_some_iff.1 hget).1, hget]
  obtain ⟨hn, rfl⟩ := List.getElem?_eq_some_iff.1 hget'
  exact hall.idxOf_getElem n hn

theorem isSome_numbering (known : List String) (f : String) :
    ((numbering known).lookup f).isSome = known.contains f := by
  induction known using reverseRecOn with
  | nil => rfl
  | append_singleton known g ih =>
    rw [numbering_snoc, lookup_cons, contains_append, ← ih]
    cases hfg : f == g with
    | true => simp only [Option.isSome_some, contains_cons, hfg, Bool.true_or, Bool.or_true]
    | false => simp only [contains_cons, hfg, contains_nil, Bool.or_false]

theorem routineOf_body {all known : List String} (hall : all.Nodup) (hk : known <+: all) {f : Function Note}
    {p : Place} {c : Piece} (h : stmtsCode ⟨Slots.ofFunction f, numbering known⟩ p f.body = .ok c) :
    c = (routineOf known p.string f).body.code (fun g => all.idxOf g) p := by
  have hview : Env.view ⟨.ofFunction f, numbering known⟩ = ⟨.ofFunction f, known.contains⟩ := by
    simp only [Env.view, isSome_numbering]
  rw [routineOf, ← hview]
  exact stmtsCode_eq (fun g n => lookup_numbering hall hk) f.body p c h

theorem code_closingCode (known : List String) (k : Nat) (f : Function Note) :
    (closingCode f.returnType).code = (routineOf known k f).closing := by
  unfold closingCode Routine.closing routineOf
  split <;> simp [*]

theorem strings_closingCode (returnType : Option String) : (closingCode returnType).strings = [] := by
  unfold closingCode
  split <;> rfl

/-- Functions laid out from a place on, after those of `known`: their routines, their code and where each starts. The
code of each follows that of the one before. -/
inductive Laid (all : List String) :
    List String → Place → List (Function Note) → List Routine → Piece → List Compiled → Prop
  | nil {known : List String} {p : Place} : Laid all known p [] [] (.ofCode []) []
  | cons {known : List String} {p : Place} {f : Function Note} {fs : List (Function Note)} {r : Routine}
      {rs : List Routine} {body c : Piece} {infos : List Compiled} (hknown : known ++ [f.name] <+: all)
      (hr : r = routineOf (known ++ [f.name]) p.string f) (hbody : body = r.body.code (fun g => all.idxOf g) p)
      (hcode : stmtsCode ⟨Slots.ofFunction f, numbering (known ++ [f.name])⟩ p f.body = .ok body)
      (hlater : Laid all (known ++ [f.name]) (p.after (body ++ closingCode f.returnType)) fs rs c infos) :
      Laid all known p (f :: fs) (r :: rs) (body ++ closingCode f.returnType ++ c)
        (⟨f.name, p.pc, Slots.ofFunction f, f.params.length⟩ :: infos)

theorem functionsCode_laid (hall : all.Nodup) :
    ∀ (known : List String) {p : Place} {c : Piece} {infos : List Compiled},
      functionsCode (numbering known) p fs = .ok (c, infos) → known ++ fs.map (·.name) = all →
      Laid all known p fs (routines known p.string fs) c infos := by
  induction fs with
  | nil =>
    intro known p c infos h _
    cases h
    exact .nil
  | cons f fs ih =>
    intro known p c infos h heq
    simp only [functionsCode, ← numbering_snoc, bind_eq_ok] at h
    obtain ⟨body, hbody, ⟨cs, infos'⟩, hrest, h⟩ := h
    cases h
    have hknown : known ++ [f.name] <+: all := ⟨fs.map (·.name), by simpa using heq⟩
    have hlater := ih _ hrest (by simpa using heq)
    obtain rfl := routineOf_body hall hknown hbody
    refine .cons hknown rfl rfl hbody ?_
    simpa [strings_closingCode] using hlater

/-- Where the `i`-th of the functions starts; after the last one, where the code ends. -/
def entryAt (infos : List Compiled) (stop i : Nat) : Nat := (infos[i]?.map (·.entry)).getD stop

namespace Laid

variable {known : List String} {p : Place} {rs : List Routine} {c : Piece} {infos : List Compiled}

theorem entryAt_zero (h : Laid all known p fs rs c infos) : entryAt infos (p.pc + c.code.length) 0 = p.pc := by
  cases h <;> rfl

theorem strings_eq (h : Laid all known p fs rs c infos) : c.strings = rs.flatMap (·.body.strings) := by
  induction h with
  | nil => rfl
  | cons _ _ hbody _ _ ih => simp [hbody, ih, strings_closingCode]

theorem exists_placed {img : Image} {lib : Library} (h : Laid all known p fs rs c infos) : img.Has p.pc c.code →
    lib.Holds p.string c.strings → ∀ {i : Nat} {f : Function Note}, fs[i]? = some f → ∃ known' q r body,
      known' = known ++ (fs.map (·.name)).take (i + 1) ∧ r = routineOf known' q.string f ∧
      body = r.body.code (fun g => all.idxOf g) q ∧ rs[i]? = some r ∧
      infos[i]? = some ⟨f.name, q.pc, Slots.ofFunction f, f.params.length⟩ ∧
      stmtsCode ⟨Slots.ofFunction f, numbering known'⟩ q f.body = .ok body ∧
      r.Placed img lib (fun g => all.idxOf g) (· ∈ all) q.pc ∧
      entryAt infos (p.pc + c.code.length) (i + 1) = (q.after (body ++ closingCode f.returnType)).pc := by
  induction h with
  | nil => simp
  | @cons known p g fs r rs body c infos hknown hr hbody hcode hlater ih =>
    intro hhas hholds
    have hstop : ∀ j, entryAt (⟨g.name, p.pc, .ofFunction g, g.params.length⟩ :: infos)
        (p.pc + (body ++ closingCode g.returnType ++ c).code.length) (j + 1) =
          entryAt infos ((p.after (body ++ closingCode g.returnType)).pc + c.code.length) j := by
      intro j
      simp [entryAt, Nat.add_assoc]
    rintro (_ | i) f hf
    · cases hf
      refine ⟨_, p, r, body, rfl, hr, hbody, rfl, rfl, hcode, ⟨?_, ?_, ?_⟩, (hstop 0).trans hlater.entryAt_zero⟩
      · rw [hr]
        exact View.stmts_fits (fun h hh => hknown.subset (by simpa using hh)) g.body
      · simpa [hr, hbody] using hholds.left.left
      · simpa [hr, hbody, Shape.codeAt, code_closingCode (known ++ [g.name]) p.string] using hhas.left
    · obtain ⟨known', q, r', body', hknown', hr', hbody', hget, hinfo, hcode', hplaced, hnext⟩ :=
        ih hhas.right hholds.right hf
      exact ⟨known', q, r', body', by simpa using hknown', hr', hbody', hget, hinfo, hcode', hplaced,
        (hstop (i + 1)).trans hnext⟩

end Laid

theorem length_routines (fs : List (Function Note)) : ∀ known k, (routines known k fs).length = fs.length := by
  induction fs with
  | nil => exact fun _ _ => rfl
  | cons f fs ih => exact fun known k => by rw [routines, length_cons, ih, length_cons]

theorem lookup_zip {α : Type} (ks : List String) : ∀ {as : List α}, ks.length = as.length → ∀ k,
    (ks.zip as).lookup k = as[ks.idxOf k]? := by
  induction ks with
  | nil =>
    intro as h k
    simp [eq_nil_of_length_eq_zero h.symm]
  | cons j ks ih =>
    intro as h k
    cases as with
    | nil => simp at h
    | cons a as =>
      rw [zip_cons_cons, lookup_cons, idxOf_cons]
      by_cases hkj : k = j
      · simp [hkj]
      · have hkj' : (k == j) = false := by simpa using hkj
        have hjk : (j == k) = false := by simpa using Ne.symm hkj
        simpa [hkj', hjk] using ih (by simpa using h) k

theorem exists_function {prog : Program Note} (h : f ∈ names prog) :
    ∃ fn, prog.functions[(names prog).idxOf f]? = some fn ∧ fn.name = f := by
  have hlt : (names prog).idxOf f < (names prog).length := idxOf_lt_length_iff.2 h
  have hget : (names prog)[(names prog).idxOf f]? = some f := by
    rw [getElem?_eq_getElem hlt, getElem_idxOf hlt]
  simpa [names] using hget

theorem routines_get : ∀ (known : List String) (k : Nat) {i : Nat} {f : Function Note},
    fs[i]? = some f → ∃ k', (routines known k fs)[i]? =
      some (routineOf (known ++ (fs.map (·.name)).take (i + 1)) k' f) := by
  induction fs with
  | nil => simp
  | cons g fs ih =>
    intro known k i f hf
    cases i with
    | zero =>
      cases hf
      exact ⟨k, rfl⟩
    | succ i =>
      obtain ⟨k', hk'⟩ := ih (known ++ [g.name]) _ hf
      exact ⟨k', by simpa [routines] using hk'⟩

/-- A name that functions may have is no name of a built-in function. -/
theorem builtinArity_of_fresh (h : (Typing.Signatures.withBuiltins []).lookup f = none) :
    View.builtinArity f = none := by
  unfold View.builtinArity
  split
  case h_9 => rfl
  all_goals exact absurd h (by decide)

section Emitted

variable {prog : Program Note} {obj : Object}

theorem routine_eq {f : String} {r : Routine}
    (h : (routines [] 0 prog.functions)[(names prog).idxOf f]? = some r) : (library prog).routine f = r := by
  have hlength : (names prog).length = (routines [] 0 prog.functions).length := by
    rw [length_routines]; simp [names]
  simp only [library, lookup_zip _ hlength, h, Option.getD_some]

theorem exists_routine (hnodup : (names prog).Nodup) {i : Nat} {f : Function Note} (hf : prog.functions[i]? = some f) :
    ∃ k, (library prog).routine f.name = routineOf ((names prog).take (i + 1)) k f := by
  obtain ⟨k, hk⟩ := routines_get [] 0 hf
  have hget : (names prog)[i]? = some f.name := by simp [names, hf]
  obtain ⟨hlt, hname⟩ := List.getElem?_eq_some_iff.1 hget
  refine ⟨k, routine_eq ?_⟩
  rw [← hname, hnodup.idxOf_getElem i hlt, hk]
  rfl

theorem exists_laid (hnodup : (names prog).Nodup) (h : emit prog = .ok obj) : ∃ c, obj.code = c.code ∧
    obj.strings = c.strings ∧
      Laid (names prog) [] ⟨0, 0⟩ prog.functions (routines [] 0 prog.functions) c obj.functions := by
  simp only [emit, bind_eq_ok] at h
  obtain ⟨⟨c, infos⟩, hc, h⟩ := h
  cases h
  exact ⟨c, rfl, rfl, functionsCode_laid hnodup [] hc rfl⟩

theorem has_image (obj : Object) : obj.image.Has 0 obj.code := fun j _ => by simp [Object.image]

theorem exists_placed (hnodup : (names prog).Nodup) (h : emit prog = .ok obj) {i : Nat} {f : Function Note}
    (hf : prog.functions[i]? = some f) : ∃ q r body, r = routineOf ((names prog).take (i + 1)) q.string f ∧
      body = r.body.code (fun g => (names prog).idxOf g) q ∧ (routines [] 0 prog.functions)[i]? = some r ∧
      obj.functions[i]? = some ⟨f.name, q.pc, Slots.ofFunction f, f.params.length⟩ ∧
      stmtsCode ⟨Slots.ofFunction f, numbering ((names prog).take (i + 1))⟩ q f.body = .ok body ∧
      r.Placed obj.image (library prog) (fun g => (names prog).idxOf g) (· ∈ names prog) q.pc ∧
      entryAt obj.functions obj.code.length (i + 1) = (q.after (body ++ closingCode f.returnType)).pc := by
  obtain ⟨c, hcode, hstrings, hlaid⟩ := exists_laid hnodup h
  obtain ⟨_, q, r, body, rfl, hplaced⟩ :=
    hlaid.exists_placed (hcode ▸ has_image obj) (hlaid.strings_eq ▸ library_holds prog) hf
  rw [Nat.zero_add, ← hcode] at hplaced
  exact ⟨q, r, body, hplaced⟩

theorem linked_of_emit (hnodup : (names prog).Nodup) (h : emit prog = .ok obj) :
    Linked obj.image (library prog) (fun g => (names prog).idxOf g) (· ∈ names prog) := by
  obtain ⟨c, -, hstrings, hlaid⟩ := exists_laid hnodup h
  refine ⟨?_, fun f hf => ?_⟩
  · simp only [Object.image, Object.numberedStrings, library, numbered, hstrings, hlaid.strings_eq]
  · obtain ⟨fn, hfn, rfl⟩ := exists_function hf
    obtain ⟨q, r, body, hr, -, hget, hinfo, -, hplaced, -⟩ := exists_placed hnodup h hfn
    rw [routine_eq hget]
    refine ⟨⟨fn.name, q.pc, (Slots.ofFunction fn).size, fn.params.length⟩, q.pc, ?_, rfl, ?_, ?_, hplaced⟩
    · simp [Object.image, hinfo]
    · rw [hr, routineOf]
    · rw [hr, routineOf]

variable {table : Typing.Signatures} {fs : List (Function Note)} {img : Image}

theorem names_functionsCode : ∀ {known : List (String × Nat)} {p : Place} {c : Piece}
    {infos : List Compiled}, functionsCode known p fs = .ok (c, infos) →
      infos.map (·.name) = fs.map (·.name) := by
  induction fs with
  | nil =>
    intro known p c infos h
    cases h
    rfl
  | cons f fs ih =>
    intro known p c infos h
    simp only [functionsCode, bind_eq_ok] at h
    obtain ⟨body, -, ⟨cs, infos'⟩, hrest, h⟩ := h
    cases h
    simp [ih hrest]

theorem names_image (h : emit prog = .ok obj) : obj.image.functions.toList.map (·.name) = names prog := by
  simp only [emit, bind_eq_ok] at h
  obtain ⟨⟨c, infos⟩, hc, h⟩ := h
  cases h
  simpa [Object.image, Function.comp_def, names] using names_functionsCode hc

theorem idxOf_image (hnodup : (names prog).Nodup) (h : emit prog = .ok obj) {k : Nat} {info : Machine.FunctionInfo}
    (hk : obj.image.functions[k]? = some info) : info.name ∈ names prog ∧ (names prog).idxOf info.name = k := by
  have hget : (names prog)[k]? = some info.name := by
    rw [← names_image h, getElem?_map, Array.getElem?_toList, hk]
    rfl
  obtain ⟨hlt, hname⟩ := List.getElem?_eq_some_iff.1 hget
  rw [← hname, hnodup.idxOf_getElem k hlt]
  exact ⟨getElem_mem hlt, rfl⟩

theorem main?_of_emit (hnodup : (names prog).Nodup) (h : emit prog = .ok obj) (hmain : "main" ∈ names prog) :
    ∃ info, obj.image.main? = some info ∧ obj.image.functions[(names prog).idxOf "main"]? = some info := by
  have hsome : obj.image.main?.isSome := by
    rw [Image.main?, find?_isSome]
    rw [← names_image h] at hmain
    obtain ⟨info, hmem, hname⟩ := mem_map.1 hmain
    exact ⟨info, by simpa using hmem, by simpa using hname⟩
  obtain ⟨info, hinfo⟩ := Option.isSome_iff_exists.1 hsome
  refine ⟨info, hinfo, ?_⟩
  have hname : info.name = "main" := by simpa using find?_some hinfo
  obtain ⟨k, hk⟩ := mem_iff_getElem?.1 (mem_reverse.1 (mem_of_find?_eq_some hinfo))
  rw [Array.getElem?_toList] at hk
  rw [← hname, (idxOf_image hnodup h hk).2, hk]

theorem Leaves.ending {v : Int} {rest : List Int} {t : Machine.State} (h : Leaves img [] v rest t) :
    t.ending? img = some (.exit v) := by
  simp only [Machine.State.ending?, h.step, Machine.leave, h.calls, ← h.value]

/-- What is observed of the run of a routine. -/
def Result.observed (r : Result (Int × List Int)) : Machine.Observed where
  out := texts r.log
  ending := match r.flow with
    | .done (v, _) | .ret v _ => some (.exit v)
    | .fault f => some (.fault f)
    | .cut => none

theorem Shows.observed {n : Nat} {s : Machine.State} {r : Result (Int × List Int)}
    (h : Shows img n (fun (v, rest) t => Leaves img s.calls v rest t) s r) (hs : s.calls = [])
    (hr : ∀ v rest, r.flow ≠ .ret v rest) : ∃ k t, Machine.Runs img 0 k r.observed.out s t ∧
      match r.observed.ending with
      | some e => t.ending? img = some e
      | none => n ≤ k := by
  obtain ⟨k, t, hrun, hend⟩ := h
  obtain ⟨log, flow⟩ := r
  rw [hs] at hrun hend
  refine ⟨k, t, hrun, ?_⟩
  cases flow with
  | done vr => exact hend.ending
  | ret v rest => exact absurd rfl (hr v rest)
  | fault f =>
    obtain ⟨u, hu⟩ := hend
    simp [Result.observed, Machine.State.ending?, hu]
  | cut => exact hend

/-- The image of a program runs the routine of `main`. -/
theorem follows_of_emit (hnodup : (names prog).Nodup) (h : emit prog = .ok obj) (hmain : "main" ∈ names prog) :
    obj.image.Follows fun n => (((library prog).routine "main").start (library prog) n).observed := by
  obtain ⟨info, hinfo, hget⟩ := main?_of_emit hnodup h hmain
  have L := linked_of_emit hnodup h
  obtain ⟨info', pc, hget', hentry, hsize, -, hplaced⟩ := L.function "main" hmain
  obtain rfl : info = info' := by simpa using hget.symm.trans hget'
  generalize (library prog).routine "main" = r at *
  have hstart : .start info = Act.state ⟨[], Array.replicate r.size 0⟩ pc [] := by
    simp [Machine.State.start, Act.state, hentry, hsize]
  refine ⟨info, hinfo, fun n => ?_⟩
  rw [hstart]
  exact (Linked.shows_close hplaced.code.right (L.exec_adequate n r.body r.string pc ⟨[], Array.replicate r.size 0⟩ []
    hplaced.fits hplaced.strings hplaced.code.left)).observed rfl (r.close_ne_ret _)

/-! ### What has code -/

mutual

/-- What keeps a statement from having code, if anything does. -/
def obstacleOf? (slots : Slots) : Stmt Note → Option EmitError
  | .print _ e => if e.note.isSome then none else some .untyped
  | .vmAsm text => failure? (inlineCode slots text)
  | .cond _ yes none => obstacle? slots yes
  | .cond _ yes (some no) => (obstacle? slots yes).or (obstacle? slots no)
  | .loop _ body => obstacle? slots body
  | _ => none
termination_by structural s => s

/-- What keeps statements from having code first, if anything does. -/
def obstacle? (slots : Slots) : List (Stmt Note) → Option EmitError
  | [] => none
  | s :: ss => (obstacleOf? slots s).or (obstacle? slots ss)
termination_by structural ss => ss

end

section Obstacles

variable {env : Env}

/-- Where statements stand and which functions are known does not matter to whether they have code. -/
theorem failure?_stmtsCode (ss : List (Stmt Note)) : ∀ p, failure? (stmtsCode env p ss) = obstacle? env.slots ss := by
  induction ss using Stmt.parts_induction (P := fun s => ∀ p, failure? (stmtCode env p s) =
      obstacleOf? env.slots s) with
  | nil => exact fun _ => rfl
  | cons s ss ihs ih =>
    intro p
    have hrest : ∀ c, failure? (do let cs ← stmtsCode env (p.after c) ss; return c ++ cs) =
        obstacle? env.slots ss := by
      intro c
      rw [failure?_bind (o := none) fun _ => rfl, Option.or_none, ih]
    rw [obstacle?, stmtsCode, failure?_bind hrest, ihs]
  | ret value => cases value <;> rfl
  | print newline e =>
    rw [stmtCode, obstacleOf?]
    cases e.note <;> rfl
  | vmAsm text => rw [stmtCode, failure?_bind (o := none) fun _ => rfl, Option.or_none, obstacleOf?]
  | condThen test yes ihy p => rw [stmtCode, failure?_bind (o := none) fun _ => rfl, Option.or_none, ihy, obstacleOf?]
  | cond test yes b ihy ihn p =>
    have hrest : ∀ c, failure? (do
        let p₁ := (p.after (exprCode env p test)).skip 1
        let p₂ := (p₁.after c).skip 1
        let cElse ← stmtsCode env p₂ b
        return exprCode env p test ++ .arg .jz p₂.pc ++ c ++ .arg .jmp (p₂.after cElse).pc ++ cElse) =
          obstacle? env.slots b := by
      intro c
      rw [failure?_bind (o := none) fun _ => rfl, Option.or_none, ihn]
    rw [stmtCode, failure?_bind hrest, ihy, obstacleOf?]
  | loop test body ihb => rw [stmtCode, failure?_bind (o := none) fun _ => rfl, Option.or_none, ihb, obstacleOf?]
  | _ => rfl

theorem failure?_functionsCode (fs : List (Function Note)) : ∀ known p, failure? (functionsCode known p fs) =
    fs.findSome? fun f => obstacle? (Slots.ofFunction f) f.body := by
  induction fs with
  | nil => exact fun _ _ => rfl
  | cons f fs ih =>
    intro known p
    have hrest : ∀ body, failure? (do
        let c := body ++ closingCode f.returnType
        let r ← functionsCode ((f.name, known.length) :: known) (p.after c) fs
        return (c ++ r.1, ⟨f.name, p.pc, Slots.ofFunction f, f.params.length⟩ :: r.2)) =
          fs.findSome? fun f => obstacle? (.ofFunction f) f.body := by
      intro body
      rw [failure?_bind (o := none) fun _ => rfl, Option.or_none, ih]
    rw [functionsCode, failure?_bind hrest, failure?_stmtsCode, findSome?_cons]
    cases obstacle? (.ofFunction f) f.body <;> rfl

theorem failure?_emit (prog : Program Note) :
    failure? (emit prog) = prog.functions.findSome? fun f => obstacle? (Slots.ofFunction f) f.body := by
  unfold emit
  rw [failure?_bind (o := none) fun _ => rfl, Option.or_none, failure?_functionsCode]

/-- There is code for what is accepted, unless machine instructions are written in it. -/
theorem obstacle?_eq_none {slots : Slots} {scope : Typing.Scope} {ss : List (Stmt Note)}
    (h : Typing.Checked table scope ss) : Stmt.allInlineFree ss = true → obstacle? slots ss = none := by
  induction h with
  | nil => exact fun _ => rfl
  | expr _ _ ih | decl _ _ _ ih | assignVar _ _ _ ih | assignIndex _ _ _ _ _ ih | ret _ _ ih | asm _ ih => exact ih
  | print he _ _ ih =>
    intro hfree
    rw [obstacle?, obstacleOf?, he.note_eq, ih hfree]
    rfl
  | vmAsm => exact fun hfree => nomatch hfree
  | @cond _ _ _ no _ _ _ _ _ _ ihy ihn ih =>
    intro hfree
    cases no with
    | none =>
      simp only [Stmt.allInlineFree, Bool.and_eq_true] at hfree
      rw [obstacle?, obstacleOf?, ihy hfree.1, ih hfree.2]
      rfl
    | some no =>
      simp only [Stmt.allInlineFree, Stmt.inlineFree, Bool.and_eq_true] at hfree
      rw [obstacle?, obstacleOf?, ihy hfree.1.1, ihn no rfl hfree.1.2, ih hfree.2]
      rfl
  | loop _ _ _ ihb ih =>
    intro hfree
    simp only [Stmt.allInlineFree, Bool.and_eq_true] at hfree
    rw [obstacle?, obstacleOf?, ihb hfree.1, ih hfree.2]
    rfl
  | block _ ih => exact fun hfree => ih ((Bool.and_eq_true _ _).mp hfree).2

end Obstacles

theorem emit_isOk (h : Typing.Accepted prog) (hfree : prog.inlineFree = true) : ∃ obj, emit prog = .ok obj := by
  have hall : ∀ f ∈ prog.functions, Stmt.allInlineFree f.body = true := by simpa [Program.inlineFree] using hfree
  rw [← failure?_eq_none, failure?_emit, findSome?_eq_none_iff]
  intro f hf
  obtain ⟨scope, -, hbody⟩ := (h.checked f hf).body
  exact obstacle?_eq_none hbody (hall f hf)

/-! ### From source text -/

variable {source : String}

theorem accepted_of_source (h : checkedProgram source = .ok prog) : Typing.Accepted prog := by
  simp only [checkedProgram, bind_eq_ok, mapError_eq_ok] at h
  obtain ⟨_, _, _, _, h⟩ := h
  exact (Typing.check_iff.1 h).2

theorem valued_of_source (h : checkedProgram source = .ok prog) : prog.valued = true := by
  simp only [checkedProgram, bind_eq_ok, mapError_eq_ok] at h
  obtain ⟨ts, hts, p, hp, h⟩ := h
  have hvalued := (Program.Parse.parse_written hts hp).valued
  rwa [← (Typing.check_iff.1 h).1, Program.valued_annotate] at hvalued

theorem imageOf_eq_ok {img : Image} :
    imageOf source = .ok img ↔
      ∃ prog obj, checkedProgram source = .ok prog ∧ emit prog = .ok obj ∧ obj.image = img := by
  simp only [imageOf, bind_eq_ok, mapError_eq_ok, pure_eq_ok]
  exact ⟨fun ⟨prog, hprog, obj, hobj, h⟩ => ⟨prog, obj, hprog, hobj, h⟩,
    fun ⟨prog, obj, hprog, hobj, h⟩ => ⟨prog, hprog, obj, hobj, h⟩⟩

/-- A source text that is accepted and has no `vm_asm` has an image. -/
theorem imageOf_isOk (h : checkedProgram source = .ok prog) (hfree : prog.inlineFree = true) :
    ∃ obj, emit prog = .ok obj ∧ imageOf source = .ok obj.image := by
  obtain ⟨obj, hobj⟩ := emit_isOk (accepted_of_source h) hfree
  exact ⟨obj, hobj, imageOf_eq_ok.2 ⟨prog, obj, h, hobj, rfl⟩⟩

end Emitted

end Workbench.Bytecode
