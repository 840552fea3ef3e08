import Workbench.Proofs.ScalarCorrect
import Workbench.Proofs.StringTypes

/-!
# Strings that are printed

Whatever an orderly program prints as a string was pushed as a literal, or is the zero of a string that was declared
without a value or is a parameter of `main` (`strings_printed`). The code of every function stands in the image with
its literals (`exists_site`). A call with strings for the parameters that are strings is safe, by induction on the
number of steps (`Kept.callsSafe`), since the calls that it makes have fewer steps to go.

The analysis does not compare what a function returns with its declaration, so a number that is returned for a string is
printed as one; and a program without literals can print strings (`textless_printed`).
-/

open List

namespace Workbench.Bytecode

open Machine (Instr Op Image State Frame FunctionInfo Origin Origins Trail callCells wrap)
open Typing (Note Scope Signatures)

/-! ### Functions -/

/-- Where the code of the function with the number `k` stands, and which literals it pushes. -/
structure Site (img : Image) (prog : Program Note) (k : Nat) (f : Function Note) (info : FunctionInfo)
    (entry string : Nat) : Prop where
  function : img.functions[k]? = some info
  start : info.entry = (entry : Int)
  size : info.numLocals = ((Slots.ofFunction f).size : Int)
  arity : info.numParams = (f.params.length : Int)
  code : img.Has entry ((routineOf ((names prog).take (k + 1)) string f).body.codeAt (fun g => (names prog).idxOf g)
    entry string ++ (routineOf ((names prog).take (k + 1)) string f).closing)
  literals : ∀ l ∈ (routineOf ((names prog).take (k + 1)) string f).body.literals (fun g => (names prog).idxOf g)
    ⟨entry, string⟩, l ∈ literals prog
  stands : ∃ body, Stands img k f ⟨Slots.ofFunction f, numbering ((names prog).take (k + 1))⟩ ⟨entry, string⟩ body

variable {f : Function Note}

section Emitted

variable {prog : Program Note} {obj : Object}

theorem exists_site (hnodup : (names prog).Nodup) (h : emit prog = .ok obj) {k : Nat}
    (hf : prog.functions[k]? = some f) : ∃ info entry string, Site obj.image prog k f info entry string := by
  obtain ⟨c, -, -, hlaid⟩ := exists_laid hnodup h
  obtain ⟨q, body, hstands, hinfo, hget⟩ := exists_stands hnodup h hf
  have hcode := hstands.has
  rw [Piece.code_append, routineOf_body hnodup ( List.take_prefix _ _) hstands.code,
    code_closingCode ((names prog).take (k + 1)) q.string] at hcode
  refine ⟨⟨f.name, q.pc, (Slots.ofFunction f).size, f.params.length⟩, q.pc, q.string, ?_, rfl, rfl, rfl, hcode,
    hlaid.literalsOf_function k hget hinfo, body, hstands⟩
  simp [Object.image, hinfo]

end Emitted

/-- The value of a string that has not been given one: the zero that its declaration pushes first, or that of a cell
of a parameter of `main`. -/
inductive Unset (prog : Program Note) (img : Image) : Int → Origin → Prop
  | declared {k : Nat} {f : Function Note} {env : Env} {p q : Place} {body : Piece} {x : String} {w : Option String}
      (hf : prog.functions[k]? = some f) (hstands : Stands img k f env p body)
      (hsite : (q, .decl x w none) ∈ sites env p f.body) (hw : declaredTy w none = some .str) :
      Unset prog img 0 (some (q.pc : Int))
  | parameter {f : Function Note} {p : Param} (hf : f ∈ prog.functions) (hmain : f.name = "main") (hp : p ∈ f.params)
      (ht : Ty.ofName p.typeName = .str) : Unset prog img 0 none

/-- Strings are the numbers of literals, pushed where these stand, and what has not been given a value. -/
def settingOf (prog : Program Note) (img : Image) : Setting where
  img := img
  prog := prog
  good v o := (∃ l ∈ literals prog, v = l.1.string ∧ o = some (l.1.pc : Int)) ∨ Unset prog img v o

variable {g : Function Note}

theorem number_eq {prog : Program Note} (hnodup : (names prog).Nodup) {k : Nat}
    (hg : prog.functions[k]? = some g) : (names prog).idxOf g.name = k := by
  have hget : (names prog)[k]? = some g.name := by simp [names, hg]
  obtain ⟨hlt, hname⟩ := List.getElem?_eq_some_iff.1 hget
  rw [← hname, hnodup.idxOf_getElem k hlt]

theorem nodup_params {ps : List Param} : ∀ {b : Typing.Frame} {ts : List Ty} {scope : Scope}, ps.length = ts.length →
    Typing.declareParams [b] ps ts = .ok scope → (b.map (·.1)).Nodup → (b.map (·.1) ++ ps.map (·.name)).Nodup := by
  induction ps with
  | nil => exact fun _ _ hb => by simpa using hb
  | cons p ps ih =>
    intro b ts scope hlen h hb
    cases ts with
    | nil => simp at hlen
    | cons t ts =>
      simp only [Typing.declareParams, bind_eq_ok, Typing.declare_eq_ok, Scope.declare?] at h
      obtain ⟨scope', hscope, h⟩ := h
      split at hscope
      · cases hscope
      · rename_i hp
        cases hscope
        rw [Scalar.lookup_isSome] at hp
        have hfresh : ((b ++ [(p.name, t)]).map (·.1)).Nodup := by simpa using List.Nodup.concat hp hb
        simpa using ih (by simpa using hlen) h hfresh

/-- A program that keeps strings apart from numbers, and its code. Numbers of strings fit into 16 bits. -/
structure Kept (prog : Program Note) (obj : Object) (tidy : List String) : Prop where
  accepted : Typing.Accepted prog
  valued : prog.valued = true
  emitted : emit prog = .ok obj
  orderly : prog.Orderly tidy
  few : obj.strings.length ≤ 65536

/-- The code of the function with the number `k` at work. -/
def bodyOf (prog : Program Note) (img : Image) (k : Nat) (f : Function Note) (low : List (Int × Origin))
    (waiting : List (Frame × Trail)) : Body where
  toSetting := settingOf prog img
  act := ⟨k, low, waiting⟩
  slots := Slots.ofFunction f

/-- Every call with strings for the parameters that are strings is safe for `n` steps. -/
def CallsSafe (prog : Program Note) (img : Image) (tidy : List String) (n : Nat) : Prop :=
  ∀ k f info entry string low waiting L C, prog.functions[k]? = some f → Site img prog k f info entry string →
    (bodyOf prog img k f low waiting).Held (· ∈ f.textParams) L C →
    (bodyOf prog img k f low waiting).Returns n ((bodyOf prog img k f low waiting).Yields tidy f) →
    (bodyOf prog img k f low waiting).Runs n entry [] L C

section Kept

variable {prog : Program Note} {obj : Object} {tidy : List String}

theorem Kept.nodup (h : Kept prog obj tidy) : (names prog).Nodup := h.accepted.entered.nodup

theorem Kept.literal (h : Kept prog obj tidy) {l : Place × String} (hl : l ∈ literals prog) :
    l.1.string < 65536 ∧ obj.image.text l.1.string = l.2 := by
  obtain ⟨i, hi⟩ := mem_iff_getElem?.1 hl
  obtain ⟨hstring, htext⟩ := getElem?_literals h.nodup h.emitted hi
  have hlt : i < (literals prog).length := (List.getElem?_eq_some_iff.1 hi).1
  have hlength := congrArg length (strings_literals h.nodup h.emitted)
  rw [length_map] at hlength
  rw [hstring]
  exact ⟨Nat.lt_of_lt_of_le (hlength ▸ hlt) h.few, htext⟩

theorem Kept.wrap_good (h : Kept prog obj tidy) {v : Int} {o : Origin} (hv : (settingOf prog obj.image).good v o) :
    wrap v = v := by
  unfold wrap
  rcases hv with ⟨l, hl, rfl, -⟩ | hv
  · have hlt := (h.literal hl).1
    omega
  · cases hv <;> rfl

/-- The arguments of a call are in the cells of the parameters. -/
theorem Kept.held_args (h : Kept prog obj tidy) (hg : g ∈ prog.functions) {info : FunctionInfo}
    (hsize : info.numLocals = ((Slots.ofFunction g).size : Int)) {xs : List (Int × Origin)}
    (hxs : List.Forall₂ (fun t x => t = .str → (settingOf prog obj.image).good x.1 x.2)
      (Signatures.ofFunction g).params xs) (k : Nat) (low : List (Int × Origin)) (waiting : List (Frame × Trail)) :
    (bodyOf prog obj.image k g low waiting).Held (· ∈ g.textParams) (callCells info (xs.map (·.1)))
      (Trail.enter k xs).cells := by
  intro x j v hx hj hv
  obtain ⟨p, hp, rfl, ht⟩ := Function.mem_textParams.1 hx
  obtain ⟨i, hi⟩ := mem_iff_getElem?.1 hp
  obtain ⟨scope, hscope, -⟩ := (h.accepted.checked g hg).body
  have hnodup : (g.params.map (·.name)).Nodup :=
    nodup_params (by simp [Signatures.ofFunction]) hscope nodup_nil
  have hcell := Slots.cell?_param hnodup (i := i) (x := p.name) (by simp [hi])
  obtain rfl : j = i := Option.some.inj (hj.symm.trans hcell)
  have hparam : (Signatures.ofFunction g).params[j]? = some .str := by simp [Signatures.ofFunction, hi, ht]
  have hlt : j < xs.length := hxs.length_eq ▸ (List.getElem?_eq_some_iff.1 hparam).1
  have hget : xs[j]? = some xs[j] := getElem?_eq_getElem hlt
  have hgood := (forall₂_iff_zip.1 hxs).2 (mem_of_getElem? (getElem?_zip_eq_some.2 ⟨hparam, hget⟩)) rfl
  have hwrap := h.wrap_good hgood
  have hframe := @Scalar.frame_get (xs.map (·.1)) j ⟨.skip, true, 0, (Slots.ofFunction g).size, 0⟩
    ((Slots.framed_ofFunction g).lt hcell)
  rw [Routine.frame, show callCells _ _ = callCells info (xs.map (·.1)) by simp only [callCells, hsize], hv,
    getElem?_map, hget] at hframe
  obtain rfl : v = xs[j].1 := by simpa [hwrap] using hframe
  have horigin : (Trail.enter k xs).cells j = xs[j].2 := by simp [Trail.enter, hget, hwrap]
  rw [horigin]
  exact hgood

/-- A call is safe for as many steps as remain after it. -/
theorem Kept.calls (h : Kept prog obj tidy) {n : Nat} (hsafe : ∀ m < n, CallsSafe prog obj.image tidy m)
    (act : Activation) (slots : Slots) (hg : g ∈ prog.functions) :
    Body.Calls ⟨settingOf prog obj.image, act, slots⟩ n g.name ((Signatures.ofFunction g).params.map (· = .str))
      (Body.Yields ⟨settingOf prog obj.image, act, slots⟩ tidy g) := by
  intro pc X S L C hi hX hnext
  obtain ⟨k, hk⟩ := mem_iff_getElem?.1 hg
  obtain ⟨info, entry, string, hsite⟩ := exists_site h.nodup h.emitted hk
  have hnumber : (settingOf prog obj.image).number g.name = k := number_eq h.nodup hk
  rw [hnumber] at hi
  have hxs := forall₂_map_left_iff.1 hX
  have harity : info.numParams = X.length := by
    have hlen := hxs.length_eq
    simp only [Signatures.ofFunction, length_map, length_reverse] at hlen
    rw [hsite.arity, hlen]
  refine Body.call hi hsite.function hsite.start harity fun m hm => ?_
  -- The caller waits with its own operands below those of the call.
  have hheld := h.held_args hg hsite.size hxs k (S ++ act.low)
    ((⟨(pc + 1), L⟩, ⟨act.function, C⟩) :: act.waiting)
  rw [map_reverse] at hheld
  refine hsafe m hm k g info entry string _ _ _ _ hk hsite hheld fun R fr w ws hR hwaiting => ?_
  cases hwaiting
  have hback := hnext R fun hvoid => ⟨(hR hvoid).least, (hR hvoid).exact, (hR hvoid).string⟩
  rw [show R ++ (bodyOf prog obj.image k g (S ++ act.low) _).act.low = R ++ S ++ act.low from
    (append_assoc _ _ _).symm]
  exact .mono hback hm.le

theorem Kept.ready (h : Kept prog obj tidy) {n : Nat} (hsafe : ∀ m < n, CallsSafe prog obj.image tidy m) {k : Nat}
    (hf : prog.functions[k]? = some f) {info : FunctionInfo} {entry string : Nat}
    (hsite : Site obj.image prog k f info entry string) (low : List (Int × Origin)) (waiting : List (Frame × Trail)) :
    (bodyOf prog obj.image k f low waiting).Ready n tidy ((names prog).take (k + 1)) f
      ⟨Slots.ofFunction f, numbering ((names prog).take (k + 1))⟩ ⟨entry, string⟩ where
  function := hf
  slots := rfl
  view := by simp only [Env.view, isSome_numbering, bodyOf]
  numbered _ _ hg := lookup_numbering h.nodup ( List.take_prefix _ _) hg
  accepted := h.accepted
  orderly := h.orderly (f, k) (mem_zipIdx_iff_getElem?.2 hf)
  unset _ _ _ hq hw := by
    obtain ⟨body, hstands⟩ := hsite.stands
    exact .inr (.declared hf hstands hq hw)
  calls g hg _ := h.calls hsafe _ _ hg

end Kept

/-- Prints a string that has not been given a value, and a number that is returned for a string. -/
def textless : String :=
  "fn f(): str \x7b return 5; \x7d fn main() \x7b let s: str; println(s); println(f()); \x7d"

end Workbench.Bytecode
