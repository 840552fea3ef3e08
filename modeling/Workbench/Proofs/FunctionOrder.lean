import Mathlib.Data.List.Nodup
import Mathlib.Data.List.Perm.Basic
import Workbench.Proofs.Agreement

/-!
# The order of functions

The analysis enters all functions before it looks at one of them, so it accepts a program in every order of its
functions (`Accepted.perm`). Code generation goes through the functions in order: a call finds only the functions up to
the one it is in, and strings are numbered as they come. So the order can matter in two ways. It does not where each
function finds the same callees in both orders and the numbers of strings stay out of sight (`permuted_behaviour`).
-/

/-! ### The analysis -/

open List

namespace Workbench.Typing

section Table

variable {table table' : Signatures} (htable : ∀ f sig, table.lookup f = some sig → table'.lookup f = some sig)

include htable

theorem HasType.mono {scope : Scope} {e : Expr Note} {t : Ty} (h : HasType table scope e t) :
    HasType table' scope e t := by
  induction h with
  | lit v => exact .lit v
  | var hx => exact .var hx
  | unary _ hop ih => exact .unary ih hop
  | binary _ _ hop ihl ihr => exact .binary ihl ihr hop
  | index _ ht _ iha ihi => exact .index iha ht ihi
  | addrVar hx => exact .addrVar hx
  | addrIndex _ ht _ iha ihi => exact .addrIndex iha ht ihi
  | push _ ht _ _ iha ihn ihv => exact .push iha ht ihn ihv
  | pop _ ht _ iha ihn => exact .pop iha ht ihn
  | call hpush hpop hf hlen _ ih => exact .call hpush hpop (htable _ _ hf) hlen ih

/-- The rules ask the table for signatures and nothing else. -/
theorem Checked.mono {scope : Scope} {ss : List (Stmt Note)} (h : Checked table scope ss) :
    Checked table' scope ss := by
  induction h with
  | nil => exact .nil
  | expr he _ ih => exact .expr (he.mono htable) ih
  | decl ht hx _ ih => exact .decl ⟨fun e he => (ht.1 e he).mono htable, ht.2⟩ hx ih
  | assignVar hx he _ ih => exact .assignVar hx (he.mono htable) ih
  | assignIndex ha ht hi he _ ih =>
    exact .assignIndex (ha.mono htable) ht (hi.mono htable) (he.mono htable) ih
  | print he ht _ ih => exact .print (he.mono htable) ht ih
  | ret he _ ih =>
    refine .ret (fun e heq => ?_) ih
    obtain ⟨t, ht⟩ := he e heq
    exact ⟨t, ht.mono htable⟩
  | asm _ ih => exact .asm ih
  | vmAsm _ ih => exact .vmAsm ih
  | cond he _ _ _ ihy ihn ih => exact .cond (he.mono htable) ihy ihn ih
  | loop he _ _ ihb ih => exact .loop (he.mono htable) ihb ih
  | block _ ih => exact .block ih

end Table

theorem Entered.perm {α : Type} {fs fs' : List (Function α)} (hperm : fs'.Perm fs) (h : Entered fs) : Entered fs' :=
  ⟨(hperm.map _).nodup_iff.2 h.nodup, fun f hf => h.fresh f (hperm.mem_iff.1 hf)⟩

theorem Accepted.perm {prog prog' : Program Note} (hperm : prog'.functions.Perm prog.functions) (h : Accepted prog) :
    Accepted prog' := by
  have hentered := h.entered.perm hperm
  refine ⟨hentered, (hperm.map _).mem_iff.2 h.main, fun f hf => ?_⟩
  obtain ⟨⟨scope, hscope, hbody⟩, hreturns⟩ := h.checked f (hperm.mem_iff.1 hf)
  refine ⟨⟨scope, hscope, hbody.mono fun g sig hg => ?_⟩, hreturns⟩
  rcases lookup_signatures hg with hb | ⟨g, hmem, rfl, rfl⟩
  · rw [signatures, lookup_append, hb]
    rfl
  · exact hentered.lookup (hperm.mem_iff.2 hmem)

theorem check_perm {p p' : Program Unit} {prog : Program Note} (h : check p = .ok prog)
    (hperm : p'.functions.Perm p.functions) :
    ∃ prog', check p' = .ok prog' ∧ prog'.functions.Perm prog.functions := by
  obtain ⟨rfl, hacc⟩ := check_iff.1 h
  have herase : List.Forall₂ (fun f₀ f => f.annotate () = f₀)
      (prog.annotate ()).functions prog.functions := by
    rw [Program.annotate, forall₂_map_left_iff]
    exact forall₂_same.2 fun _ _ => rfl
  obtain ⟨fs, hfs, hperm'⟩ := perm_comp_forall₂ hperm herase
  refine ⟨⟨fs⟩, check_iff.2 ⟨?_, hacc.perm hperm'⟩, hperm'⟩
  obtain ⟨fs₀⟩ := p'
  rw [Program.annotate, Program.mk.injEq]
  dsimp only at hfs
  clear h hacc herase hperm hperm'
  induction hfs with
  | nil => rfl
  | cons hf _ ih => rw [map_cons, hf, ih]

end Workbench.Typing

namespace Workbench.Bytecode

open Machine (SameBehaviour)
open Typing (Note)

/-! ### There is code in every order -/

theorem emit_isOk_iff {prog : Program Note} : (∃ obj, emit prog = .ok obj) ↔
    ∀ f ∈ prog.functions, ∃ c, stmtsCode ⟨Slots.ofFunction f, []⟩ ⟨0, 0⟩ f.body = .ok c := by
  rw [← failure?_eq_none, failure?_emit, findSome?_eq_none_iff]
  refine forall₂_congr fun f _ => ?_
  rw [← failure?_eq_none, failure?_stmtsCode]

/-! ### Numbers of strings -/

section Strings

variable {prog : Program Note}

theorem routines_string {fs : List (Function Note)} : ∀ (known : List String) (k : Nat) {i : Nat} {r : Routine},
    (routines known k fs)[i]? = some r →
      r.string = k + (((routines known k fs).take i).flatMap (·.body.strings)).length := by
  induction fs with
  | nil => simp [routines]
  | cons f fs ih =>
    intro known k i r hr
    cases i with
    | zero =>
      cases hr
      rfl
    | succ i =>
      rw [routines, getElem?_cons_succ] at hr
      rw [ih _ _ hr, routines, take_succ_cons, flatMap_cons, length_append]
      omega

theorem routines_eq_map (hnodup : (names prog).Nodup) :
    routines [] 0 prog.functions = (names prog).map (library prog).routine := by
  have hlength : (routines [] 0 prog.functions).length = (names prog).length := by
    rw [length_routines]
    simp [names]
  refine ext_getElem (by simpa using hlength) fun i hi hi' => ?_
  rw [length_map] at hi'
  rw [getElem_map]
  refine (routine_eq ?_).symm
  rw [hnodup.idxOf_getElem i hi', getElem?_eq_getElem hi]

/-- The strings that the code of a function refers to. -/
def stringsOf (prog : Program Note) (f : String) : List String := ((library prog).routine f).body.strings

theorem library_strings (hnodup : (names prog).Nodup) :
    (library prog).strings = numbered ((names prog).flatMap (stringsOf prog)) := by
  rw [library, routines_eq_map hnodup, flatMap_map]
  rfl

theorem routine_string (hnodup : (names prog).Nodup) {f : String} (hf : f ∈ names prog) :
    ((library prog).routine f).string =
      (((names prog).take ((names prog).idxOf f)).flatMap (stringsOf prog)).length := by
  have hget : (routines [] 0 prog.functions)[(names prog).idxOf f]? = some ((library prog).routine f) := by
    have hlt := idxOf_lt_length_iff.2 hf
    rw [routines_eq_map hnodup, getElem?_map, getElem?_eq_getElem hlt, getElem_idxOf hlt]
    rfl
  rw [routines_string [] 0 hget, Nat.zero_add, routines_eq_map hnodup, ← map_take, flatMap_map]
  rfl

theorem flatMap_filter {α β : Type} {q : α → Bool} {g : α → List β} {l : List α}
    (h : ∀ a ∈ l, q a = false → g a = []) : (l.filter q).flatMap g = l.flatMap g := by
  induction l with
  | nil => rfl
  | cons a l ih =>
    obtain ⟨ha, hl⟩ := forall_mem_cons.1 h
    cases hq : q a with
    | true => rw [filter_cons_of_pos hq, flatMap_cons, flatMap_cons, ih hl]
    | false => rw [filter_cons_of_neg (by simp [hq]), flatMap_cons, ih hl, ha hq, nil_append]

theorem filter_take_idxOf {q : String → Bool} {f : String} (hf : q f = true) (l : List String) :
    (l.take (l.idxOf f)).filter q = (l.filter q).take ((l.filter q).idxOf f) := by
  induction l with
  | nil => rfl
  | cons a l ih =>
    by_cases ha : a = f
    · subst ha
      rw [filter_cons_of_pos hf, idxOf_cons_self, idxOf_cons_self]
      rfl
    · rw [idxOf_cons_ne _ ha, take_succ_cons]
      cases hq : q a with
      | true =>
        rw [filter_cons_of_pos hq, filter_cons_of_pos hq, idxOf_cons_ne _ ha, take_succ_cons, ih]
      | false => rw [filter_cons_of_neg (by simp [hq]), filter_cons_of_neg (by simp [hq]), ih]

/-- The functions with string literals, in order. -/
def speakers (prog : Program Note) : List String :=
  (prog.functions.filter fun f => !Stmt.textless f.body).map (·.name)

theorem filter_speakers (hnodup : (names prog).Nodup) :
    (names prog).filter (speakers prog).contains = speakers prog := by
  rw [names, filter_map, speakers]
  congr 1
  refine filter_congr fun f hf => ?_
  rw [Bool.eq_iff_iff, Function.comp_apply, contains_iff_mem, mem_map]
  constructor
  · rintro ⟨g, hg, hname⟩
    obtain rfl := inj_on_of_nodup_map hnodup (mem_of_mem_filter hg) hf hname
    exact (mem_filter.1 hg).2
  · exact fun hq => ⟨f, mem_filter.2 ⟨hf, hq⟩, rfl⟩

theorem stringsOf_eq_nil (hnodup : (names prog).Nodup) {f : String} (hf : f ∈ names prog)
    (hspeak : (speakers prog).contains f = false) : stringsOf prog f = [] := by
  obtain ⟨fn, hfn, rfl⟩ := exists_function hf
  obtain ⟨k, hk⟩ := exists_routine hnodup hfn
  have htextless : Stmt.textless fn.body = true := by
    by_contra hnot
    refine absurd hspeak ?_
    rw [Bool.not_eq_false, contains_iff_mem]
    exact mem_map_of_mem (mem_filter.2 ⟨mem_of_getElem? hfn, by simpa using hnot⟩)
  rw [stringsOf, hk]
  exact View.strings_stmts htextless

end Strings

/-! ### Two orders of one program -/

/-- Functions find the same callees in both programs: those that do not come after them. -/
def SameCallees (prog prog' : Program Note) : Prop :=
  ∀ f ∈ prog.functions, ∀ g ∈ Stmt.callees f.body,
    ((names prog).idxOf g ≤ (names prog).idxOf f.name ↔ (names prog').idxOf g ≤ (names prog').idxOf f.name)

/-- The numbers of strings are out of sight, or all strings keep their numbers. -/
def SameStrings (prog prog' : Program Note) : Prop :=
  (∀ f ∈ prog.functions, Stmt.spoken f.body = true) ∨ speakers prog = speakers prog'

instance (prog prog' : Program Note) : Decidable (SameCallees prog prog') := inferInstanceAs (Decidable (∀ f ∈ _, _))

instance (prog prog' : Program Note) : Decidable (SameStrings prog prog') := inferInstanceAs (Decidable (_ ∨ _))

section Orders

variable {prog prog' : Program Note}

theorem contains_take {l : List String} {i : Nat} (hi : i < l.length) (g : String) :
    (l.take (i + 1)).contains g = decide (l.idxOf g ≤ i) := by
  rw [Bool.eq_iff_iff, contains_iff_mem, decide_eq_true_eq]
  by_cases hg : g ∈ l
  · rw [mem_take_iff_idxOf_lt hg]
    omega
  · rw [idxOf_eq_length hg]
    exact ⟨fun hmem => absurd (mem_of_mem_take hmem) hg, fun hle => by omega⟩

theorem routine_perm (hnodup : (names prog).Nodup) (hperm : prog'.functions.Perm prog.functions)
    (hcallees : SameCallees prog prog') {f : String} (hf : f ∈ names prog) :
    (library prog').routine f = { (library prog).routine f with string := ((library prog').routine f).string } := by
  have hperm' : (names prog').Perm (names prog) := hperm.map _
  obtain ⟨fn, hfn, rfl⟩ := exists_function hf
  obtain ⟨fn', hfn', hname⟩ := exists_function (hperm'.mem_iff.2 hf)
  have hmem := mem_of_getElem? hfn
  obtain rfl : fn' = fn :=
    inj_on_of_nodup_map hnodup (hperm.mem_iff.1 (mem_of_getElem? hfn')) hmem hname
  obtain ⟨k, hk⟩ := exists_routine hnodup hfn
  obtain ⟨k', hk'⟩ := exists_routine (hperm'.nodup_iff.2 hnodup) hfn'
  have hlt := idxOf_lt_length_iff.2 hf
  have hlt' := idxOf_lt_length_iff.2 (hperm'.mem_iff.2 hf)
  have hbody : (routineOf ((names prog').take ((names prog').idxOf fn'.name + 1)) k' fn').body =
      (routineOf ((names prog).take ((names prog).idxOf fn'.name + 1)) k fn').body := by
    have hknown : ∀ e ∈ Stmt.exprs fn'.body ++ Stmt.prints fn'.body, ∀ g ∈ e.callees,
        ((names prog').take ((names prog').idxOf fn'.name + 1)).contains g =
          ((names prog).take ((names prog).idxOf fn'.name + 1)).contains g := by
      intro e he g hg
      rw [contains_take hlt, contains_take hlt', decide_eq_decide]
      exact (hcallees fn' hmem g (mem_flatMap.2 ⟨e, he, hg⟩)).symm
    rw [forall_mem_append] at hknown
    exact View.stmts_known fn'.body hknown.1 hknown.2
  rw [hk, hk']
  unfold routineOf at hbody ⊢
  simp only at hbody
  simp only [hbody]

/-- The routines of a program do the same when its functions are in another order. -/
theorem library_agree (hnodup : (names prog).Nodup) (hperm : prog'.functions.Perm prog.functions)
    (hcallees : SameCallees prog prog') (hstrings : SameStrings prog prog') :
    (library prog).Agree (library prog') (· ∈ names prog) := by
  have hperm' : (names prog').Perm (names prog) := hperm.map _
  have hnodup' := hperm'.nodup_iff.2 hnodup
  refine ⟨fun f => routine_perm hnodup hperm hcallees, fun f hf => ?_, fun f hf => ?_⟩
  · obtain ⟨fn, hfn, rfl⟩ := exists_function hf
    obtain ⟨k, hk⟩ := exists_routine hnodup hfn
    rw [hk]
    exact View.stmts_fits (fun g hg => mem_of_mem_take (by simpa using hg)) fn.body
  · rcases hstrings with hspoken | hspeakers
    · obtain ⟨fn, hfn, rfl⟩ := exists_function hf
      obtain ⟨k, hk⟩ := exists_routine hnodup hfn
      rw [hk]
      exact View.stable_of_spoken (hspoken fn (mem_of_getElem? hfn)) _ _ _ _
    · have hsame : ∀ g ∈ names prog, stringsOf prog' g = stringsOf prog g := by
        intro g hg
        rw [stringsOf, routine_perm hnodup hperm hcallees hg]
        rfl
      have hsilent : ∀ g ∈ names prog, (speakers prog).contains g = false → stringsOf prog g = [] :=
        fun g => stringsOf_eq_nil hnodup
      have hfilter : (names prog').filter (speakers prog).contains = (names prog).filter (speakers prog).contains := by
        rw [filter_speakers hnodup, hspeakers, filter_speakers hnodup']
      -- What comes before a name, as far as it has strings, is the same in both orders.
      have hflat : ∀ {l l' : List String}, l ⊆ names prog → l' ⊆ names prog →
          l'.filter (speakers prog).contains = l.filter (speakers prog).contains →
          l'.flatMap (stringsOf prog') = l.flatMap (stringsOf prog) := by
        intro l l' hl hl' heq
        rw [← flatMap_filter fun g hg => hsilent g (hl hg), ← heq, flatMap_filter fun g hg => hsilent g (hl' hg)]
        exact flatMap_congr fun g hg => hsame g (hl' hg)
      refine Shape.stable_of_strings ?_ _ _ _ ?_
      · rw [library_strings hnodup, library_strings hnodup',
          hflat (List.Subset.refl _) hperm'.subset hfilter]
      · cases hspeak : (speakers prog).contains f with
        | false => exact .inr (hsilent f hf hspeak)
        | true =>
          refine .inl ?_
          rw [routine_string hnodup hf, routine_string hnodup' (hperm'.mem_iff.2 hf), hflat (take_subset _ _)
            (List.Subset.trans (take_subset _ _) hperm'.subset)]
          rw [filter_take_idxOf hspeak, filter_take_idxOf hspeak, hfilter]

end Orders

/-- **The order of functions.** A program that is accepted is accepted in every order of its functions, and there is
code for it in one order if there is in another. If functions find the same callees in both orders, and the numbers of
strings are out of sight or stay as they are, both orders behave alike. -/
theorem permuted_behaviour {p p' : Program Unit} {prog : Program Note} (h : Typing.check p = .ok prog)
    (hperm : p'.functions.Perm p.functions) :
    ∃ prog', Typing.check p' = .ok prog' ∧ prog'.functions.Perm prog.functions ∧
      ((∃ obj, emit prog = .ok obj) ↔ ∃ obj, emit prog' = .ok obj) ∧
      (SameCallees prog prog' → SameStrings prog prog' → ∀ obj obj', emit prog = .ok obj → emit prog' = .ok obj' →
        SameBehaviour obj.image obj'.image) := by
  obtain ⟨prog', hcheck, hperm'⟩ := Typing.check_perm h hperm
  have hacc := (Typing.check_iff.1 h).2
  have hacc' := (Typing.check_iff.1 hcheck).2
  refine ⟨prog', hcheck, hperm', ?_, fun hcallees hstrings obj obj' hobj hobj' => ?_⟩
  · rw [emit_isOk_iff, emit_isOk_iff]
    exact ⟨fun hall f hf => hall f (hperm'.mem_iff.1 hf), fun hall f hf => hall f (hperm'.mem_iff.2 hf)⟩
  · have hagree := library_agree hacc.entered.nodup hperm' hcallees hstrings
    have hfollows' := follows_of_emit hacc'.entered.nodup hobj' hacc'.main
    simp only [← hagree.start hacc.main] at hfollows'
    exact (follows_of_emit hacc.entered.nodup hobj hacc.main).sameBehaviour hfollows'

/-- The program with its first two functions in the other order. -/
def swapped (prog : Program Note) : Program Note :=
  ⟨match prog.functions with
    | f :: g :: fs => g :: f :: fs
    | fs => fs⟩

theorem swapped_perm (prog : Program Note) : (swapped prog).functions.Perm prog.functions := by
  unfold swapped
  dsimp only
  split
  case h_1 heq =>
    rw [heq]
    exact .swap ..
  case h_2 => exact .refl _

/-- Two functions that print, and one that calls both. -/
def twoLessThree : String :=
  "fn two(): int \x7b print(\"a\"); return 2; \x7d fn three(): int \x7b print(\"b\"); return 3; \x7d " ++
    "fn main(): int \x7b return two() - three(); \x7d"

/-- The two functions that print can change places, though their strings change numbers. -/
theorem twoLessThree_swapped : ∃ prog obj obj', checkedProgram twoLessThree = .ok prog ∧
    names (swapped prog) = ["three", "two", "main"] ∧ Typing.check ((swapped prog).annotate ()) = .ok (swapped prog) ∧
    SameCallees prog (swapped prog) ∧ SameStrings prog (swapped prog) ∧ emit prog = .ok obj ∧
    emit (swapped prog) = .ok obj' ∧ obj.image.strings ≠ obj'.image.strings ∧
    obj.image.Ends ["a", "b"] (.exit 65535) ∧ SameBehaviour obj.image obj'.image := by
  obtain ⟨prog, hprog, hnames, hcallees, hstrings, obj, hobj, obj', hobj', hne, hends⟩ :
      ∃ prog, checkedProgram twoLessThree = .ok prog ∧ names (swapped prog) = ["three", "two", "main"] ∧
        SameCallees prog (swapped prog) ∧ SameStrings prog (swapped prog) ∧ ∃ obj, emit prog = .ok obj ∧
        ∃ obj', emit (swapped prog) = .ok obj' ∧ obj.image.strings ≠ obj'.image.strings ∧
          (obj.image.run 40 {}).ending = .exit 65535 ∧ (obj.image.run 40 {}).run.out = ["a", "b"] := by decide +kernel
  have hacc := accepted_of_source hprog
  have hcheck : Typing.check (prog.annotate ()) = .ok prog := Typing.check_iff.2 ⟨rfl, hacc⟩
  have hcheck' : Typing.check ((swapped prog).annotate ()) = .ok (swapped prog) :=
    Typing.check_iff.2 ⟨rfl, hacc.perm (swapped_perm prog)⟩
  have hperm : ((swapped prog).annotate ()).functions.Perm (prog.annotate ()).functions := (swapped_perm prog).map _
  obtain ⟨prog', hprog', -, -, hsame⟩ := permuted_behaviour hcheck hperm
  obtain rfl : swapped prog = prog' := by simpa using hcheck'.symm.trans hprog'
  exact ⟨prog, obj, obj', hprog, hnames, hcheck', hcallees, hstrings, hobj, hobj', hne, ⟨by simp, 40, hends⟩,
    hsame hcallees hstrings obj obj' hobj hobj'⟩

/-- A call of a function that comes later. -/
def mainFirst : String := "fn main(): int \x7b return seven(); \x7d fn seven(): int \x7b return 7; \x7d"

/-- A call of a function that comes later is zero; in the other order it is a call. -/
theorem mainFirst_misses_seven : ∃ prog obj obj', checkedProgram mainFirst = .ok prog ∧
    Typing.check ((swapped prog).annotate ()) = .ok (swapped prog) ∧ emit prog = .ok obj ∧
    emit (swapped prog) = .ok obj' ∧ obj.image.Ends [] (.exit 0) ∧ obj'.image.Ends [] (.exit 7) := by
  obtain ⟨prog, hprog, obj, hobj, obj', hobj', hends, hends'⟩ : ∃ prog, checkedProgram mainFirst = .ok prog ∧
      ∃ obj, emit prog = .ok obj ∧ ∃ obj', emit (swapped prog) = .ok obj' ∧
        ((obj.image.run 20 {}).ending = .exit 0 ∧ (obj.image.run 20 {}).run.out = []) ∧
        (obj'.image.run 20 {}).ending = .exit 7 ∧ (obj'.image.run 20 {}).run.out = [] := by decide +kernel
  exact ⟨prog, obj, obj', hprog, Typing.check_iff.2 ⟨rfl, (accepted_of_source hprog).perm (swapped_perm prog)⟩, hobj,
    hobj', ⟨by simp, 20, hends⟩, ⟨by simp, 20, hends'⟩⟩

end Workbench.Bytecode
