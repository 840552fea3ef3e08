import Workbench.Proofs.CodeShape
import Workbench.Proofs.Generation

/-!
# Where jumps go

Every label that is handed out while a listing is generated is set once, in the text of the function that it was handed out
for (`Built.labels_perm`), and every jump names such a label of its own function, further on in the text (`Built.lands`).
The jumps to the label that a loop begins with are the only ones that go back.
-/

open List

namespace Workbench

theorem Stmt.inlines_of_allAsmFree {α : Type} (ss : List (Stmt α)) : allAsmFree ss = true → inlines ss = [] := by
  rw [← allInlineFree_iff]
  induction ss using Stmt.parts_induction (P := fun s => asmFree s = true → inlineFree s = true) with
  | nil => exact id
  | cons => simp_all [allAsmFree, allInlineFree]
  | cond => simp_all [asmFree, inlineFree]
  | vmAsm _ h => cases h
  | condThen c body ihb h | loop c body ihb h | block body ihb h => exact ihb h
  | _ => rfl

/-- A program without assembly and machine instructions in it. -/
def Program.asmFree {α : Type} (prog : Program α) : Bool := prog.functions.all fun f => Stmt.allAsmFree f.body

namespace Assembly

open Typing (Note)

/-! ### Labels -/

section Labels

variable {a : List Line} {x : String}

@[simp] theorem labels_nil : labels [] = [] := rfl

@[simp] theorem labels_label (x : String) (a : List Line) : labels (.label x :: a) = x :: labels a := rfl

@[simp] theorem labels_instr (i : Instr) (a : List Line) : labels (.instr i :: a) = labels a := rfl

theorem mem_labels : x ∈ labels a ↔ ∃ k : Nat, a[k]? = some (.label x) := by
  rw [labels, mem_filterMap]
  constructor
  · rintro ⟨l, hl, hx⟩
    obtain ⟨k, hk⟩ := mem_iff_getElem?.1 hl
    cases l with
    | label y =>
      obtain rfl : y = x := Option.some.inj hx
      exact ⟨k, hk⟩
    | instr | exported | written => cases hx
  · rintro ⟨k, hk⟩
    exact ⟨.label x, mem_of_getElem? hk, rfl⟩

theorem labels_of_plain {f : Frame} {raw : Prop} (h : ∀ l ∈ a, l.isPlain f raw) : labels a = [] := by
  refine filterMap_eq_nil_iff.2 fun l hl => ?_
  cases l with
  | label x => exact (h _ hl).elim
  | instr | exported | written => rfl

end Labels

/-! ### Landing -/

/-- Every jump of the lines goes on to a label that follows it, in the lines or in `ahead`, or, without a condition, back to
one that a loop begins with, in the lines or in `behind`. -/
def Lands : List String → List String → List Line → Prop
  | _, _, [] => True
  | behind, ahead, .label x :: a => Lands (x :: behind) ahead a
  | behind, ahead, .instr (.jump j x) :: a =>
    (x ∈ labels a ++ ahead ∨ (j = .always ∧ IsTop x ∧ x ∈ behind)) ∧ Lands behind ahead a
  | behind, ahead, _ :: a => Lands behind ahead a

section Lands

variable {f : Frame} {raw : Prop} {behind behind' ahead ahead' xs : List String} {a b : List Line} {j : Jump} {x : String}

theorem lands_plain (h : ∀ l ∈ a, l.isPlain f raw) : Lands behind ahead a := by
  induction a with
  | nil => trivial
  | cons l a ih =>
    have hrest := ih fun l hl => h l (mem_cons_of_mem _ hl)
    have hl := h l mem_cons_self
    cases l with
    | label => exact hl.elim
    | exported | written => exact hrest
    | instr i =>
      cases i with
      | jump => exact hl.elim
      | _ => exact hrest

theorem Lands.mono (h : Lands behind ahead a) (hb : behind ⊆ behind') (ha : ahead ⊆ ahead') :
    Lands behind' ahead' a := by
  fun_induction Lands behind ahead a generalizing behind' with
  | case1 => trivial
  | case2 behind ahead x a ih => exact ih h (cons_subset_cons x hb) ha
  | case3 behind ahead j x a ih =>
    refine ⟨h.1.imp (fun hx => ?_) fun hx => ⟨hx.1, hx.2.1, hb hx.2.2⟩, ih h.2 hb ha⟩
    exact mem_append.2 ((mem_append.1 hx).imp_right fun hx => ha hx)
  | case4 behind ahead l a hlabel hjump ih =>
    rw [Lands]
    · exact ih h hb ha
    · exact hlabel
    · exact hjump

theorem Lands.append (ha : Lands behind (labels b ++ ahead) a) (hb : Lands (labels a ++ behind) ahead b) :
    Lands behind ahead (a ++ b) := by
  induction a generalizing behind with
  | nil => exact hb
  | cons l a ih =>
    cases l with
    | label x =>
      refine ih ha (hb.mono (fun y hy => ?_) (List.Subset.refl _))
      simp only [labels_label, mem_cons, mem_append] at hy ⊢
      tauto
    | exported | written => exact ih ha hb
    | instr i =>
      cases i with
      | jump j x =>
        refine ⟨ha.1.imp_left fun hx => ?_, ih ha.2 hb⟩
        show x ∈ labels (a ++ b) ++ ahead
        rwa [labels_append, append_assoc]
      | _ => exact ih ha hb

/-- A jump goes to a label that follows, or back to the top of a loop. -/
theorem Lands.jump (h : Lands behind ahead a) {i : Nat} (hi : a[i]? = some (.jump j x)) :
    x ∈ ahead ∨ (∃ k, i < k ∧ a[k]? = some (.label x)) ∨
      (j = .always ∧ IsTop x ∧ (x ∈ behind ∨ ∃ k, k < i ∧ a[k]? = some (.label x))) := by
  induction a generalizing behind i with
  | nil => simp at hi
  | cons l a ih =>
    have hrest : ∀ {behind : List String} {i : Nat}, Lands behind ahead a → a[i]? = some (.jump j x) →
        x ∈ ahead ∨ (∃ k, i + 1 < k ∧ (l :: a)[k]? = some (.label x)) ∨
          (j = .always ∧ IsTop x ∧ (x ∈ behind ∨ ∃ k, k < i + 1 ∧ (l :: a)[k]? = some (.label x))) := by
      intro behind i h hi
      rcases ih h hi with hx | ⟨k, hk, hx⟩ | ⟨hj, htop, hx | ⟨k, hk, hx⟩⟩
      · exact .inl hx
      · exact .inr (.inl ⟨k + 1, by omega, hx⟩)
      · exact .inr (.inr ⟨hj, htop, .inl hx⟩)
      · exact .inr (.inr ⟨hj, htop, .inr ⟨k + 1, by omega, hx⟩⟩)
    cases i with
    | zero =>
      obtain rfl : l = .jump j x := by simpa using hi
      rcases h.1 with hx | ⟨hj, htop, hx⟩
      · rcases mem_append.1 hx with hx | hx
        · obtain ⟨k, hk⟩ := mem_labels.1 hx
          exact .inr (.inl ⟨k + 1, by omega, hk⟩)
        · exact .inl hx
      · exact .inr (.inr ⟨hj, htop, .inl hx⟩)
    | succ i =>
      cases l with
      | label y =>
        -- The label itself may be the one that is jumped back to.
        rcases hrest h hi with hx | hx | ⟨hj, htop, hx | hx⟩
        · exact .inl hx
        · exact .inr (.inl hx)
        · rcases mem_cons.1 hx with rfl | hx
          · exact .inr (.inr ⟨hj, htop, .inr ⟨0, by omega, rfl⟩⟩)
          · exact .inr (.inr ⟨hj, htop, .inl hx⟩)
        · exact .inr (.inr ⟨hj, htop, .inr hx⟩)
      | exported | written => exact hrest h hi
      | instr i' =>
        cases i' with
        | jump => exact hrest h.2 hi
        | _ => exact hrest h hi

end Lands

section Built

variable {f : Frame} {raw : Prop} {a : List Line} {xs : List String}

theorem labels_circuitEnd (b : Bool) (exit done : String) : labels (circuitEnd b exit done) = [exit, done] := by
  cases b <;> rfl

theorem circuitEnd_lands (b : Bool) (exit done : String) {behind ahead : List String} :
    Lands behind ahead (circuitEnd b exit done) := by
  have hexit : exit ∈ [exit, done] ++ ahead := by simp
  have hdone : done ∈ [exit, done] ++ ahead := by simp
  cases b with
  | false => exact ⟨.inl hexit, .inl hdone, trivial⟩
  | true => exact ⟨.inl hexit, .inl hdone, trivial⟩

/-- **Labels are set once**: generated code sets the labels that were handed out for it, each of them once. -/
theorem Built.labels_perm (h : Built f raw a xs) : (labels a).Perm xs := by
  induction h with
  | plain hc => rw [labels_of_plain hc]
  | append _ _ ihc ihd =>
    rw [labels_append]
    exact ihc.append ihd
  | truth => exact .refl _
  | circuit b exit done _ _ ihl ihr =>
    rw [labels_append, labels_circuitCode, perm_iff_count]
    intro x
    simp only [count_append, count_cons, count_nil, ihl.count_eq, ihr.count_eq]
    omega
  | cond no done _ _ _ iht ihy iho =>
    rw [perm_iff_count]
    intro x
    simp only [condCode, Line.twoImm, Line.jump, labels_append, labels_label, labels_instr, count_append, count_cons,
      labels_nil, count_nil, iht.count_eq, ihy.count_eq, iho.count_eq]
    omega
  | loop done _ _ _ iht ihb =>
    rw [perm_iff_count]
    intro x
    simp only [loopCode, Line.jump, labels_append, labels_label, labels_instr, labels_nil, count_append,
      count_cons, count_nil, iht.count_eq, ihb.count_eq]
    omega

/-- **Jumps land**: those of generated code go to labels of this code, and only those of its loops go back. -/
theorem Built.lands (h : Built f raw a xs) : ∀ behind ahead, Lands behind ahead a := by
  induction h with
  | plain hc => exact fun _ _ => lands_plain hc
  | append _ _ ihc ihd => exact fun _ _ => (ihc _ _).append (ihd _ _)
  | truth j yes done =>
    intro behind ahead
    refine ⟨.inl ?_, .inl ?_, trivial⟩
    · show yes ∈ [yes, done] ++ ahead
      simp
    · show done ∈ [yes, done] ++ ahead
      simp
  | circuit b exit done _ _ ihl ihr =>
    intro behind ahead
    refine (ihl _ _).append ⟨.inl ?_, (ihr _ _).append (circuitEnd_lands b exit done)⟩
    rw [labels_append, labels_circuitEnd]
    simp
  | cond no done _ _ _ iht ihy iho =>
    intro behind ahead
    refine (iht _ _).append ⟨.inl ?_, (ihy _ _).append ⟨.inl ?_, (iho _ _).append trivial⟩⟩
    · simp [labels_append, Line.jump]
    · simp [labels_append]
  | loop done htop _ _ iht ihb =>
    intro behind ahead
    refine .append (a := [_]) trivial ((iht _ _).append ⟨.inl ?_, (ihb _ _).append ⟨.inr ⟨rfl, htop, ?_⟩, trivial⟩⟩)
    · simp [labels_append, Line.jump]
    · simp

end Built

/-! ### Functions -/

/-- The label that is handed out as the `k`-th one after those of the pool has their number and `k` as its number, and
the pool counts it. -/
theorem Draws.counted {α : Type} {g : Gen α} {p q : Pool} {a : α} {xs : List String} (h : Draws g p a q xs) :
    q.labels = p.labels + xs.length ∧
      ∀ (k : Nat) (x : String), xs[k]? = some x → ∃ base, x = base ++ toString (p.labels + k + 1) := by
  induction h with
  | pure => simp
  | fresh base p =>
    refine ⟨rfl, fun k x hx => ⟨base, ?_⟩⟩
    cases k with
    | zero => exact (Option.some.inj hx).symm
    | succ k => cases hx
  | intern s p => simp [labels_intern]
  | @bind _ _ _ _ p q r _ _ xs ys _ _ ihg ihh =>
    refine ⟨by rw [ihh.1, ihg.1, length_append, Nat.add_assoc], fun k x hx => ?_⟩
    rw [getElem?_append] at hx
    split at hx
    · exact ihg.2 k x hx
    · have hk : q.labels + (k - xs.length) = p.labels + k := by
        rw [ihg.1]
        omega
      exact hk ▸ ihh.2 (k - xs.length) x hx

/-- The lines of a function below its name, and the labels that were handed out for them. -/
structure Piece where
  name : String
  lines : List Line
  drawn : List String

namespace Piece

def text (p : Piece) : List Line := .exported p.name :: .label p.name :: p.lines

/-- The labels that were handed out are set once, and each jump goes to one of them: to a line that follows it, unless
it is the jump back to the label that a loop begins with. -/
structure Targeted (p : Piece) : Prop where
  generated : ∀ l ∈ p.lines, ∀ t, l ≠ .written t
  placed : (labels p.lines).Perm p.drawn
  jumps : ∀ (i : Nat) (j : Jump) (x : String), p.lines[i]? = some (.jump j x) → x ∈ p.drawn ∧
    ∃ k : Nat, p.lines[k]? = some (.label x) ∧ (i < k ∨ (k < i ∧ j = .always ∧ IsTop x))

end Piece

theorem Built.not_written {f : Frame} {a : List Line} {xs : List String} (h : Built f False a xs) :
    ∀ l ∈ a, ∀ t, l ≠ .written t := by
  refine h.lines_of (fun l hl t => ?_) (fun _ _ => by simp) fun _ _ _ => by simp [Line.jump]
  rintro rfl
  exact hl

theorem Built.targeted {f : Frame} {a : List Line} {xs : List String} (h : Built f False a xs) (name : String) :
    Piece.Targeted ⟨name, a, xs⟩ := by
  refine ⟨h.not_written, h.labels_perm, fun i j x hi => ?_⟩
  have hfind : ∃ k : Nat, a[k]? = some (.label x) ∧ (i < k ∨ (k < i ∧ j = .always ∧ IsTop x)) := by
    rcases (h.lands [] []).jump hi with hx | ⟨k, hk, hx⟩ | ⟨hj, htop, hx | ⟨k, hk, hx⟩⟩
    · cases hx
    · exact ⟨k, hx, .inl hk⟩
    · cases hx
    · exact ⟨k, hx, .inr ⟨hk, hj, htop⟩⟩
  have hset : x ∈ labels a := mem_labels.2 (hfind.imp fun _ hk => hk.1)
  exact ⟨h.labels_perm.mem_iff.1 hset, hfind⟩

theorem functionsLines_makes {fns : List (Function Note)} (h : ∀ fn ∈ fns, Stmt.allAsmFree fn.body = true) :
    Makes (fns.mapM functionLines) fun cs xs => ∃ ps : List Piece, ps.map Piece.name = fns.map (·.name) ∧
      ps.map Piece.text = cs ∧ ps.flatMap Piece.drawn = xs ∧ ∀ p ∈ ps, p.Targeted := by
  induction fns with
  | nil => exact .pure ⟨[], rfl, rfl, rfl, by simp⟩
  | cons fn fns ih =>
    rw [mapM_cons]
    refine .bind (functionLines_makes False (.inr (h fn mem_cons_self))) ?_
    rintro _ xs ⟨lines, rfl, hlines⟩
    refine .bind (ih fun fn hfn => h fn (mem_cons_of_mem _ hfn)) ?_
    rintro _ _ ⟨ps, hnames, rfl, rfl, hps⟩
    exact .pure ⟨⟨fn.name, lines, xs⟩ :: ps, by simp [hnames], rfl, by simp,
      forall_mem_cons.2 ⟨hlines.targeted fn.name, hps⟩⟩

theorem Piece.labels_text (ps : List Piece) (h : ∀ p ∈ ps, p.Targeted) :
    (labels (ps.flatMap Piece.text)).Perm (ps.map Piece.name ++ ps.flatMap Piece.drawn) := by
  induction ps with
  | nil => exact .refl _
  | cons p ps ih =>
    have hrest := ih fun p hp => h p (mem_cons_of_mem _ hp)
    have hp := (h p mem_cons_self).placed
    have htext : labels ((p :: ps).flatMap Piece.text) = p.name :: (labels p.lines ++ labels (ps.flatMap Piece.text)) := by
      rw [flatMap_cons, labels_append]
      rfl
    rw [htext, map_cons, flatMap_cons, cons_append, perm_cons]
    exact (hp.append hrest).trans (perm_append_comm_assoc _ _ _)

/-! ### Programs -/

theorem emit_of_asmFree {source : String} {prog : Program Note} (h : checkedProgram source = .ok prog)
    (hfree : prog.asmFree = true) :
    ∃ cs pool, prog.functions.mapM functionLines {} = .ok (cs, pool) ∧ emit prog = .ok ⟨cs.flatten, pool⟩ := by
  have hnone : failure? (emit prog) = none := by
    rw [emit_failure (Bytecode.accepted_of_source h) (allRead_of_source h), findSome?_eq_none_iff]
    intro fn hfn
    exact complaint?_eq_none.2 (Stmt.inlines_of_allAsmFree _ (all_eq_true.1 hfree fn hfn))
  obtain ⟨listing, hlisting⟩ := failure?_eq_none.1 hnone
  obtain ⟨⟨cs, pool⟩, hrun, hok⟩ := bind_eq_ok.1 hlisting
  exact ⟨cs, pool, hrun, by rw [hlisting, ← hok]; rfl⟩

/-- **Jumps are well targeted.** The labels handed out for a listing differ, and it sets each of them once, beside the
names of the functions. A jump goes to one of those that were handed out for the function that it is in, and forward
unless it closes a loop. -/
theorem jumps_targeted {source : String} {prog : Program Note} (h : checkedProgram source = .ok prog)
    (hfree : prog.asmFree = true) : ∃ (ps : List Piece) (pool : Pool) (drawn : List String),
      emit prog = .ok ⟨ps.flatMap Piece.text, pool⟩ ∧
      Draws (prog.functions.mapM functionLines) {} (ps.map Piece.text) pool drawn ∧
      drawn = ps.flatMap Piece.drawn ∧ drawn.Nodup ∧ drawn.length = pool.labels ∧
      (∀ (k : Nat) (x : String), drawn[k]? = some x → ∃ base, x = base ++ toString (k + 1)) ∧
      ps.map Piece.name = prog.functions.map (·.name) ∧
      (labels (ps.flatMap Piece.text)).Perm (prog.functions.map (·.name) ++ drawn) ∧ ∀ p ∈ ps, p.Targeted := by
  obtain ⟨cs, pool, hrun, hemit⟩ := emit_of_asmFree h hfree
  obtain ⟨drawn, hdraws, hnum, ps, hnames, rfl, rfl, hps⟩ :=
    functionsLines_makes (List.all_eq_true.1 hfree) _ _ _ hrun
  obtain ⟨hcount, hnumber⟩ := hdraws.counted
  refine ⟨ps, pool, _, ?_, hdraws, rfl, hnum.nodup, ?_, fun k x hx => ?_, hnames, ?_, hps⟩
  · rw [hemit, List.flatMap_def]
  · simpa using hcount.symm
  · simpa using hnumber k x hx
  · exact hnames ▸ Piece.labels_text ps hps

/-- Conditions in loops and loops in conditionals, in two functions. -/
def scattered : String :=
  "fn clear(n: int) \x7b let a: int[4]; if (n > 1) \x7b memset(&a, n, 2); \x7d else \x7b memcpy(&a[2], &a, 4); \x7d \x7d
fn main() \x7b let i: int = 0; while (i < 3 && !(i == 2)) \x7b if (i != 1 || i >= 2) \x7b i = i + 1; \x7d \x7d \x7d"

set_option maxRecDepth 2000 in
theorem scattered_targeted : ∃ prog, checkedProgram scattered = .ok prog ∧ prog.asmFree = true ∧
    ∃ (ps : List Piece) (pool : Pool) (drawn : List String), emit prog = .ok ⟨ps.flatMap Piece.text, pool⟩ ∧
      ps.map Piece.name = ["clear", "main"] ∧ pool.labels = 26 ∧ drawn.length = 26 ∧ drawn.Nodup ∧
      (labels (ps.flatMap Piece.text)).Perm ("clear" :: "main" :: drawn) ∧ ∀ p ∈ ps, p.Targeted := by
  obtain ⟨prog, hprog, hfree, hnames, listing, hlisting, hcount⟩ : ∃ prog, checkedProgram scattered = .ok prog ∧
      prog.asmFree = true ∧ prog.functions.map (·.name) = ["clear", "main"] ∧
      ∃ listing, emit prog = .ok listing ∧ listing.pool.labels = 26 := by
    rw [checkedProgram, show Token.tokens scattered = _ from Token.tokens_ofList _]
    decide +kernel
  obtain ⟨ps, pool, drawn, hemit, -, -, hnodup, hlength, -, hps, hperm, htargeted⟩ := jumps_targeted hprog hfree
  obtain rfl : listing = ⟨ps.flatMap Piece.text, pool⟩ := by simpa using hlisting.symm.trans hemit
  rw [hnames] at hps hperm
  exact ⟨prog, hprog, hfree, ps, pool, drawn, hemit, hps, hcount, hlength.trans hcount, hnodup, hperm, htargeted⟩

end Assembly

end Workbench
