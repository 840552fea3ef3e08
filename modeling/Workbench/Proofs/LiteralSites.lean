import Workbench.Proofs.Link

/-!
# Where literals stand

A string literal compiles to an instruction that pushes its number. `literals` lists the literals of a program in the
order of the code, each with the place of its instruction. The `i`-th one has the number `i`, whatever its text
(`zipIdx_literals`), and its place holds the instruction that pushes `i` (`code_literals`).
-/

open List

namespace Workbench.Bytecode

open Machine (Instr Image)
open Typing (Note)

def Shape.literals (number : String → Nat) (p : Place) : Shape → List (Place × String)
  | .text s | .say _ s => [(p, s)]
  | .seq a b => a.literals number p ++ b.literals number (p.after (a.code number p))
  | .circuit _ a => a.literals number (p.skip 1)
  | .branch a b =>
    a.literals number (p.skip 1) ++ b.literals number (((p.skip 1).after (a.code number (p.skip 1))).skip 1)
  | .loop a b => a.literals number p ++ b.literals number ((p.after (a.code number p)).skip 1)
  | .drop a => a.literals number p
  | .skip | .instr _ | .call _ | .ret => []

section Shape

variable (number : String → Nat)

theorem Shape.zipIdx_literals (s : Shape) : ∀ p, (s.literals number p).map (fun l => (l.2, l.1.string)) =
    s.strings.zipIdx p.string := by
  induction s with
  | skip | instr | text | say | call | ret => exact fun p => rfl
  | seq a b iha ihb | branch a b iha ihb | loop a b iha ihb =>
    intro p
    simp [literals, strings, iha, ihb, zipIdx_append]
  | circuit d a iha | drop a iha =>
    intro p
    simp [literals, strings, iha]

theorem Shape.code_literals {img : Image} (s : Shape) : ∀ p, img.Has p.pc (s.code number p).code →
    ∀ l ∈ s.literals number p, img.code[l.1.pc]? = some ⟨.pushInt, some (l.1.string : Int)⟩ := by
  induction s with
  | skip | instr | call | ret =>
    intro p _ l hl
    cases hl
  | text s | say nl s =>
    intro p hcode l hl
    obtain rfl := mem_singleton.1 hl
    exact hcode.head
  | seq a b iha ihb =>
    intro p hcode l hl
    rcases mem_append.1 hl with hl | hl
    · exact iha p hcode.left l hl
    · exact ihb _ hcode.right l hl
  | circuit d a iha =>
    intro p hcode l hl
    refine iha (p.skip 1) ?_ l hl
    simp only [code, Piece.code_append, Piece.code_arg, append_assoc] at hcode
    exact hcode.right.left
  | branch a b iha ihb =>
    intro p hcode l hl
    simp only [code, Piece.code_append, Piece.code_arg, append_assoc] at hcode
    rcases mem_append.1 hl with hl | hl
    · exact iha (p.skip 1) hcode.right.left l hl
    · exact ihb _ hcode.right.right.right l hl
  | loop a b iha ihb =>
    intro p hcode l hl
    simp only [code, Piece.code_append, Piece.code_arg, append_assoc] at hcode
    rcases mem_append.1 hl with hl | hl
    · exact iha p hcode.left l hl
    · exact ihb _ hcode.right.right.left l hl
  | drop a iha => exact iha

end Shape

/-! ### The literals of a program -/

/-- The literals of functions from `p` on, after the functions of `known`. -/
def literalsOf (number : String → Nat) : (known : List String) → (p : Place) → List (Function Note) →
    List (Place × String)
  | _, _, [] => []
  | known, p, f :: fs =>
    let body := (routineOf (known ++ [f.name]) p.string f).body
    body.literals number p ++
      literalsOf number (known ++ [f.name]) (p.after (body.code number p ++ closingCode f.returnType)) fs

/-- The literals of a program in the order of its code, with their places. -/
def literals (prog : Program Note) : List (Place × String) :=
  literalsOf (fun g => (names prog).idxOf g) [] ⟨0, 0⟩ prog.functions

namespace Laid

variable {all known : List String} {p : Place} {fs : List (Function Note)} {rs : List Routine} {c : Piece}
  {infos : List Compiled} (h : Laid all known p fs rs c infos)
include h

theorem zipIdx_literalsOf :
    (literalsOf (fun g => all.idxOf g) known p fs).map (fun l => (l.2, l.1.string)) = c.strings.zipIdx p.string := by
  induction h with
  | nil => rfl
  | cons _ hr hbody _ _ ih =>
    subst hr hbody
    simp only [literalsOf, map_append, Shape.zipIdx_literals, ih]
    simp [zipIdx_append, strings_closingCode]

theorem code_literalsOf {img : Image} : img.Has p.pc c.code → ∀ l ∈ literalsOf (fun g => all.idxOf g) known p fs,
    img.code[l.1.pc]? = some ⟨.pushInt, some (l.1.string : Int)⟩ := by
  induction h with
  | nil =>
    intro _ l hl
    cases hl
  | cons _ hr hbody _ _ ih =>
    intro hcode l hl
    subst hr hbody
    rcases mem_append.1 hl with hl | hl
    · exact Shape.code_literals _ _ _ (by simpa using hcode.left.left) l hl
    · exact ih hcode.right l hl

theorem literalsOf_function : ∀ (i : Nat) {r : Routine} {info : Compiled}, rs[i]? = some r → infos[i]? = some info →
    ∀ l ∈ r.body.literals (fun g => all.idxOf g) ⟨info.entry, r.string⟩,
      l ∈ literalsOf (fun g => all.idxOf g) known p fs := by
  induction h with
  | nil => simp
  | cons _ hr hbody _ _ ih =>
    subst hr hbody
    rintro (_ | i) r info hget hinfo l hl
    · cases hget
      cases hinfo
      exact mem_append_left _ hl
    · exact mem_append_right _ (ih i hget hinfo l hl)

end Laid

section Emitted

variable {prog : Program Note} {obj : Object}

theorem zipIdx_literals (hnodup : (names prog).Nodup) (h : emit prog = .ok obj) :
    (literals prog).map (fun l => (l.2, l.1.string)) = obj.strings.zipIdx := by
  obtain ⟨c, -, hstrings, hlaid⟩ := exists_laid hnodup h
  rw [hstrings]
  exact hlaid.zipIdx_literalsOf

theorem strings_literals (hnodup : (names prog).Nodup) (h : emit prog = .ok obj) :
    (literals prog).map (·.2) = obj.strings := by
  have htexts := congrArg (map Prod.fst) (zipIdx_literals hnodup h)
  simpa [Function.comp_def] using htexts

theorem getElem?_literals (hnodup : (names prog).Nodup) (h : emit prog = .ok obj) {i : Nat} {q : Place} {t : String}
    (hi : (literals prog)[i]? = some (q, t)) : q.string = i ∧ obj.image.text i = t := by
  have hget : obj.strings.zipIdx[i]? = some (t, q.string) := by
    rw [← zipIdx_literals hnodup h, getElem?_map, hi]
    rfl
  rw [getElem?_zipIdx, Option.map_eq_some_iff] at hget
  obtain ⟨t', ht, heq⟩ := hget
  obtain ⟨rfl, hq⟩ := Prod.mk.inj heq
  refine ⟨by omega, ?_⟩
  have hlookup : obj.numberedStrings.reverse.lookup (i : Int) = some t' := (lookup_numbered obj.strings i).trans ht
  rw [Image.text, Object.image, hlookup, Option.getD_some]

end Emitted

end Workbench.Bytecode
