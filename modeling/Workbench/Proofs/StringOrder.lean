import Workbench.Proofs.CallFree
import Workbench.Proofs.LiteralSites

/-!
# Comparisons of strings

A string is its number, so two strings are compared by their numbers, and a literal has a number for itself, in the
order of the code. `strings_compared` says what follows: two strings are equal for the machine if they come from the
same literal, and of two literals the earlier one is the lesser. This agrees with the texts throughout a program exactly
if no two of its literals have the same text and, for the orderings, if they stand in the order of their texts.
-/

open List

namespace Workbench

/-- What a comparison says of two values of an ordered type. -/
def BinaryOp.compare? {α : Type} [DecidableEq α] [LT α] [DecidableLT α] (a b : α) : BinaryOp → Option Bool
  | .eq => some (decide (a = b))
  | .ne => some (decide (a ≠ b))
  | .lt => some (decide (a < b))
  | .le => some (decide ¬ b < a)
  | .gt => some (decide (b < a))
  | .ge => some (decide ¬ a < b)
  | .add | .sub | .mul | .div | .and | .or | .other _ => none

namespace Bytecode

open Machine (Image State step ofBool)
open Typing (Note)

/-! ### Numbers and texts -/

/-- A comparison says of the numbers of any two strings what it says of their texts. -/
def Faithful (op : BinaryOp) (strings : List String) : Prop :=
  ∀ (i j : Nat) (s t : String), strings[i]? = some s → strings[j]? = some t → op.compare? i j = op.compare? s t

section Faithful

variable {strings : List String}

theorem faithful_eq : Faithful .eq strings ↔ strings.Nodup := by
  simp only [Faithful, BinaryOp.compare?, Option.some.injEq, decide_eq_decide]
  constructor
  · intro h
    rw [List.Nodup, pairwise_iff_getElem]
    intro i j hi hj hij heq
    have hiff := h i j _ _ (getElem?_eq_getElem hi) (getElem?_eq_getElem hj)
    exact Nat.ne_of_lt hij (hiff.2 heq)
  · intro h i j s t hs ht
    constructor
    · rintro rfl
      exact Option.some.inj (hs.symm.trans ht)
    · rintro rfl
      exact (List.getElem?_inj (List.getElem?_eq_some_iff.1 hs).1 h).1 (hs.trans ht.symm)

theorem faithful_ne : Faithful .ne strings ↔ strings.Nodup := by
  rw [← faithful_eq]
  simp only [Faithful, BinaryOp.compare?, Option.some.injEq, decide_eq_decide, not_iff_not]

theorem faithful_lt : Faithful .lt strings ↔ strings.Pairwise (· < ·) := by
  simp only [Faithful, BinaryOp.compare?, Option.some.injEq, decide_eq_decide]
  constructor
  · intro h
    rw [pairwise_iff_getElem]
    intro i j hi hj hij
    exact (h i j _ _ (getElem?_eq_getElem hi) (getElem?_eq_getElem hj)).1 hij
  · intro h i j s t hs ht
    obtain ⟨hi, rfl⟩ := List.getElem?_eq_some_iff.1 hs
    obtain ⟨hj, rfl⟩ := List.getElem?_eq_some_iff.1 ht
    rw [pairwise_iff_getElem] at h
    refine ⟨h i j hi hj, fun hlt => ?_⟩
    -- The texts of two other positions have another order.
    rcases Nat.lt_trichotomy i j with hij | rfl | hij
    · exact hij
    · exact absurd hlt (String.lt_irrefl _)
    · exact absurd (h j i hj hi hij) (String.lt_asymm hlt)

theorem faithful_gt : Faithful .gt strings ↔ Faithful .lt strings := by
  simp only [Faithful]
  exact ⟨fun h i j s t hs ht => h j i t s ht hs, fun h i j s t hs ht => h j i t s ht hs⟩

theorem faithful_ge : Faithful .ge strings ↔ Faithful .lt strings := by
  simp only [Faithful, BinaryOp.compare?, Option.some.injEq, decide_eq_decide, not_iff_not]

theorem faithful_le : Faithful .le strings ↔ Faithful .lt strings := by
  rw [← faithful_gt]
  simp only [Faithful, BinaryOp.compare?, Option.some.injEq, decide_eq_decide, not_iff_not]

end Faithful

/-! ### The machine -/

/-- The last instruction of a comparison compares the operands as integers. -/
theorem step_comparison {img : Image} {env : Env} {p : Place} {note : Note} {op : BinaryOp} {l r : Expr Note}
    {s : State} {i j : Nat} {rest : List Int} {b : Bool}
    (hcode : img.Has p.pc (exprCode env p (.binary note op l r)).code)
    (hpc : s.pc + 1 = p.pc + (exprCode env p (.binary note op l r)).code.length)
    (hstack : s.stack = (j : Int) :: (i : Int) :: rest) (hb : op.compare? i j = some b) :
    step img s = .next ⟨s.pc + 1, ofBool b :: rest, s.locals, s.calls⟩ none := by
  obtain ⟨pc, stack, locals, calls⟩ := s
  subst hstack
  cases op with
  | add | sub | mul | div | and | or | other => cases hb
  | _ =>
    obtain rfl := Option.some.inj hb
    simp only [exprCode, Piece.code_append, Piece.code_ofCode, binaryOps, map_cons, map_nil] at hcode hpc
    have hlast := hcode.right.head
    simp only [length_append, length_cons, length_nil] at hpc hlast
    have hat : pc = (p.pc + ((exprCode env p l).code.length +
        (exprCode env (p.after (exprCode env p l)) r).code.length) : Nat) := by
      omega
    rw [Machine.step_of_code hlast hat, hat]
    simp only [Machine.execute, State.pop₂, State.push, Int.natCast_inj, Int.ofNat_lt, Int.ofNat_le, not_lt, ne_eq]

/-- **Strings are compared by the places of their literals.** A comparison of the strings of the literals `i` and `j`,
whichever way they came there, compares `i` and `j`. So equality is right about every two strings of a program exactly
if no two of its literals have the same text, and an ordering exactly if they stand in the order of their texts. -/
theorem strings_compared {source : String} {prog : Program Note} {obj : Object}
    (hprog : checkedProgram source = .ok prog) (hobj : emit prog = .ok obj) :
    (literals prog).map (·.2) = obj.strings ∧
      (∀ (i : Nat) (q : Place) (t : String), (literals prog)[i]? = some (q, t) →
        obj.image.code[q.pc]? = some ⟨.pushInt, some (i : Int)⟩ ∧ obj.image.text i = t) ∧
      (∀ (env : Env) (p : Place) (note : Note) (op : BinaryOp) (l r : Expr Note) (s : State) (i j : Nat)
          (t u : String) (rest : List Int) (b : Bool), obj.image.Has p.pc (exprCode env p (.binary note op l r)).code →
        s.pc + 1 = p.pc + (exprCode env p (.binary note op l r)).code.length →
        s.stack = (j : Int) :: (i : Int) :: rest → obj.strings[i]? = some t → obj.strings[j]? = some u →
        op.compare? i j = some b →
          step obj.image s = .next ⟨s.pc + 1, ofBool b :: rest, s.locals, s.calls⟩ none ∧
            (op = .eq ∨ op = .ne → (op.compare? t u = some b ↔ i = j ∨ t ≠ u))) ∧
      (∀ op ∈ [BinaryOp.eq, .ne], Faithful op obj.strings ↔ obj.strings.Nodup) ∧
      ∀ op ∈ [BinaryOp.lt, .le, .gt, .ge], Faithful op obj.strings ↔ obj.strings.Pairwise (· < ·) := by
  have hnodup : (names prog).Nodup := (accepted_of_source hprog).entered.nodup
  refine ⟨strings_literals hnodup hobj, fun i q t hi => ?_, ?_, ?_, ?_⟩
  · obtain ⟨rfl, htext⟩ := getElem?_literals hnodup hobj hi
    obtain ⟨c, hcode, -, hlaid⟩ := exists_laid hnodup hobj
    exact ⟨hlaid.code_literalsOf (hcode ▸ has_image obj) _ (List.mem_of_getElem? hi), htext⟩
  · intro env p note op l r s i j t u rest b hcode hpc hstack ht hu hb
    refine ⟨step_comparison hcode hpc hstack hb, fun hop => ?_⟩
    have hsame : i = j → t = u := by
      rintro rfl
      exact Option.some.inj (ht.symm.trans hu)
    rw [← hb, eq_comm]
    rcases hop with rfl | rfl <;> by_cases hij : i = j <;> simp [BinaryOp.compare?, hij, hsame]
  · simp [faithful_eq, faithful_ne]
  · simp [faithful_gt, faithful_ge, faithful_le, faithful_lt]

/-- Compares two literals with the same text. -/
def sameText : String := "fn main(): bool \x7b return \"a\" == \"a\"; \x7d"

/-- The code of `sameText`. -/
def sameTextImage : Image where
  code := #[⟨.pushInt, some 0⟩, ⟨.pushInt, some 1⟩, ⟨.cmpEq, none⟩, ⟨.ret, none⟩, ⟨.ret, none⟩]
  functions := #[⟨"main", 0, 0, 0⟩]
  strings := [(0, "a"), (1, "a")]

/-- What `sameText` returns. -/
def sameTextValue : Expr Note :=
  .binary (some .bool) .eq (.lit (some .str) (.str "a")) (.lit (some .str) (.str "a"))

theorem exists_sameText : ∃ prog obj, checkedProgram sameText = .ok prog ∧ emit prog = .ok obj ∧
    obj.image.code = sameTextImage.code ∧ obj.strings = ["a", "a"] := by
  obtain ⟨prog, hprog, obj, hobj, hparts⟩ : ∃ prog, checkedProgram sameText = .ok prog ∧ ∃ obj, emit prog = .ok obj ∧
      obj.image.code = sameTextImage.code ∧ obj.strings = ["a", "a"] := by decide +kernel
  exact ⟨prog, obj, hprog, hobj, hparts⟩

/-- The machine tells the two literals of `sameText` apart. -/
theorem sameText_compared : ∃ prog obj, checkedProgram sameText = .ok prog ∧ emit prog = .ok obj ∧
    (literals prog).map (·.2) = ["a", "a"] ∧ ¬ Faithful .eq obj.strings ∧
    step obj.image ⟨2, [1, 0], #[], []⟩ = .next ⟨3, [0], #[], []⟩ none ∧
    BinaryOp.eq.compare? "a" "a" = some true := by
  obtain ⟨prog, obj, hprog, hobj, himage, hstrings⟩ := exists_sameText
  obtain ⟨htexts, -, hsites, hequal, -⟩ := strings_compared hprog hobj
  have hcode : obj.image.Has 0 (exprCode ⟨{}, []⟩ ⟨0, 0⟩ sameTextValue).code := by
    unfold Image.Has
    rw [himage]
    decide
  obtain ⟨hstep, -⟩ := hsites ⟨{}, []⟩ ⟨0, 0⟩ (some .bool) .eq _ _ ⟨2, [1, 0], #[], []⟩ 0 1 "a" "a" [] false hcode rfl
    rfl (by rw [hstrings]; rfl) (by rw [hstrings]; rfl) (by decide)
  refine ⟨prog, obj, hprog, hobj, htexts.trans hstrings, ?_, hstep, by decide⟩
  rw [hequal .eq (by simp), hstrings]
  decide

theorem sameText_exits_zero : imageOf sameText = .ok sameTextImage ∧ sameTextImage.Ends [] (.exit 0) :=
  ⟨by decide +kernel, ⟨by simp, 10, by decide⟩⟩

end Bytecode

end Workbench
