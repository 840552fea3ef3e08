import Mathlib.Data.List.TakeWhile
import Workbench.Editor.Painting

/-!
# Painting line by line

The parts that are highlighted in a text are those of its lines: comments and words end with the line, and so do strings
if none of them holds a newline. So to paint every line, in any order, puts the same tags on every character of a line as
to paint the whole text (`lines_painted`).
-/

open List

namespace Workbench.Editor

open Painting Index

/-- The part that lies `k` characters further on. -/
def Span.shift (k : Nat) (s : Span) : Span := ⟨s.start + k, s.stop + k⟩

/-- The part has the character at this offset. -/
def Span.Covers (s : Span) (i : Nat) : Prop := s.start ≤ i ∧ i < s.stop

variable {l rest cs text : List Char} {pos skip n i k : Nat} {before : Option Char} {s : Span} {t : Tag}

/-- Induction on the lines of a text. -/
theorem line_induction {motive : List Char → Prop} (last : ∀ l, '\n' ∉ l → motive l)
    (line : ∀ l rest, '\n' ∉ l → motive rest → motive (l ++ '\n' :: rest)) (text : List Char) : motive text := by
  have hfrom : ∀ l, '\n' ∉ l → motive (l ++ text) := by
    induction text with
    | nil =>
      intro l hl
      rw [append_nil]
      exact last l hl
    | cons c text ih =>
      intro l hl
      by_cases hc : c = '\n'
      · subst hc
        exact line l text hl (ih [] not_mem_nil)
      · rw [append_cons]
        exact ih _ (by simp [hl, Ne.symm hc])
  exact hfrom [] not_mem_nil

/-! ### Parts of lines -/

/-- Whether there is a part at the front of a line, and where it ends if that is within the line, is decided by the
line. A newline before the line is like nothing before it. -/
structure Local (length? : Option Char → List Char → Option Nat) : Prop where
  within : ∀ {before cs n}, length? before cs = some n → n ≤ cs.length
  newline : ∀ before rest, length? before ('\n' :: rest) = none
  start : length? (some '\n') = length? none
  line : ∀ {before l n} rest, '\n' ∉ l →
    (length? before l = some n ↔ length? before (l ++ '\n' :: rest) = some n ∧ n ≤ l.length)

/-- The line alone decides about the part at its front. -/
def Decided (length? : Option Char → List Char → Option Nat) : Prop :=
  ∀ before l rest, '\n' ∉ l → length? before (l ++ '\n' :: rest) = length? before l

section Parts

variable {length? : Option Char → List Char → Option Nat}

theorem partsFrom_shift (k : Nat) :
    partsFrom length? (pos + k) skip before cs = (partsFrom length? pos skip before cs).map (Span.shift k) := by
  induction cs generalizing pos skip before with
  | nil => rfl
  | cons c cs ih =>
    cases skip with
    | succ skip => rw [partsFrom, partsFrom, Nat.add_right_comm, ih]
    | zero =>
      rw [partsFrom, partsFrom, Nat.add_right_comm]
      split
      · rw [ih, map_cons, Span.shift, Nat.add_right_comm]
      · exact ih

namespace Local

theorem partsFrom_within (h : Local length?) (hs : s ∈ partsFrom length? pos skip before cs) :
    s.start ≤ s.stop ∧ s.stop ≤ pos + cs.length := by
  induction cs generalizing pos skip before with
  | nil => cases hs
  | cons c cs ih =>
    have hlength : pos + (c :: cs).length = pos + 1 + cs.length := by
      rw [length_cons]
      omega
    cases skip with
    | succ skip => exact hlength ▸ ih hs
    | zero =>
      rw [partsFrom] at hs
      split at hs
      · obtain rfl | hs := mem_cons.1 hs
        · exact ⟨Nat.le_add_right .., Nat.add_le_add_left (h.within ‹_›) pos⟩
        · exact hlength ▸ ih hs
      · exact hlength ▸ ih hs

theorem partsFrom_start (h : Local length?) : partsFrom length? pos 0 (some '\n') cs = partsFrom length? pos 0 none cs := by
  cases cs with
  | nil => rfl
  | cons c cs => rw [partsFrom, partsFrom, h.start]

/-- The parts of a text whose first line is `l`, if none of them reaches beyond that line. -/
theorem partsFrom_line (h : Local length?) (hl : '\n' ∉ l) (hskip : skip ≤ l.length)
    (hfree : Decided length? ∨
      ∀ s ∈ partsFrom length? pos skip before (l ++ '\n' :: rest), ¬ s.Covers (pos + l.length)) :
    partsFrom length? pos skip before (l ++ '\n' :: rest) =
      partsFrom length? pos skip before l ++ partsFrom length? (pos + (l.length + 1)) 0 none rest := by
  induction l generalizing pos skip before with
  | nil =>
    cases Nat.le_zero.1 hskip
    have hnewline : partsFrom length? pos 0 before ('\n' :: rest) = partsFrom length? (pos + 1) 0 (some '\n') rest := by
      rw [partsFrom, h.newline]
    exact hnewline.trans h.partsFrom_start
  | cons c l ih =>
    have hl' : '\n' ∉ l := fun hmem => hl (mem_cons_of_mem c hmem)
    have hpos : pos + (c :: l).length = pos + 1 + l.length := by
      rw [length_cons]
      omega
    have hrest : pos + ((c :: l).length + 1) = pos + 1 + (l.length + 1) := congrArg (· + 1) hpos
    rw [hpos, cons_append] at hfree
    rw [hrest, cons_append]
    cases skip with
    | succ skip => exact ih hl' (Nat.le_of_succ_le_succ hskip) hfree
    | zero =>
      rw [partsFrom] at hfree ⊢
      cases hwhole : length? before (c :: (l ++ '\n' :: rest)) with
      | some n =>
        rw [hwhole] at hfree
        have hn : n ≤ (c :: l).length := by
          obtain hdecided | hfree := hfree
          · exact h.within ((hdecided _ _ rest hl).symm.trans hwhole)
          · have := hfree _ mem_cons_self
            unfold Span.Covers at this
            dsimp only at this
            omega
        rw [partsFrom, (h.line rest hl).2 ⟨hwhole, hn⟩]
        exact congrArg _ (ih hl' (by omega)
          (hfree.imp_right fun hfree s hs => hfree s (mem_cons_of_mem _ hs)))
      | none =>
        rw [hwhole] at hfree
        have hnone : length? before (c :: l) = none := by
          cases hsome : length? before (c :: l) with
          | none => rfl
          | some n => cases hwhole.symm.trans ((h.line rest hl).1 hsome).1
        rw [partsFrom, hnone]
        exact ih hl' (Nat.zero_le _) hfree

theorem of_decided (within : ∀ {before cs n}, length? before cs = some n → n ≤ cs.length)
    (newline : ∀ before rest, length? before ('\n' :: rest) = none) (start : length? (some '\n') = length? none)
    (h : Decided length?) : Local length? where
  within := within
  newline := newline
  start := start
  line rest hl := by
    rw [h _ _ rest hl]
    exact ⟨fun hsome => ⟨hsome, within hsome⟩, And.left⟩

end Local

end Parts

theorem takeWhile_line {p : Char → Bool} (hp : p '\n' = false) (l rest : List Char) :
    (l ++ '\n' :: rest).takeWhile p = l.takeWhile p := by
  induction l with
  | nil => exact takeWhile_cons_of_neg (by rw [hp]; exact Bool.false_ne_true)
  | cons c l ih => rw [cons_append, takeWhile_cons, takeWhile_cons, ih]

/-! ### Comments -/

theorem decided_comment : Decided fun _ => commentLength? := by
  intro _ l rest _
  have hmarks : ['/', '/'].isPrefixOf (l ++ '\n' :: rest) = ['/', '/'].isPrefixOf l := by
    match l with
    | [] | [_] | _ :: _ :: _ => simp [isPrefixOf]
  dsimp only [commentLength?]
  rw [hmarks, takeWhile_line rfl]

theorem local_comment : Local fun _ => commentLength? := by
  refine .of_decided (fun {_ cs n} h => ?_) (fun _ _ => rfl) rfl decided_comment
  unfold commentLength? at h
  split at h
  · cases h
    exact (List.takeWhile_prefix _).length_le
  · cases h

/-! ### Strings -/

theorem stringRest?_le (h : stringRest? cs = some n) : n ≤ cs.length := by
  fun_induction stringRest? cs generalizing n with
  | case1 | case3 | case5 => cases h
  | case2 =>
    cases h
    exact Nat.succ_pos _
  | case4 c cs _ ih =>
    obtain ⟨m, hm, rfl⟩ := Option.map_eq_some_iff.1 h
    exact Nat.add_le_add_right (ih hm) 2
  | case6 c cs _ _ _ ih =>
    obtain ⟨m, hm, rfl⟩ := Option.map_eq_some_iff.1 h
    exact Nat.add_le_add_right (ih hm) 1

/-- The bound moves along with a length that more characters are added to. -/
theorem map_add_eq_some {a b : Option Nat} {m : Nat} (j : Nat) (h : ∀ {n}, a = some n ↔ b = some n ∧ n ≤ m) :
    a.map (· + j) = some n ↔ b.map (· + j) = some n ∧ n ≤ m + j := by
  simp only [Option.map_eq_some_iff]
  constructor
  · rintro ⟨k, hk, rfl⟩
    exact ⟨⟨k, (h.1 hk).1, rfl⟩, Nat.add_le_add_right (h.1 hk).2 j⟩
  · rintro ⟨⟨k, hk, rfl⟩, hle⟩
    exact ⟨k, h.2 ⟨hk, Nat.le_of_add_le_add_right hle⟩, rfl⟩

theorem stringRest?_line (rest : List Char) :
    stringRest? l = some n ↔ stringRest? (l ++ '\n' :: rest) = some n ∧ n ≤ l.length := by
  fun_induction stringRest? l generalizing n with
  | case1 =>
    refine ⟨fun h => (by cases h), fun h => ?_⟩
    obtain ⟨m, -, rfl⟩ := Option.map_eq_some_iff.1 h.1
    exact absurd h.2 (Nat.not_succ_le_zero m)
  | case2 cs =>
    refine ⟨fun h => ?_, And.left⟩
    cases h
    exact ⟨rfl, Nat.succ_pos _⟩
  | case3 c cs hc =>
    rw [cons_append, cons_append, stringRest?, if_pos hc]
    exact ⟨fun h => (by cases h), And.left⟩
  | case4 c cs hc ih =>
    rw [cons_append, cons_append, stringRest?, if_neg hc]
    exact map_add_eq_some 2 ih
  | case5 => exact ⟨fun h => (by cases h), And.left⟩
  | case6 c cs hquote hback hlast ih =>
    have hslash : c ≠ '\\' := by
      intro hc
      cases cs with
      | nil => exact hlast hc rfl
      | cons d ds => exact hback d ds hc rfl
    rw [cons_append, stringRest?]
    · exact map_add_eq_some 1 ih
    · exact hquote
    · exact fun _ _ hc => absurd hc hslash
    · exact fun hc => absurd hc hslash

theorem local_string : Local fun _ => stringLength? where
  within {_ cs n} h := by
    unfold stringLength? at h
    split at h
    · obtain ⟨m, hm, rfl⟩ := Option.map_eq_some_iff.1 h
      exact Nat.add_le_add_right (stringRest?_le hm) 1
    · cases h
  newline _ _ := rfl
  start := rfl
  line {_ l n} rest hl := by
    cases l with
    | nil => exact ⟨fun h => (by cases h), And.left⟩
    | cons c l =>
      by_cases hc : c = '"'
      · subst hc
        exact map_add_eq_some 1 (stringRest?_line rest)
      · have hnone : ∀ cs, stringLength? (c :: cs) = none := by
          intro cs
          unfold stringLength?
          split
          · rename_i heq
            cases heq
            exact absurd rfl hc
          · rfl
        rw [cons_append, hnone, hnone]
        exact ⟨fun h => (by cases h), And.left⟩

/-! ### Words -/

theorem decided_word {chosen : List Char → Bool} {m : List Char → Nat}
    (hmore : ∀ l rest, '\n' ∉ l → m (l ++ '\n' :: rest) = m l) : Decided (wordLength? chosen m) := by
  intro before l rest hl
  have hdrop : (l ++ '\n' :: rest).drop (l.takeWhile Text.isWordChar).length =
      l.drop (l.takeWhile Text.isWordChar).length ++ '\n' :: rest :=
    drop_append_of_le_length (List.takeWhile_prefix _).length_le
  simp only [wordLength?, takeWhile_line (show Text.isWordChar '\n' = false by decide +kernel), hdrop,
    hmore _ rest fun hmem => hl (mem_of_mem_drop hmem)]

theorem local_word {chosen : List Char → Bool} {m : List Char → Nat} (hle : ∀ cs, m cs ≤ cs.length)
    (hmore : ∀ l rest, '\n' ∉ l → m (l ++ '\n' :: rest) = m l) : Local (wordLength? chosen m) := by
  have hnewline : Text.isWordChar '\n' = false := by decide +kernel
  refine .of_decided (fun {before cs n} h => ?_) (fun before rest => ?_) ?_ (decided_word hmore)
  · unfold wordLength? at h
    split at h
    · cases h
    · dsimp only at h
      split at h
      · cases h
        have hword := (List.takeWhile_prefix Text.isWordChar (l := cs)).length_le
        have hrest := hle (cs.drop (cs.takeWhile Text.isWordChar).length)
        rw [length_drop] at hrest
        omega
      · cases h
  · simp only [wordLength?, takeWhile_cons, hnewline, Bool.false_eq_true, if_false, isEmpty_nil, Bool.not_true,
      Bool.false_and, ite_self]
  · funext cs
    simp only [wordLength?, Option.any_some, Option.any_none, hnewline]

theorem sizeLength_le (cs : List Char) : sizeLength cs ≤ cs.length := by
  unfold sizeLength
  split
  · rename_i cs
    dsimp only
    split
    · rename_i c ds hdrop
      have hlength := congrArg length hdrop
      rw [length_drop, length_cons, length_cons] at hlength
      split
      · rw [length_cons]
        omega
      · exact Nat.zero_le _
    · exact Nat.zero_le _
  · exact Nat.zero_le _

theorem sizeLength_line (l rest : List Char) : sizeLength (l ++ '\n' :: rest) = sizeLength l := by
  have hword : Text.isWordChar '\n' = false := by decide +kernel
  match l with
  | [] => rfl
  | c :: l =>
    by_cases hc : c = '['
    · subst hc
      have hdrop : (l ++ '\n' :: rest).drop (l.takeWhile Text.isDecimal).length =
          l.drop (l.takeWhile Text.isDecimal).length ++ '\n' :: rest :=
        drop_append_of_le_length (List.takeWhile_prefix _).length_le
      simp only [sizeLength, cons_append, takeWhile_line (show Text.isDecimal '\n' = false by decide +kernel), hdrop]
      match l.drop (l.takeWhile Text.isDecimal).length with
      | [] => rfl
      | [d] => by_cases hd : d = ']' <;> simp [hd, hword]
      | d :: e :: es => by_cases hd : d = ']' <;> simp [hd]
    · have hnone : ∀ cs, sizeLength (c :: cs) = 0 := fun cs => by simp [sizeLength, hc]
      rw [cons_append, hnone, hnone]

theorem local_lengthOf (t : Tag) : Local (lengthOf? t) := by
  cases t with
  | comment => exact local_comment
  | string => exact local_string
  | type => exact local_word sizeLength_le fun l rest _ => sizeLength_line l rest
  | number | keyword | builtin => exact local_word (fun _ => Nat.zero_le _) fun _ _ _ => rfl
  | operator => exact .of_decided (fun h => by cases h) (fun _ _ => rfl) rfl fun _ _ _ _ => rfl

theorem decided_lengthOf (ht : t ≠ .string) : Decided (lengthOf? t) := by
  cases t with
  | comment => exact decided_comment
  | string => exact absurd rfl ht
  | type => exact decided_word fun l rest _ => sizeLength_line l rest
  | number | keyword | builtin => exact decided_word (m := fun _ => 0) fun _ _ _ => rfl
  | operator => exact fun _ _ _ _ => rfl

/-! ### The lines of a text -/

/-- No string of the text holds a newline. -/
def StringsInLines (cs : List Char) : Prop := ∀ s ∈ spansOf .string cs, '\n' ∉ (cs.take s.stop).drop s.start

instance (cs : List Char) : Decidable (StringsInLines cs) :=
  inferInstanceAs (Decidable (∀ s ∈ spansOf .string cs, '\n' ∉ (cs.take s.stop).drop s.start))

theorem spansOf_within (hs : s ∈ spansOf t cs) : s.start ≤ s.stop ∧ s.stop ≤ cs.length := by
  simpa using (local_lengthOf t).partsFrom_within hs

/-- The parts of a text are those of its first line and those of the rest. -/
theorem spansOf_line (hl : '\n' ∉ l) (h : StringsInLines (l ++ '\n' :: rest)) (t : Tag) :
    spansOf t (l ++ '\n' :: rest) = spansOf t l ++ (spansOf t rest).map (Span.shift (l.length + 1)) := by
  rw [spansOf, (local_lengthOf t).partsFrom_line hl (Nat.zero_le _), partsFrom_shift]
  · rfl
  · by_cases ht : t = .string
    · subst ht
      refine .inr fun s hs hcovers => h s hs (mem_iff_getElem?.2 ⟨l.length - s.start, ?_⟩)
      unfold Span.Covers at hcovers
      rw [getElem?_drop, getElem?_take_of_lt (by omega), show s.start + (l.length - s.start) = l.length by omega,
        getElem?_append_right le_rfl, Nat.sub_self]
      rfl
    · exact .inl (decided_lengthOf ht)

theorem StringsInLines.tail (hl : '\n' ∉ l) (h : StringsInLines (l ++ '\n' :: rest)) : StringsInLines rest := by
  intro s hs
  have hmem : s.shift (l.length + 1) ∈ spansOf .string (l ++ '\n' :: rest) := by
    rw [spansOf_line hl h]
    exact mem_append_right _ (mem_map_of_mem hs)
  have hline : (l ++ ['\n']).length = l.length + 1 := length_append
  have := h _ hmem
  rwa [append_cons, Span.shift, ← hline, Nat.add_comm, Nat.add_comm s.stop, take_length_add_append,
    drop_length_add_append] at this

/-- The tag is on the character at the offset `i` when `cs` stands at the offset `k`. -/
def Shown (t : Tag) (k : Nat) (cs : List Char) (i : Nat) : Prop := ∃ s ∈ spansOf t cs, (s.shift k).Covers i

theorem Shown.within (h : Shown t k cs i) : k ≤ i ∧ i < k + cs.length := by
  obtain ⟨s, hs, hstart, hstop⟩ := h
  have := spansOf_within hs
  unfold Span.shift at hstart hstop
  dsimp only at hstart hstop
  omega

theorem shown_append (hl : '\n' ∉ l) (h : StringsInLines (l ++ '\n' :: rest)) :
    Shown t k (l ++ '\n' :: rest) i ↔ Shown t k l i ∨ Shown t (k + (l.length + 1)) rest i := by
  have hshift : ∀ s : Span, (s.shift (l.length + 1)).shift k = s.shift (k + (l.length + 1)) := fun s => by
    simp only [Span.shift, Nat.add_assoc, Nat.add_comm k]
  simp only [Shown, spansOf_line hl h, mem_append, mem_map, or_and_right, exists_or, exists_exists_and_eq_and,
    hshift]

theorem lineStart?_zero (cs : List Char) : lineStart? 0 cs = some 0 := by cases cs <;> rfl

theorem lineStart?_line (hl : '\n' ∉ l) (n : Nat) (rest : List Char) :
    lineStart? (n + 1) (l ++ '\n' :: rest) = (lineStart? n rest).map (· + (l.length + 1)) := by
  induction l with
  | nil => rfl
  | cons c l ih =>
    rw [mem_cons, not_or] at hl
    have hc : (c == '\n') = false := beq_false_of_ne (.symm hl.1)
    rw [cons_append, lineStart?, hc, if_neg Bool.false_ne_true, ih hl.2, Option.map_map]
    rfl

theorem lineStart?_last (hl : '\n' ∉ l) (n : Nat) : lineStart? (n + 1) l = none := by
  induction l with
  | nil => rfl
  | cons c l ih =>
    rw [mem_cons, not_or] at hl
    have hc : (c == '\n') = false := beq_false_of_ne (.symm hl.1)
    rw [lineStart?, hc, if_neg Bool.false_ne_true, ih hl.2]
    rfl

theorem lineFrom_line (hl : '\n' ∉ l) (rest : List Char) : lineFrom (l ++ '\n' :: rest) = l ∧ lineFrom l = l := by
  have hself : lineFrom l = l :=
    takeWhile_eq_self_iff.2 fun c hc => bne_iff_ne.2 (ne_of_mem_of_not_mem hc hl)
  exact ⟨(takeWhile_line rfl l rest).trans hself, hself⟩

theorem drop_line (a : Nat) : (l ++ '\n' :: rest).drop (a + (l.length + 1)) = rest.drop a := by
  rw [Nat.add_comm, ← drop_drop, append_cons, drop_left' (by simp)]

/-- What is shown in a line of the text is what is shown in the line on its own. -/
theorem shown_line {a : Nat} (h : StringsInLines (text ++ ['\n'])) (ha : lineStart? n text = some a) (hle : k + a ≤ i)
    (hlt : i < k + a + (lineFrom (text.drop a)).length) :
    Shown t k (text ++ ['\n']) i ↔ Shown t (k + a) (lineFrom (text.drop a)) i := by
  have hfirst : ∀ {k} {l rest : List Char}, '\n' ∉ l → StringsInLines (l ++ '\n' :: rest) → i < k + l.length →
      (Shown t k (l ++ '\n' :: rest) i ↔ Shown t k l i) := fun hl h hi => by
    rw [shown_append hl h, or_iff_left fun hrest => ?_]
    have := hrest.within
    omega
  induction text using line_induction generalizing n a k with
  | last l hl =>
    cases n with
    | zero =>
      cases (lineStart?_zero _).symm.trans ha
      rw [drop_zero, (lineFrom_line hl []).2] at hlt ⊢
      exact hfirst hl h hlt
    | succ n =>
      rw [lineStart?_last hl] at ha
      cases ha
  | line l rest hl ih =>
    rw [append_assoc, cons_append] at h ⊢
    cases n with
    | zero =>
      cases (lineStart?_zero _).symm.trans ha
      rw [drop_zero, (lineFrom_line hl rest).1] at hlt ⊢
      exact hfirst hl h hlt
    | succ n =>
      rw [lineStart?_line hl] at ha
      obtain ⟨b, hb, rfl⟩ := Option.map_eq_some_iff.1 ha
      rw [drop_line] at hlt ⊢
      rw [Nat.add_comm b, ← Nat.add_assoc] at hle hlt ⊢
      rw [shown_append hl h, or_iff_right fun hline => ?_]
      · exact ih (h.tail hl) hb hle hlt
      · have := hline.within
        omega

theorem exists_line {c : Char} (hi : text[i]? = some c) (hc : c ≠ '\n') : ∃ n a, n ≤ text.count '\n' ∧
    lineStart? n text = some a ∧ a ≤ i ∧ i < a + (lineFrom (text.drop a)).length := by
  induction text using line_induction generalizing i with
  | last l hl =>
    refine ⟨0, 0, Nat.zero_le _, lineStart?_zero _, Nat.zero_le _, ?_⟩
    rw [drop_zero, (lineFrom_line hl []).2, Nat.zero_add]
    exact (List.getElem?_eq_some_iff.1 hi).1
  | line l rest hl ih =>
    by_cases hfirst : i < l.length
    · refine ⟨0, 0, Nat.zero_le _, lineStart?_zero _, Nat.zero_le _, ?_⟩
      rwa [drop_zero, (lineFrom_line hl rest).1, Nat.zero_add]
    · obtain ⟨j, rfl⟩ := Nat.exists_eq_add_of_le (not_lt.1 hfirst)
      rw [getElem?_append_right (Nat.le_add_right ..), Nat.add_sub_cancel_left] at hi
      cases j with
      | zero => exact absurd (Option.some.inj hi).symm hc
      | succ j =>
        obtain ⟨n, a, hn, ha, hle, hlt⟩ := ih hi
        refine ⟨n + 1, a + (l.length + 1), ?_, by rw [lineStart?_line hl, ha]; rfl, by omega, ?_⟩
        · rw [count_append, count_cons_self]
          omega
        · rw [drop_line]
          omega

/-! ### Places -/

theorem after_line (hl : '\n' ∉ l) (p : Place) : p.after l = ⟨p.line, p.col + l.length⟩ := by
  induction l generalizing p with
  | nil => rfl
  | cons c l ih =>
    rw [mem_cons, not_or] at hl
    rw [Place.after, if_neg (by simpa using Ne.symm hl.1), ih hl.2, length_cons, Nat.add_right_comm, Nat.add_assoc]

theorem after_append (p : Place) (l cs : List Char) : p.after (l ++ cs) = (p.after l).after cs := by
  induction l generalizing p with
  | nil => rfl
  | cons c l ih =>
    rw [cons_append, Place.after, Place.after]
    split <;> exact ih _

theorem after_line_succ (n k : Nat) (cs : List Char) :
    Place.after ⟨n + 1, k⟩ cs = ⟨(Place.after ⟨n, k⟩ cs).line + 1, (Place.after ⟨n, k⟩ cs).col⟩ := by
  induction cs generalizing n k with
  | nil => rfl
  | cons c cs ih =>
    rw [Place.after, Place.after]
    split <;> exact ih _ _

/-- The place of an offset denotes that offset. -/
theorem offset_ofOffset (at_ : Nat) (hk : k ≤ text.length) :
    (place (.ofOffset (text ++ ['\n']) k)).offset text at_ = k := by
  rw [Place.ofOffset, take_append_of_le_length hk, Place.first, after_line_succ, offset, columnOffset]
  dsimp only
  rw [Nat.add_sub_cancel]
  induction text using line_induction generalizing k with
  | last l hl =>
    have htake : '\n' ∉ l.take k := fun h => hl (mem_of_mem_take h)
    rw [after_line htake, lineStart?_zero]
    simp only [drop_zero, (lineFrom_line hl []).2, length_take]
    omega
  | line l rest hl ih =>
    by_cases hfirst : k ≤ l.length
    · have htake : '\n' ∉ l.take k := fun h => hl (mem_of_mem_take h)
      rw [take_append_of_le_length hfirst, after_line htake, lineStart?_zero]
      simp only [drop_zero, (lineFrom_line hl rest).1, length_take]
      omega
    · obtain ⟨j, rfl⟩ := Nat.exists_eq_add_of_lt (not_le.1 hfirst)
      rw [length_append, length_cons] at hk
      have htake : (l ++ '\n' :: rest).take (l.length + j + 1) = l ++ '\n' :: rest.take j := by
        rw [Nat.add_assoc, take_length_add_append, take_succ_cons]
      have hj : j ≤ rest.length := by omega
      rw [htake, after_append, after_line hl, Place.after, if_pos BEq.rfl, after_line_succ, lineStart?_line hl]
      dsimp only
      have := ih hj
      cases hstart : lineStart? (Place.after ⟨0, 0⟩ (rest.take j)).line rest with
      | none =>
        rw [hstart] at this
        simp only [Option.map_none, length_append, length_cons] at this ⊢
        omega
      | some a =>
        rw [hstart] at this
        simp only [Option.map_some, drop_line] at this ⊢
        omega

/-- Parts do not reach into the newline after the text. -/
theorem spansOf_text (h : StringsInLines (text ++ ['\n'])) (hs : s ∈ spansOf t (text ++ ['\n'])) :
    s.stop ≤ text.length := by
  induction text using line_induction generalizing s with
  | last l hl =>
    rw [spansOf_line hl h, mem_append] at hs
    obtain hs | hs := hs
    · exact (spansOf_within hs).2
    · cases hs
  | line l rest hl ih =>
    rw [append_assoc, cons_append] at h hs
    rw [spansOf_line hl h, mem_append, mem_map] at hs
    rw [length_append, length_cons]
    obtain hs | ⟨s, hs, rfl⟩ := hs
    · have := spansOf_within hs
      omega
    · have := ih (h.tail hl) hs
      unfold Span.shift
      dsimp only
      omega

/-! ### Painting -/

/-- The character at this offset lies between two indices. -/
def Index.between (text : List Char) (a b : Index) (i : Nat) : Bool := a.offset text 0 ≤ i && i < b.offset text 0

/-- The tags on the characters of a text after it has been painted. -/
def Painting.onto (text : List Char) (p : Painting) (marks : Nat → Tag → Bool) (i : Nat) (t : Tag) : Bool :=
  p.tagged.any (fun g => g.tag == t && Index.between text (.place g.start) (.place g.stop) i) ||
    marks i t && !(p.cleared.contains t && Index.between text (.place p.part.start) p.part.stop i)

/-- The tags after the lines of these numbers have been painted, one after the other. -/
def paintLines (text : List Char) (order : List Nat) (marks : Nat → Tag → Bool) : Nat → Tag → Bool :=
  order.foldl (fun marks n => (Painting.line text n).onto text marks) marks

theorem mem_highlights : (t, s) ∈ highlights cs ↔ s ∈ spansOf t cs := by
  have hoperator : ∀ pos skip before, partsFrom (lengthOf? .operator) pos skip before cs = [] := by
    induction cs with
    | nil => exact fun _ _ _ => rfl
    | cons c cs ih =>
      rintro pos (_ | skip) before
      · exact ih ..
      · exact ih ..
  cases t <;> simp [highlights, spansOf, hoperator]

/-- The offset at which a line starts; that of the end if there is no such line. -/
def lineOffset (text : List Char) (n : Nat) : Nat := Index.columnOffset text n fun _ => 0

theorem onto_iff {p : Painting} {marks : Nat → Tag → Bool} :
    p.onto text marks i t = true ↔
      (∃ g ∈ p.tagged, g.tag = t ∧ (place g.start).offset text 0 ≤ i ∧ i < (place g.stop).offset text 0) ∨
      marks i t = true ∧ ¬ ((place p.part.start).offset text 0 ≤ i ∧ i < p.part.stop.offset text 0) := by
  have hcleared : p.cleared.contains t = true := by cases t <;> rfl
  simp only [onto, hcleared, Bool.or_eq_true, any_eq_true, Bool.and_eq_true, beq_iff_eq, Bool.true_and,
    between, decide_eq_true_eq, Bool.not_eq_true', ← Bool.not_eq_true]

/-- The tags put on for the parts of `cs`, if their places denote offsets that are moved by `k`. -/
theorem tagged_iff {f : Nat → Place} (hf : ∀ t, ∀ s ∈ spansOf t cs,
      (place (f s.start)).offset text 0 = s.start + k ∧ (place (f s.stop)).offset text 0 = s.stop + k) :
    (∃ g ∈ (highlights cs).map fun (t, s) => (⟨t, f s.start, f s.stop⟩ : Tagged),
      g.tag = t ∧ (place g.start).offset text 0 ≤ i ∧ i < (place g.stop).offset text 0) ↔ Shown t k cs i := by
  simp only [mem_map, Prod.exists]
  constructor
  · rintro ⟨_, ⟨t, s, hs, rfl⟩, rfl, hcovers⟩
    rw [(hf t s (mem_highlights.1 hs)).1, (hf t s (mem_highlights.1 hs)).2] at hcovers
    exact ⟨s, mem_highlights.1 hs, hcovers⟩
  · rintro ⟨s, hs, hcovers⟩
    refine ⟨_, ⟨t, s, mem_highlights.2 hs, rfl⟩, rfl, ?_⟩
    rw [(hf t s hs).1, (hf t s hs).2]
    exact hcovers

theorem offset_span (h : StringsInLines (text ++ ['\n'])) (hs : s ∈ spansOf t (text ++ ['\n'])) :
    (place (.ofOffset (text ++ ['\n']) s.start)).offset text 0 = s.start ∧
    (place (.ofOffset (text ++ ['\n']) s.stop)).offset text 0 = s.stop := by
  have hstop := spansOf_text h hs
  exact ⟨offset_ofOffset 0 (Nat.le_trans (spansOf_within hs).1 hstop), offset_ofOffset 0 hstop⟩

theorem columnOffset_eq {col : List Char → Nat} (hcol : col [] = 0) :
    columnOffset text n col = lineOffset text n + col (lineOf text n) := by
  unfold lineOffset columnOffset lineOf
  cases lineStart? (n - 1) text with
  | none =>
    dsimp only
    rw [hcol, Nat.add_zero]
  | some a => rfl

theorem offset_place (c : Nat) : (place ⟨n, c⟩).offset text 0 = lineOffset text n + min c (lineOf text n).length := by
  rw [offset, columnOffset_eq]
  exact Nat.min_zero c

theorem onto_whole (h : StringsInLines (text ++ ['\n'])) (hi : i < text.length) (marks : Nat → Tag → Bool) :
    (whole text).onto text marks i t = true ↔ Shown t 0 (text ++ ['\n']) i := by
  have hfirst : lineOffset text 1 = 0 := by rw [lineOffset, columnOffset, lineStart?_zero]
  rw [onto_iff, or_iff_left]
  · exact tagged_iff fun t s => offset_span h
  · rintro ⟨-, hout⟩
    refine hout ⟨?_, hi⟩
    rw [show (whole text).part.start = ⟨1, 0⟩ from rfl, offset_place, hfirst, Nat.zero_min]
    exact Nat.zero_le i

theorem onto_line {marks : Nat → Tag → Bool} : (line text n).onto text marks i t = true ↔
    Shown t (lineOffset text n) (lineOf text n) i ∨
      marks i t = true ∧ ¬ (lineOffset text n ≤ i ∧ i < lineOffset text n + (lineOf text n).length) := by
  have hstart : (place (line text n).part.start).offset text 0 = lineOffset text n := by
    rw [show (line text n).part.start = ⟨n, 0⟩ from rfl, offset_place, Nat.zero_min, Nat.add_zero]
  have hstop : (line text n).part.stop.offset text 0 =
      lineOffset text n + (lineOf text n).length := columnOffset_eq rfl
  rw [onto_iff, hstart, hstop]
  refine or_congr_left (tagged_iff fun t s hs => ?_)
  obtain ⟨hle, hlt⟩ := spansOf_within hs
  rw [offset_place, offset_place]
  omega

/-- A line that has the character is shown as in the whole text. -/
theorem shown_lineOf (h : StringsInLines (text ++ ['\n'])) (hle : lineOffset text n ≤ i)
    (hlt : i < lineOffset text n + (lineOf text n).length) :
    Shown t (lineOffset text n) (lineOf text n) i ↔ Shown t 0 (text ++ ['\n']) i := by
  unfold lineOffset columnOffset lineOf at *
  cases ha : lineStart? (n - 1) text with
  | none =>
    rw [ha] at hle hlt
    exact absurd hlt (not_lt.2 hle)
  | some a =>
    rw [ha] at hle hlt
    have := shown_line (k := 0) (t := t) h ha (by simpa using hle) (by simpa using hlt)
    rw [this, Nat.zero_add]
    rfl

theorem paintLines_iff (h : StringsInLines (text ++ ['\n'])) (order : List Nat) (marks : Nat → Tag → Bool) :
    ((marks i t = true ↔ Shown t 0 (text ++ ['\n']) i) ∨
      ∃ n ∈ order, lineOffset text n ≤ i ∧ i < lineOffset text n + (lineOf text n).length) →
    (paintLines text order marks i t = true ↔ Shown t 0 (text ++ ['\n']) i) := by
  induction order generalizing marks with
  | nil =>
    rintro (hmarks | ⟨n, hn, -⟩)
    · exact hmarks
    · cases hn
  | cons n order ih =>
    intro hor
    refine ih _ ?_
    by_cases hin : lineOffset text n ≤ i ∧ i < lineOffset text n + (lineOf text n).length
    · rw [onto_line, shown_lineOf h hin.1 hin.2]
      exact .inl (or_iff_left fun hout => hout.2 hin)
    · refine hor.imp (fun hmarks => ?_) fun ⟨m, hm, hrange⟩ => ⟨m, ?_, hrange⟩
      · rw [onto_line, or_iff_right fun hline => hin hline.within, ← hmarks]
        exact and_iff_left hin
      · exact (mem_cons.1 hm).resolve_left fun heq => hin (heq ▸ hrange)

/-- If no string holds a newline, to paint every line, in any order, gives each character of a line the same tags as to
paint the whole text, whatever tags it had before. The places at which the whole text is tagged denote the parts that
are highlighted. -/
theorem lines_painted {order : List Nat} (marks : Nat → Tag → Bool)
    (horder : ∀ n, n ∈ order ↔ 1 ≤ n ∧ n ≤ text.count '\n' + 1) (h : StringsInLines (text ++ ['\n'])) :
    (∀ i c t, text[i]? = some c → c ≠ '\n' →
      paintLines text order marks i t = (Painting.whole text).onto text marks i t) ∧
    (Painting.whole text).tagged.map (fun g =>
      (g.tag, (⟨(Index.place g.start).offset text 0, (Index.place g.stop).offset text 0⟩ : Span))) =
      highlights (text ++ ['\n']) := by
  constructor
  · intro i c t hi hc
    rw [Bool.eq_iff_iff, onto_whole h (List.getElem?_eq_some_iff.1 hi).1]
    obtain ⟨n, a, hn, ha, hle, hlt⟩ := exists_line hi hc
    refine paintLines_iff h order marks (.inr ⟨n + 1, (horder _).2 ⟨Nat.succ_pos n, Nat.succ_le_succ hn⟩, ?_⟩)
    simp only [lineOffset, Index.columnOffset, Painting.lineOf, Nat.add_sub_cancel, ha]
    exact ⟨hle, hlt⟩
  · rw [Painting.whole, List.map_map]
    refine (List.map_congr_left fun ⟨t, s⟩ hs => ?_).trans (List.map_id _)
    have hoffset := offset_span h (mem_highlights.1 hs)
    simp only [Function.comp_apply, hoffset, id_eq]

/-- A text with a string that has comment marks and an escaped quote in it, a type with its size, and an empty line. -/
def mixedText : List Char := "let s = \"a//\\\"\"; // int\n\nfn f: int[2]x 0x1F".toList

theorem mixedText_painted : StringsInLines (mixedText ++ ['\n']) ∧
    ∀ i c t, mixedText[i]? = some c → c ≠ '\n' →
      paintLines mixedText [3, 1, 2] (fun i t => i == 4 && t == .number) i t =
        (Painting.whole mixedText).onto mixedText (fun i t => i == 4 && t == .number) i t := by
  have hcount : mixedText.count '\n' = 2 := by decide +kernel
  have h : StringsInLines (mixedText ++ ['\n']) := by decide +kernel
  refine ⟨h, (lines_painted (fun i t => i == 4 && t == .number) (fun n => ?_) h).1⟩
  rw [hcount]
  simp only [List.mem_cons, List.not_mem_nil, or_false]
  omega

end Workbench.Editor
