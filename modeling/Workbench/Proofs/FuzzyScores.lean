import Workbench.Finder.Dialog
import Workbench.Proofs.Syntax

/-!
# Scores of fuzzy matches

A query is found in a text exactly if its characters occur in the text one after the other: the scan takes each of them
at the first place where it occurs, and a later place leaves less of the text for the others. The scan fails only where
it looks behind the end of the text as it was given.

Characters in a row score more and more, so the score of a query whose characters are scattered grows with the square
of its length, while that of a text which contains the query does not. `climb` is the most that a row can score. All
characters but one in a row are the most that a text without the query can have, so texts with the query come first for
queries of up to 7 characters, and texts that start with it for queries of up to 11; longer queries break this.
-/

open List

namespace Workbench.Text

theorem occursIn_iff {sub cs : List Char} : occursIn sub cs = true ↔ sub <:+: cs := by
  induction cs with
  | nil => rw [occursIn, List.isEmpty_iff, List.infix_nil]
  | cons c cs ih => rw [occursIn, Bool.or_eq_true, ih, isPrefixOf_iff_prefix, infix_cons_iff]

end Workbench.Text

namespace Workbench.Finder

open Files (Path)
open Text

variable {text cs : List Char} {p r : Sweep} {i n : Nat} {c : Char}

/-! ### The scan -/

theorem wordStartPoints_isOk (h : i ≤ text.length) : ∃ n, wordStartPoints text i = .ok n := by
  cases i with
  | zero => exact ⟨_, rfl⟩
  | succ k => exact ⟨_, by rw [wordStartPoints, getElem?_eq_getElem h]⟩

theorem wordStartPoints_le (h : wordStartPoints text i = .ok n) : n ≤ 20 := by
  unfold wordStartPoints at h
  split at h
  · cases h
    exact Nat.le_refl _
  · split at h
    · cases h
      split <;> decide
    · cases h

namespace Sweep

/-- The bonus of a match that comes next. -/
def nextBonus (p : Sweep) : Nat := if p.adjacent then p.bonus + 10 else 0

theorem look_pass (h : ∀ rest, p.query ≠ c :: rest) : p.look text i c = .ok { p with adjacent := false } := by
  unfold look
  split
  · rename_i q rest hq
    exact if_neg fun hc => h rest (by rw [hq, eq_of_beq hc])
  · rfl

theorem look_match {rest : List Char} (h : p.query = c :: rest) :
    p.look text i c = (wordStartPoints text i).map fun start =>
      ⟨rest, p.points + (10 + p.nextBonus) + start, p.nextBonus, true⟩ := by
  simp only [look, h, BEq.rfl]
  cases wordStartPoints text i <;> rfl

theorem look_cases {p' : Sweep} (h : p.look text i c = .ok p') :
    (∃ rest start, p.query = c :: rest ∧ start ≤ 20 ∧
      p' = ⟨rest, p.points + (10 + p.nextBonus) + start, p.nextBonus, true⟩) ∨
    (∀ rest, p.query ≠ c :: rest) ∧ p' = { p with adjacent := false } := by
  by_cases hc : ∃ rest, p.query = c :: rest
  · obtain ⟨rest, hq⟩ := hc
    rw [look_match hq] at h
    obtain ⟨start, hstart, rfl⟩ := map_eq_ok.1 h
    exact .inl ⟨rest, start, hq, wordStartPoints_le hstart, rfl⟩
  · have hne := not_exists.1 hc
    rw [look_pass hne] at h
    cases h
    exact .inr ⟨hne, rfl⟩

theorem look_isOk (h : i ≤ text.length) : ∃ p', p.look text i c = .ok p' := by
  by_cases hc : ∃ rest, p.query = c :: rest
  · obtain ⟨rest, hq⟩ := hc
    obtain ⟨start, hstart⟩ := wordStartPoints_isOk h
    exact ⟨_, by rw [look_match hq, hstart]; rfl⟩
  · exact ⟨_, look_pass (not_exists.1 hc)⟩

theorem lookAll_isOk (h : i + cs.length ≤ text.length + 1) : ∃ r, p.lookAll text i cs = .ok r := by
  induction cs generalizing p i with
  | nil => exact ⟨p, rfl⟩
  | cons c cs ih =>
    rw [length_cons] at h
    obtain ⟨p', hp'⟩ := look_isOk (show i ≤ text.length by omega)
    obtain ⟨r, hr⟩ := ih (i := i + 1) (by omega)
    exact ⟨r, by rw [lookAll, hp']; exact hr⟩

/-- To take each character where it occurs first misses no match. -/
theorem lookAll_query (h : p.lookAll text i cs = .ok r) : r.query = [] ↔ p.query.Sublist cs := by
  induction cs generalizing p i with
  | nil =>
    cases h
    rw [sublist_nil]
  | cons c cs ih =>
    obtain ⟨p', hlook, hrest⟩ := bind_eq_ok.1 h
    rw [ih hrest]
    obtain ⟨rest, start, hq, -, rfl⟩ | ⟨hq, rfl⟩ := look_cases hlook
    · rw [hq, cons_sublist_cons]
    · rw [sublist_cons_iff]
      refine ⟨.inl, fun hsub => hsub.resolve_right ?_⟩
      rintro ⟨rest, heq, -⟩
      exact hq rest heq

end Sweep

/-! ### What is found -/

/-- The query is a part of the text, without regard to case. -/
def Contains (query text : String) : Prop := (Text.lower query).toList <:+: (Text.lower text).toList

/-- The text starts with the query, without regard to case. -/
def Begins (query text : String) : Prop := (Text.lower query).toList <+: (Text.lower text).toList

theorem Begins.contains {query text : String} (h : Begins query text) : Contains query text := h.isInfix

section Score

variable {query text : String} {s : Score}

theorem fuzzyMatch_of_contains (hquery : query ≠ "") (h : Contains query text) [Decidable (Begins query text)] :
    fuzzyMatch query text = .ok ⟨true, (if Begins query text then 1000 else 500) + (lower query).length⟩ := by
  unfold Contains Begins lower at *
  simp only [String.toList_ofList, String.length_ofList] at *
  rw [fuzzyMatch, if_neg (mt String.isEmpty_iff.1 hquery)]
  simp only [occursIn_iff.2 h, if_true, isPrefixOf_iff_prefix]

theorem fuzzyMatch_of_not_contains (h : ¬ Contains query text) :
    fuzzyMatch query text = scatteredScore (lower query).toList text.toList (lower text).toList := by
  have hquery : query ≠ "" := by
    rintro rfl
    exact h nil_infix
  unfold Contains lower at *
  simp only [String.toList_ofList] at *
  rw [fuzzyMatch, if_neg (mt String.isEmpty_iff.1 hquery)]
  exact if_neg (mt occursIn_iff.1 h)

/-- A query is found exactly if its characters occur in the text one after the other, in lower case. -/
theorem found_iff_sublist (query text : String) (hlength : (Text.lower text).length ≤ text.length) :
    ∃ s, fuzzyMatch query text = .ok s ∧
      (s.found = true ↔ (Text.lower query).toList.Sublist (Text.lower text).toList) ∧
      (s.found = false → s.points = 0) := by
  classical
  by_cases hquery : query = ""
  · subst hquery
    exact ⟨⟨true, 0⟩, rfl, ⟨fun _ => List.nil_sublist _, fun _ => rfl⟩, fun h => by cases h⟩
  by_cases h : Contains query text
  · exact ⟨_, fuzzyMatch_of_contains hquery h, ⟨fun _ => h.sublist, fun _ => rfl⟩, fun h => by cases h⟩
  · rw [fuzzyMatch_of_not_contains h]
    rw [← String.length_toList, ← String.length_toList] at hlength
    obtain ⟨r, hr⟩ := Sweep.lookAll_isOk
      (show 0 + (Text.lower text).toList.length ≤ text.toList.length + 1 by omega)
    refine ⟨_, by rw [scatteredScore, hr]; rfl, ?_⟩
    rw [← Sweep.lookAll_query hr, ← List.isEmpty_iff]
    split <;> simp [*]

/-- Capitals count like small letters, and the letters may stand apart. -/
theorem scattered_found : (Text.lower "src/Main.ql").length ≤ "src/Main.ql".length ∧
    ∃ s, fuzzyMatch "SMQ" "src/Main.ql" = .ok s ∧ (s.found = true ↔ ['s', 'm', 'q'].Sublist "src/main.ql".toList) := by
  have hlength : (Text.lower "src/Main.ql").length ≤ "src/Main.ql".length := by decide +kernel
  obtain ⟨s, hs, hfound, -⟩ := found_iff_sublist "SMQ" "src/Main.ql" hlength
  have hquery : (Text.lower "SMQ").toList = ['s', 'm', 'q'] := by decide +kernel
  have htext : Text.lower "src/Main.ql" = "src/main.ql" := by decide +kernel
  rw [hquery, htext] at hfound
  exact ⟨hlength, s, hs, hfound⟩

end Score

/-! ### How much is scored -/

/-- The most that `n` characters in a row score, where the first of them has the bonus `b`. -/
def climb : Nat → Nat → Nat
  | 0, _ => 0
  | n + 1, b => 30 + b + climb n (b + 10)

theorem climb_le_climb {b b' : Nat} (h : b ≤ b') : climb n b ≤ climb n b' := by
  induction n generalizing b b' with
  | zero => exact Nat.le_refl 0
  | succ n ih => exact Nat.add_le_add (Nat.add_le_add_left h 30) (ih (Nat.add_le_add_right h 10))

namespace Sweep

theorem points_le (h : p.lookAll text i cs = .ok r) : r.points ≤ p.points + climb p.query.length p.nextBonus := by
  induction cs generalizing p i with
  | nil =>
    cases h
    exact Nat.le_add_right ..
  | cons c cs ih =>
    obtain ⟨p', hlook, hrest⟩ := bind_eq_ok.1 h
    have hr := ih hrest
    obtain ⟨rest, start, hq, hstart, rfl⟩ | ⟨-, rfl⟩ := look_cases hlook
    · rw [hq, length_cons, climb]
      simp only [nextBonus, if_true] at hr ⊢
      omega
    · exact Nat.le_trans hr (Nat.add_le_add_left (climb_le_climb (Nat.zero_le _)) _)

/-- Where the row breaks off, all characters but one in a row are the most that is left. -/
theorem points_le_of_not_prefix {k : Nat} (h : p.lookAll text i cs = .ok r) (hadjacent : p.adjacent = true)
    (hk : p.query.length = k + 1) (hbreak : ¬ p.query <+: cs) :
    r.points ≤ p.points + (climb k (p.bonus + 10) + 30) := by
  induction cs generalizing p i k with
  | nil =>
    cases h
    exact Nat.le_add_right ..
  | cons c cs ih =>
    obtain ⟨p', hlook, hrest⟩ := bind_eq_ok.1 h
    obtain ⟨rest, start, hq, hstart, rfl⟩ | ⟨-, rfl⟩ := look_cases hlook
    · rw [hq, cons_prefix_cons, not_and] at hbreak
      rw [hq, length_cons, Nat.add_right_cancel_iff] at hk
      have hnext : p.nextBonus = p.bonus + 10 := if_pos hadjacent
      cases k with
      | zero =>
        rw [length_eq_zero_iff.1 hk] at hbreak
        exact absurd nil_prefix (hbreak rfl)
      | succ k =>
        have hr := ih hrest rfl hk (hbreak rfl)
        rw [climb]
        simp only [hnext] at hr
        omega
    · have hr := points_le hrest
      have hclimb : climb k (0 + 10) ≤ climb k (p.bonus + 10) := climb_le_climb (by omega)
      simp only [hk, nextBonus, Bool.false_eq_true, if_false, climb] at hr
      omega

end Sweep

/-- A text without the query scores at most what all characters of the query but one score in a row. -/
theorem points_le_of_not_contains {query text : String} {s : Score} (hs : fuzzyMatch query text = .ok s)
    (h : ¬ Contains query text) : s.points ≤ climb ((lower query).length - 1) 10 + 30 := by
  rw [fuzzyMatch_of_not_contains h] at hs
  obtain ⟨r, hr, hs⟩ := bind_eq_ok.1 hs
  have hprefix : ¬ (lower query).toList <+: (lower text).toList := fun hp => h hp.isInfix
  have hpos : 0 < (lower query).toList.length := by
    refine length_pos_iff.2 fun hnil => hprefix ?_
    rw [hnil]
    exact nil_prefix
  rw [String.length_toList] at hpos
  have hle := Sweep.points_le_of_not_prefix hr rfl (k := (lower query).length - 1)
    (by rw [String.length_toList]; omega) hprefix
  rw [Nat.zero_add] at hle
  rw [← pure_eq_ok.1 hs]
  split
  · exact hle
  · exact Nat.zero_le _

/-- For queries of `n` characters, the texts with the property score more than those without it. -/
def Outranks (P : String → String → Prop) (n : Nat) : Prop :=
  ∀ query text₁ text₂ s₁ s₂, query ≠ "" → (Text.lower query).length = n → fuzzyMatch query text₁ = .ok s₁ →
    fuzzyMatch query text₂ = .ok s₂ → P query text₁ → ¬ P query text₂ → s₂.points < s₁.points

theorem outranks_contains (hn : n ≤ 7) : Outranks Contains n := by
  classical
  rintro query text₁ text₂ s₁ s₂ hquery rfl h₁ h₂ hyes hno
  have hle := points_le_of_not_contains h₂ hno
  rw [fuzzyMatch_of_contains hquery hyes] at h₁
  cases h₁
  have hlow : ∀ k ≤ 7, climb (k - 1) 10 + 30 < 500 := by decide
  have := hlow _ hn
  dsimp only
  split <;> omega

theorem outranks_begins (hn : n ≤ 11) : Outranks Begins n := by
  classical
  rintro query text₁ text₂ s₁ s₂ hquery rfl h₁ h₂ hyes hno
  rw [fuzzyMatch_of_contains hquery hyes.contains, if_pos hyes] at h₁
  cases h₁
  dsimp only
  by_cases hin : Contains query text₂
  · rw [fuzzyMatch_of_contains hquery hin, if_neg hno] at h₂
    cases h₂
    dsimp only
    omega
  · have hle := points_le_of_not_contains h₂ hin
    have hlow : ∀ k ≤ 11, climb (k - 1) 10 + 30 < 1000 := by decide
    have := hlow _ hn
    omega

/-! ### Queries that are too long -/

theorem lower_plain {cs : List Char} (h : ∀ c ∈ cs, c ∈ ['.', '-', 'a', 'x']) :
    lower (String.ofList cs) = String.ofList cs := by
  have hafter : ∀ before, lowerAfter before cs = cs := by
    induction cs with
    | nil => exact fun _ => rfl
    | cons c cs ih =>
      intro before
      obtain ⟨hc, hcs⟩ := forall_mem_cons.1 h
      have hlow : ∀ after, lowerChar before c after = [c] := by
        simp only [mem_cons, not_mem_nil, or_false] at hc
        rcases hc with rfl | rfl | rfl | rfl <;> exact fun _ => rfl
      rw [lowerAfter, hlow, ih hcs, singleton_append]
  rw [lower, String.toList_ofList, lowerChars, hafter]

/-- Dots and then the rest. -/
def dotted (k : Nat) (rest : List Char) : List Char := List.replicate k '.' ++ rest

theorem dotted_zero (rest : List Char) : dotted 0 rest = rest := rfl

theorem dotted_succ (k : Nat) (rest : List Char) : dotted (k + 1) rest = '.' :: dotted k rest := rfl

/-- A query whose characters all have a separator before them. -/
def steepQuery (k : Nat) : String := String.ofList (dotted k ['x'])

/-- The text with all characters of the query, but for the last one in a row. -/
def brokenText (k : Nat) : String := String.ofList (dotted k ['-', 'x'])

theorem lower_steepQuery (k : Nat) : lower (steepQuery k) = steepQuery k :=
  lower_plain (by simp [dotted, or_imp, forall_and])

theorem lower_brokenText (k : Nat) : lower (brokenText k) = brokenText k :=
  lower_plain (by simp [dotted, or_imp, forall_and])

theorem length_steepQuery (k : Nat) : (steepQuery k).length = k + 1 := by
  rw [steepQuery, String.length_ofList, dotted, length_append, length_replicate, length_singleton]

theorem steepQuery_ne (k : Nat) : steepQuery k ≠ "" := by
  intro h
  have hlength := length_steepQuery k
  rw [h] at hlength
  cases hlength

theorem brokenText_not_contains {k : Nat} (hk : 0 < k) : ¬ Contains (steepQuery k) (brokenText k) := by
  rw [Contains, lower_steepQuery, lower_brokenText, steepQuery, brokenText, String.toList_ofList, String.toList_ofList,
    ← reverse_infix, dotted, dotted, reverse_append, reverse_append, reverse_replicate]
  obtain ⟨k, rfl⟩ := Nat.exists_eq_succ_of_ne_zero (Nat.ne_zero_of_lt hk)
  -- The last character occurs only once in the text, and the one before it differs.
  rintro h
  rcases infix_cons_iff.1 h with h | h
  · simp [replicate_succ] at h
  · simpa using h.subset mem_cons_self

theorem wordStartPoints_dotted {k i : Nat} (h : i ≤ k + 1) : wordStartPoints (dotted k ['-', 'x']) i = .ok 20 := by
  cases i with
  | zero => rfl
  | succ i =>
    rw [wordStartPoints, dotted]
    obtain hlt | rfl := Nat.lt_or_eq_of_le (Nat.le_of_succ_le_succ h)
    · rw [getElem?_append_left (by rwa [length_replicate]), getElem?_replicate_of_lt hlt]
      rfl
    · rw [getElem?_append_right (by simp), length_replicate, Nat.sub_self]
      rfl

theorem lookAll_dotted {j k : Nat} (hi : i + j = k) (points bonus : Nat) :
    Sweep.lookAll (dotted k ['-', 'x']) ⟨dotted j ['x'], points, bonus, true⟩ i (dotted j ['-', 'x']) =
      .ok ⟨[], points + climb j (bonus + 10) + 30, 0, true⟩ := by
  induction j generalizing i points bonus with
  | zero =>
    simp only [dotted_zero, Sweep.lookAll]
    rw [Sweep.look_pass (by simp)]
    simp only [bind, Except.bind]
    rw [Sweep.look_match rfl, wordStartPoints_dotted (by omega)]
    rfl
  | succ j ih =>
    simp only [dotted_succ, Sweep.lookAll]
    rw [Sweep.look_match rfl, wordStartPoints_dotted (by omega)]
    simp only [Except.map, bind, Except.bind]
    rw [ih (by omega), climb]
    simp only [Sweep.nextBonus, if_true, Except.ok.injEq, Sweep.mk.injEq, true_and, and_true]
    omega

/-- The most that a text without the query can score is scored. -/
theorem fuzzyMatch_brokenText {k : Nat} (hk : 0 < k) :
    fuzzyMatch (steepQuery k) (brokenText k) = .ok ⟨true, climb k 10 + 30⟩ := by
  rw [fuzzyMatch_of_not_contains (brokenText_not_contains hk), lower_steepQuery, lower_brokenText, steepQuery,
    brokenText]
  simp only [String.toList_ofList, scatteredScore, lookAll_dotted (Nat.zero_add k)]
  rw [Nat.zero_add]
  rfl

theorem le_climb {a m k : Nat} (hm : a + (m + 1) ≤ climb m 10 + 30) (h : m ≤ k) : a + (k + 1) ≤ climb k 10 + 30 := by
  induction h with
  | refl => exact hm
  | @step k _ ih =>
    have hclimb : climb k 10 ≤ climb k (10 + 10) := climb_le_climb (by omega)
    rw [climb]
    omega

theorem not_outranks {P : String → String → Prop} {k a : Nat} (text : String) (ha : a + (k + 1) ≤ climb k 10 + 30)
    (htext : fuzzyMatch (steepQuery k) text = .ok ⟨true, a + (k + 1)⟩) (hyes : P (steepQuery k) text)
    (hno : ¬ P (steepQuery k) (brokenText k)) (hk : 0 < k) : ¬ Outranks P (k + 1) := by
  intro h
  have hlength : (lower (steepQuery k)).length = k + 1 := by rw [lower_steepQuery, length_steepQuery]
  have := h _ _ _ _ _ (steepQuery_ne k) hlength htext (fuzzyMatch_brokenText hk) hyes hno
  dsimp only at this
  omega

theorem not_outranks_contains {k : Nat} (h : 7 ≤ k) : ¬ Outranks Contains (k + 1) := by
  classical
  obtain ⟨j, rfl⟩ := Nat.exists_eq_add_of_le' (Nat.le_trans (by decide : 1 ≤ 7) h)
  let text := String.ofList ('a' :: dotted (j + 1) ['x'])
  have htext : lower text = text := lower_plain (by simp [dotted])
  have hyes : Contains (steepQuery (j + 1)) text := by
    rw [Contains, lower_steepQuery, htext, steepQuery, String.toList_ofList, String.toList_ofList]
    exact (suffix_cons ..).isInfix
  have hno : ¬ Begins (steepQuery (j + 1)) text := by
    rw [Begins, lower_steepQuery, htext, steepQuery, String.toList_ofList, String.toList_ofList]
    simp [dotted_succ]
  refine not_outranks text (le_climb (a := 500) (by decide) h) ?_ hyes
    (brokenText_not_contains j.succ_pos) j.succ_pos
  rw [fuzzyMatch_of_contains (steepQuery_ne _) hyes, if_neg hno, lower_steepQuery, length_steepQuery]

theorem not_outranks_begins {k : Nat} (h : 11 ≤ k) : ¬ Outranks Begins (k + 1) := by
  classical
  have hk : 0 < k := by omega
  have hyes : Begins (steepQuery k) (steepQuery k) := prefix_rfl
  refine not_outranks (steepQuery k) (le_climb (a := 1000) (by decide) h) ?_ hyes
    (fun hno => brokenText_not_contains hk hno.contains) hk
  rw [fuzzyMatch_of_contains (steepQuery_ne k) hyes.contains, if_pos hyes, lower_steepQuery, length_steepQuery]

/-! ### The order of the files -/

theorem mem_matching {query : String} {files : List Path} {ms : List Match} (h : matching query files = .ok ms)
    {m : Match} : m ∈ ms ↔ m.path ∈ files ∧ fuzzyMatch query m.path.name = .ok ⟨true, m.points⟩ := by
  induction files generalizing ms with
  | nil =>
    cases h
    simp
  | cons p ps ih =>
    obtain ⟨s, hs, h⟩ := bind_eq_ok.1 h
    obtain ⟨rest, hrest, h⟩ := bind_eq_ok.1 h
    rw [← pure_eq_ok.1 h, mem_cons, or_and_right, ← ih hrest]
    have hhead : m.path = p ∧ fuzzyMatch query m.path.name = .ok ⟨true, m.points⟩ ↔
        s.found = true ∧ m = ⟨p, s.points⟩ := by
      obtain ⟨q, n⟩ := m
      obtain ⟨found, points⟩ := s
      constructor
      · rintro ⟨rfl, hq⟩
        cases hq.symm.trans hs
        exact ⟨rfl, rfl⟩
      · rintro ⟨rfl, heq⟩
        cases heq
        exact ⟨rfl, hs⟩
    rw [hhead]
    split
    · rename_i hfound
      rw [mem_cons, hfound]
      simp
    · rename_i hfound
      simp [hfound]

theorem mem_filterFiles {search : String} {files : List Path} {ms : List Match} (hsearch : trim search ≠ "")
    (h : filterFiles search files = .ok ms) :
    (∀ m, m ∈ ms ↔ m.path ∈ files ∧ fuzzyMatch (trim search) m.path.name = .ok ⟨true, m.points⟩) ∧
      ms.Pairwise fun a b => b.points ≤ a.points := by
  rw [filterFiles, if_neg (mt String.isEmpty_iff.1 hsearch)] at h
  obtain ⟨found, hfound, h⟩ := bind_eq_ok.1 h
  rw [← pure_eq_ok.1 h]
  refine ⟨fun m => by rw [mem_mergeSort, mem_matching hfound], ?_⟩
  refine (pairwise_mergeSort ?_ ?_ found).imp of_decide_eq_true
  · intro a b c hab hbc
    exact decide_eq_true (Nat.le_trans (of_decide_eq_true hbc) (of_decide_eq_true hab))
  · intro a b
    simpa using Nat.le_total b.points a.points

/-- Texts that contain the query score more than all others exactly if the query has at most 7 characters, and texts
that start with it exactly if it has at most 11. So for short queries the finder lists the files whose names contain the
query before all others. -/
theorem exact_matches_first (n : Nat) : (Outranks Contains n ↔ n ≤ 7) ∧ (Outranks Begins n ↔ n ≤ 11) ∧
    ∀ search files ms, Text.trim search ≠ "" → (Text.lower (Text.trim search)).length = n → n ≤ 7 →
      filterFiles search files = .ok ms →
      (∀ p ∈ files, Contains (Text.trim search) p.name → ∃ m ∈ ms, m.path = p) ∧
        ms.Pairwise fun a b => Contains (Text.trim search) b.path.name → Contains (Text.trim search) a.path.name := by
  classical
  refine ⟨⟨fun h => ?_, outranks_contains⟩, ⟨fun h => ?_, outranks_begins⟩, ?_⟩
  · by_contra hn
    obtain ⟨k, rfl⟩ := Nat.exists_eq_succ_of_ne_zero (show n ≠ 0 by omega)
    exact not_outranks_contains (by omega) h
  · by_contra hn
    obtain ⟨k, rfl⟩ := Nat.exists_eq_succ_of_ne_zero (show n ≠ 0 by omega)
    exact not_outranks_begins (by omega) h
  · intro search files ms hsearch hlength hn h
    obtain ⟨hmem, hsorted⟩ := mem_filterFiles hsearch h
    constructor
    · intro p hp hcontains
      exact ⟨⟨p, _⟩, (hmem _).2 ⟨hp, fuzzyMatch_of_contains hsearch hcontains⟩, rfl⟩
    · refine List.Pairwise.imp_of_mem (fun ha hb hab hyes => ?_) hsorted
      by_contra hno
      have hless := outranks_contains hn _ _ _ _ _ hsearch hlength ((hmem _).1 hb).2 ((hmem _).1 ha).2 hyes hno
      dsimp only at hless
      omega

theorem main_first : Contains "main" "Domain.ql" ∧ ¬ Contains "main" "m_a_i_n.ql" ∧
    ∃ s₁ s₂, fuzzyMatch "main" "Domain.ql" = .ok s₁ ∧ fuzzyMatch "main" "m_a_i_n.ql" = .ok s₂ ∧
      s₂.points < s₁.points := by
  have hyes : Contains "main" "Domain.ql" := Text.occursIn_iff.1 (by decide +kernel)
  have hno : ¬ Contains "main" "m_a_i_n.ql" := mt Text.occursIn_iff.2 (by decide +kernel)
  have h₁ : fuzzyMatch "main" "Domain.ql" = .ok ⟨true, 504⟩ := by decide +kernel
  have h₂ : fuzzyMatch "main" "m_a_i_n.ql" = .ok ⟨true, 130⟩ := by decide +kernel
  have hfirst : Outranks Contains 4 := (exact_matches_first 4).1.2 (by decide)
  exact ⟨hyes, hno, _, _, h₁, h₂, hfirst _ _ _ _ _ (by decide) (by decide +kernel) h₁ h₂ hyes hno⟩

/-- Ten characters of which all but the last stand in a row score more than ten in a row within a word, so the finder
lists the wrong file first. Fourteen such characters score more than a text that starts with the query. -/
theorem long_query_astray :
    fuzzyMatch "abcdefghij" "xabcdefghij" = .ok ⟨true, 510⟩ ∧
    fuzzyMatch "abcdefghij" "abcdefghi-j" = .ok ⟨true, 590⟩ ∧
    fuzzyMatch "abcdefghijklmn" "abcdefghijklmn" = .ok ⟨true, 1014⟩ ∧
    fuzzyMatch "abcdefghijklmn" "abcdefghijklm-n" = .ok ⟨true, 1090⟩ ∧
    filterFiles "abcdefghij" [.ofText "xabcdefghij", .ofText "abcdefghi-j"] =
      .ok [⟨.ofText "abcdefghi-j", 590⟩, ⟨.ofText "xabcdefghij", 510⟩] := by
  have hfound : matching (Text.trim "abcdefghij") [.ofText "xabcdefghij", .ofText "abcdefghi-j"] =
      .ok [⟨.ofText "xabcdefghij", 510⟩, ⟨.ofText "abcdefghi-j", 590⟩] := by decide +kernel
  refine ⟨by decide +kernel, by decide +kernel, by decide +kernel, by decide +kernel, ?_⟩
  rw [filterFiles, if_neg (by decide +kernel), hfound]
  simp [bind, Except.bind, pure, Except.pure, List.mergeSort]

end Workbench.Finder
