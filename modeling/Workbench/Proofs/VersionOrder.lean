import Workbench.Proofs.Numerals
import Workbench.Update.Release

/-!
# The order of versions

A version is written as decimal numbers between dots, with a `v` in front or without. Versions are compared number by
number, and zeros at the end count: of two texts that denote the same version when the shorter one is filled up with
zeros, the longer one is newer (`newer_iff_padded`). How the numbers are written makes no difference.
-/

open List

namespace Workbench.Text

variable {sep : Char} {cs piece : List Char}

theorem splitFrom_of_not_mem (h : sep ∉ cs) : splitFrom sep piece cs = [piece.reverse ++ cs] := by
  induction cs generalizing piece with
  | nil => rw [splitFrom, append_nil]
  | cons c cs ih =>
    rw [mem_cons, not_or] at h
    rw [splitFrom, if_neg (by simpa using Ne.symm h.1), ih h.2, reverse_cons, append_assoc]
    rfl

theorem splitFrom_append (h : sep ∉ cs) (rest : List Char) :
    splitFrom sep piece (cs ++ sep :: rest) = (piece.reverse ++ cs) :: splitFrom sep [] rest := by
  induction cs generalizing piece with
  | nil => rw [nil_append, splitFrom, if_pos BEq.rfl, append_nil]
  | cons c cs ih =>
    rw [mem_cons, not_or] at h
    rw [cons_append, splitFrom, if_neg (by simpa using Ne.symm h.1), ih h.2, reverse_cons, append_assoc]
    rfl

theorem splitFrom_intercalate {pieces : List (List Char)} (hne : pieces ≠ []) (h : ∀ cs ∈ pieces, sep ∉ cs) :
    splitFrom sep [] ([sep].intercalate pieces) = pieces := by
  induction pieces with
  | nil => exact absurd rfl hne
  | cons cs pieces ih =>
    have hcs : sep ∉ cs := h cs (by simp)
    cases pieces with
    | nil => rw [intercalate_singleton, splitFrom_of_not_mem hcs, reverse_nil, nil_append]
    | cons ds pieces =>
      rw [intercalate_cons_cons, append_assoc, singleton_append, splitFrom_append hcs,
        ih (by simp) fun es hes => h es (by simp [hes]), reverse_nil, nil_append]

end Workbench.Text

namespace Workbench.Update

open Text (isDecimal decimalNumber)

namespace Version

/-! ### Lists of numbers -/

/-- The numbers of a version, with zeros after them if the other version has more numbers. -/
def padded (xs ys : List Nat) : List Nat := xs.rightpad ys.length 0

theorem padded_nil (xs : List Nat) : padded xs [] = xs := by
  rw [padded, rightpad, length_nil, Nat.zero_sub, replicate_zero, append_nil]

theorem padded_cons (x y : Nat) (xs ys : List Nat) : padded (x :: xs) (y :: ys) = x :: padded xs ys := by
  rw [padded, padded, rightpad, rightpad, length_cons, length_cons, Nat.add_sub_add_right]
  rfl

/-- Zeros alone come before all other numbers. -/
theorem padded_zeros (ys : List Nat) : padded [] ys = ys ∨ padded [] ys < ys := by
  induction ys with
  | nil => exact .inl rfl
  | cons y ys ih =>
    have hcons : padded [] (y :: ys) = 0 :: padded [] ys := rfl
    rw [hcons, cons_lt_cons_iff]
    rcases Nat.eq_zero_or_pos y with rfl | hy
    · exact ih.imp (congrArg _) fun hlt => .inr ⟨rfl, hlt⟩
    · exact .inr (.inl hy)

theorem lt_iff_padded (xs ys : List Nat) :
    ys < xs ↔ padded ys xs < padded xs ys ∨ padded ys xs = padded xs ys ∧ ys.length < xs.length := by
  induction xs generalizing ys with
  | nil =>
    rw [padded_nil]
    refine ⟨fun h => absurd h (not_lt_nil _), fun h => h.elim (fun hlt => ?_) fun h => absurd h.2 (Nat.not_lt_zero _)⟩
    rcases padded_zeros ys with heq | hzeros
    · rw [heq] at hlt
      exact absurd hlt (List.lt_irrefl ys)
    · exact absurd (List.lt_trans hlt hzeros) (List.lt_irrefl ys)
  | cons x xs ih =>
    cases ys with
    | nil =>
      rw [padded_nil]
      refine ⟨fun _ => ?_, fun _ => nil_lt_cons x xs⟩
      exact (padded_zeros (x :: xs)).symm.imp_right fun heq => ⟨heq, Nat.succ_pos _⟩
    | cons y ys =>
      rw [padded_cons, padded_cons, cons_lt_cons_iff, cons_lt_cons_iff, ih ys, cons.injEq,
        length_cons, length_cons, Nat.add_lt_add_iff_right, and_or_left, and_assoc, or_assoc]

theorem after_iff_lt (xs ys : List Nat) : after (xs.map Int.ofNat) (ys.map Int.ofNat) = true ↔ ys < xs := by
  induction xs generalizing ys with
  | nil => exact ⟨fun h => absurd h Bool.false_ne_true, fun h => absurd h (not_lt_nil _)⟩
  | cons x xs ih =>
    cases ys with
    | nil => exact ⟨fun _ => nil_lt_cons x xs, fun _ => rfl⟩
    | cons y ys =>
      rw [cons_lt_cons_iff, ← ih ys, map_cons, map_cons, after]
      by_cases hxy : x = y
      · simp [hxy]
      · have hne : Int.ofNat x ≠ Int.ofNat y := fun h => hxy (Int.ofNat.inj h)
        simp only [if_neg hne, decide_eq_true_eq, Ne.symm hxy, false_and, or_false]
        exact Int.ofNat_lt

end Version

/-! ### Texts -/

/-- A text for a version: decimal numbers between dots, with a `v` in front if it is marked. -/
structure Spelling where
  marked : Bool
  numerals : List (List Char)
  nonempty : numerals ≠ []
  decimal : ∀ ds ∈ numerals, ds ≠ [] ∧ ∀ c ∈ ds, isDecimal c = true

namespace Spelling

theorem decimal_of_all {numerals : List (List Char)}
    (h : (numerals.all fun ds => !ds.isEmpty && ds.all isDecimal) = true) :
    ∀ ds ∈ numerals, ds ≠ [] ∧ ∀ c ∈ ds, isDecimal c = true := by
  simpa using h

def text (s : Spelling) : String :=
  String.ofList ((if s.marked then ['v'] else []) ++ ['.'].intercalate s.numerals)

def parts (s : Spelling) : List Nat := s.numerals.map (decimalNumber 0)

theorem dropWhile_numerals (s : Spelling) :
    (['.'].intercalate s.numerals).dropWhile (· == 'v') = ['.'].intercalate s.numerals := by
  obtain ⟨_, numerals, hne, hdecimal⟩ := s
  cases numerals with
  | nil => exact absurd rfl hne
  | cons ds rest =>
    obtain ⟨hds, hdigits⟩ := hdecimal ds (by simp)
    cases ds with
    | nil => exact absurd rfl hds
    | cons d ds =>
      have hd : (d == 'v') = false := beq_false_of_ne (by rintro rfl; cases hdigits 'v' (by simp))
      cases rest with
      | nil => rw [intercalate_singleton, dropWhile_cons_of_neg (by simp [hd])]
      | cons es rest => rw [intercalate_cons_cons, append_assoc, cons_append,
          dropWhile_cons_of_neg (by simp [hd])]

theorem dropMarks_text (s : Spelling) : Version.dropMarks s.text = String.ofList (['.'].intercalate s.numerals) := by
  rw [Version.dropMarks, text, String.toList_ofList]
  cases s.marked with
  | false => exact congrArg String.ofList s.dropWhile_numerals
  | true => exact congrArg String.ofList s.dropWhile_numerals

theorem parse_text (s : Spelling) : Version.parse s.text = s.parts.map Int.ofNat := by
  have hdots : ∀ ds ∈ s.numerals, '.' ∉ ds := fun ds hds hmem => by
    cases (s.decimal ds hds).2 '.' hmem
  have hread : ∀ ns : List (List Char), (∀ ds ∈ ns, ds ≠ [] ∧ ∀ c ∈ ds, isDecimal c = true) →
      (ns.map String.ofList).mapM Text.readInt? = some ((ns.map (decimalNumber 0)).map Int.ofNat) := by
    intro ns hns
    induction ns with
    | nil => rfl
    | cons ds ns ih =>
      obtain ⟨hne, hds⟩ := hns ds (by simp)
      rw [map_cons, mapM_cons, Text.readInt?_decimal hne hds, ih fun es hes => hns es (by simp [hes])]
      rfl
  rw [Version.parse, dropMarks_text, Text.splitAt, String.toList_ofList,
    Text.splitFrom_intercalate s.nonempty hdots, hread s.numerals s.decimal]
  rfl

/-- The texts denote one version: they have the same numbers, up to zeros at the end. -/
def Same (a b : Spelling) : Prop := Version.padded a.parts b.parts = Version.padded b.parts a.parts

instance (a b : Spelling) : Decidable (a.Same b) := inferInstanceAs (Decidable (_ = _))

theorem isNewer_iff (a b : Spelling) : Version.isNewer a.text b.text = true ↔
    Version.padded b.parts a.parts < Version.padded a.parts b.parts ∨ a.Same b ∧ b.parts.length < a.parts.length := by
  rw [Version.isNewer, parse_text, parse_text, Version.after_iff_lt, Version.lt_iff_padded, Same, eq_comm]

/-- The version of this program. -/
def current : Spelling := ⟨false, [['0'], ['1'], ['0']], by decide, decimal_of_all (by decide)⟩

theorem text_current : current.text = currentVersion := by decide +kernel

end Spelling

/-- A version is newer exactly if its numbers come later in the order of lists with zeros filled up, or if it is the
same version with more zeros at its end. Marks and zeros before a number make no difference. A release of the version
that this program has is offered only if more zeros are written at its end. -/
theorem newer_iff_padded (a b : Spelling) :
    (Version.isNewer a.text b.text = true ↔
      Version.padded b.parts a.parts < Version.padded a.parts b.parts ∨ a.Same b ∧ b.parts.length < a.parts.length) ∧
    ((Version.isNewer a.text b.text = true ↔ Version.padded b.parts a.parts < Version.padded a.parts b.parts) ↔
      ¬ (a.Same b ∧ b.parts.length < a.parts.length)) ∧
    (a.parts = b.parts → Version.isNewer a.text b.text = false) ∧
    ∀ windows fields, Json.field? fields "tag_name" = some (.text a.text) → a.Same .current →
      a.parts.length ≤ Spelling.current.parts.length → offered windows (.object fields) = .ok none := by
  have hsame : ∀ c : Spelling, a.Same c → ¬ Version.padded c.parts a.parts < Version.padded a.parts c.parts := by
    intro c h
    rw [h]
    exact List.lt_irrefl _
  have hnewer : ∀ c : Spelling, a.Same c → a.parts.length ≤ c.parts.length → Version.isNewer a.text c.text = false := by
    intro c h hle
    rw [← Bool.not_eq_true, Spelling.isNewer_iff]
    exact fun hor => hor.elim (hsame c h) fun hlt => absurd hlt.2 (Nat.not_lt.2 hle)
  refine ⟨Spelling.isNewer_iff a b, ?_, fun h => hnewer b ?_ (h ▸ Nat.le_refl _), fun windows fields htag h hle => ?_⟩
  · rw [Spelling.isNewer_iff]
    exact ⟨fun h hlong => hsame b hlong.1 (h.1 (.inr hlong)), fun h => ⟨fun hor => hor.resolve_right h, .inl⟩⟩
  · rw [Spelling.Same, h]
  · have hold : Version.isNewer (Version.dropMarks a.text) currentVersion = false := by
      rw [Version.isNewer, Version.parse, a.dropMarks_text, Version.dropMarks, String.toList_ofList, a.dropWhile_numerals,
        ← a.dropMarks_text, ← Version.parse, ← Version.isNewer, ← Spelling.text_current]
      exact hnewer .current h hle
    rw [offered, htag]
    simp only [Option.getD_some, hold]
    rfl

/-- The version of this program with other zeros before its numbers. -/
def filledCurrent : Spelling := ⟨true, [['0', '0'], ['0', '1'], ['0']], by decide, Spelling.decimal_of_all (by decide)⟩

theorem filledCurrent_not_offered : filledCurrent.Same .current ∧
    offered true (.object [("tag_name", .text filledCurrent.text)]) = .ok none :=
  have hsame : filledCurrent.Same .current := by decide +kernel
  ⟨hsame, (newer_iff_padded filledCurrent .current).2.2.2 true _ (by rfl) hsame (by decide)⟩

/-- The version of this program with one more zero. -/
def longCurrent : Spelling := ⟨true, [['0'], ['1'], ['0'], ['0']], by decide, Spelling.decimal_of_all (by decide)⟩

/-- It is offered again. -/
theorem current_offered_again : longCurrent.Same .current ∧
    Version.isNewer longCurrent.text currentVersion = true ∧
    (offered false (.object [("tag_name", .text longCurrent.text), ("assets", .list [.object
      [("name", .text "ide-linux"), ("browser_download_url", .text "x")]])])).toOption.join.isSome = true := by
  decide +kernel

end Workbench.Update
