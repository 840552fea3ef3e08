import Workbench.Text.Numeral

/-!
# Numerals

A numeral without a sign denotes no negative number (`readSigned?_nonneg`), and the decimal digits of a number denote
that number (`readInt?_repr`).
-/

open List

namespace Workbench.Text

variable {cs : List Char} {c : Char}

theorem decimalValue?_lt {d : Nat} (h : decimalValue? c = some d) : d < 10 := by
  unfold decimalValue? at h
  split at h
  · split at h
    · rename_i hdigit
      cases h
      have hle : c.toNat ≤ 57 := by
        simp only [Char.isDigit, Bool.and_eq_true, decide_eq_true_eq] at hdigit
        exact hdigit.2
      omega
    · cases h
  · obtain ⟨z, hz, rfl⟩ := Option.map_eq_some_iff.1 h
    have hz' := find?_some hz
    simp only [Bool.and_eq_true, decide_eq_true_eq] at hz'
    omega

/-- A character other than a digit, a space and the one for what stands in no numeral: nothing else is read as it. -/
theorem plainNumeralChar_ne {c m : Char} (hm : m.isDigit = false ∧ m ≠ ' ' ∧ m ≠ '?') (h : c ≠ m) :
    plainNumeralChar c ≠ m := by
  have hdigits : ∀ d < 10, (Char.ofNat (48 + d)).isDigit = true := by decide
  unfold plainNumeralChar
  split
  · exact h
  · split
    · exact hm.2.1.symm
    · split
      · rintro rfl
        cases (hdigits _ (decimalValue?_lt ‹_›)).symm.trans hm.1
      · exact hm.2.2.symm

theorem not_mem_plainNumeral {m : Char} (hm : m.isDigit = false ∧ m ≠ ' ' ∧ m ≠ '?') (h : m ∉ cs) :
    m ∉ plainNumeral (String.ofList cs) := by
  intro hmem
  simp only [plainNumeral, trimBy, trimEndBy, mem_reverse, String.toList_ofList] at hmem
  have hmem' := (dropWhile_sublist _).subset (mem_reverse.1 ((dropWhile_sublist _).subset hmem))
  obtain ⟨c, hc, heq⟩ := mem_map.1 hmem'
  exact plainNumeralChar_ne hm (fun hdash => h (hdash ▸ hc)) heq

theorem readSigned?_nonneg {read : List Char → Option Nat} {n : Int} (h : '-' ∉ cs)
    (hn : readSigned? read cs = some n) : 0 ≤ n := by
  unfold readSigned? at hn
  split at hn
  · simp at h
  all_goals
    obtain ⟨m, -, rfl⟩ := Option.map_eq_some_iff.1 hn
    exact Int.natCast_nonneg m

/-! ### Decimal digits -/

theorem decimalValue?_of_ascii (h : c.isDigit = true) : decimalValue? c = some (c.toNat - 48) := by
  have hlt : c.toNat < 128 := by
    simp only [Char.isDigit, Bool.and_eq_true, decide_eq_true_eq] at h
    exact Nat.lt_of_le_of_lt h.2 (by decide)
  rw [decimalValue?, if_pos hlt, if_pos h]

theorem isDigit_of_ascii (h : c.isDigit = true) : isDigit c = true := by
  rw [isDigit, isDecimal, decimalValue?_of_ascii h]
  rfl

theorem plainNumeralChar_decimal {d : Nat} (h : decimalValue? c = some d) : plainNumeralChar c = Char.ofNat (48 + d) := by
  have hblanks : ∀ z ∈ decimalZeros, ∀ k < 10, isBlank (Char.ofNat (z + k)) = false := by decide +kernel
  unfold plainNumeralChar
  by_cases hc : c.toNat < 128
  · rw [decimalValue?, if_pos hc] at h
    split at h
    · rename_i hdigit
      cases h
      simp only [Char.isDigit, Bool.and_eq_true, decide_eq_true_eq] at hdigit
      have hle : 48 ≤ c.toNat ∧ c.toNat ≤ 57 := hdigit
      rw [if_pos (by omega), Nat.add_sub_cancel' hle.1, Char.ofNat_toNat]
    · cases h
  · have hvalue := h
    rw [decimalValue?, if_neg hc] at h
    obtain ⟨z, hz, rfl⟩ := Option.map_eq_some_iff.1 h
    have hz' := find?_some hz
    simp only [Bool.and_eq_true, decide_eq_true_eq] at hz'
    have hblank := hblanks z (mem_of_find?_eq_some hz) (c.toNat - z) (by omega)
    rw [Nat.add_sub_cancel' hz'.1, Char.ofNat_toNat] at hblank
    rw [if_neg (by omega), hblank, hvalue]
    rfl

/-- The number that decimal digits of any script denote when they follow the digits of `acc`. -/
def decimalNumber (acc : Nat) (cs : List Char) : Nat := cs.foldl (fun n c => 10 * n + (decimalValue? c).getD 0) acc

theorem digitIn?_plain (h : isDecimal c = true) : digitIn? 10 (plainNumeralChar c) = decimalValue? c := by
  have hdigits : ∀ d < 10, digitIn? 10 (Char.ofNat (48 + d)) = some d := by decide
  obtain ⟨d, hd⟩ := Option.isSome_iff_exists.1 h
  rw [plainNumeralChar_decimal hd, hd, hdigits d (decimalValue?_lt hd)]

theorem isDigit_plain (h : isDecimal c = true) : (plainNumeralChar c).isDigit = true := by
  have hdigits : ∀ d < 10, (Char.ofNat (48 + d)).isDigit = true := by decide
  obtain ⟨d, hd⟩ := Option.isSome_iff_exists.1 h
  rw [plainNumeralChar_decimal hd]
  exact hdigits d (decimalValue?_lt hd)

theorem readDigitsFrom?_decimal (h : ∀ c ∈ cs, isDecimal c = true) (acc : Nat) :
    readDigitsFrom? 10 acc (cs.map plainNumeralChar) = some (decimalNumber acc cs) := by
  induction cs generalizing acc with
  | nil => rfl
  | cons c cs ih =>
    have hc : isDecimal c = true := h c (by simp)
    obtain ⟨d, hd⟩ := Option.isSome_iff_exists.1 hc
    rw [map_cons, readDigitsFrom?, digitIn?_plain hc, hd, Option.bind_some, ih fun c hc => h c (by simp [hc]),
      Nat.mul_comm, decimalNumber, decimalNumber, foldl_cons, hd, Option.getD_some]
    intro d ds hunderscore _
    cases (hunderscore ▸ isDigit_plain hc)

/-- Nothing is trimmed from a text that neither starts nor ends with what is trimmed. -/
theorem trimBy_eq_self {p : Char → Bool} (hhead : ∀ c ∈ cs.head?, p c = false)
    (hlast : ∀ c ∈ cs.getLast?, p c = false) : trimBy p cs = cs := by
  have hkeep : ∀ {ds : List Char}, (∀ c ∈ ds.head?, p c = false) → ds.dropWhile p = ds := by
    intro ds hds
    cases ds with
    | nil => rfl
    | cons d ds => exact dropWhile_cons_of_neg (by rw [hds d rfl]; exact Bool.false_ne_true)
  rw [trimBy, hkeep hhead, trimEndBy, hkeep (by rwa [head?_reverse]), reverse_reverse]

/-- Decimal digits of any script are read as the number that they denote. -/
theorem readInt?_decimal (hne : cs ≠ []) (h : ∀ c ∈ cs, isDecimal c = true) :
    readInt? (String.ofList cs) = some (decimalNumber 0 cs : Int) := by
  have hplain : ∀ c ∈ cs.map plainNumeralChar, c.isDigit = true := by
    intro c hc
    obtain ⟨b, hb, rfl⟩ := mem_map.1 hc
    exact isDigit_plain (h b hb)
  have hblank : ∀ c ∈ cs.map plainNumeralChar, isNumeralBlank c = false := by
    intro c hc
    have hdigit := hplain c hc
    simp only [Char.isDigit, Bool.and_eq_true, decide_eq_true_eq] at hdigit
    have hle : 48 ≤ c.toNat := hdigit.1
    have hspace : c ≠ ' ' := by
      rintro rfl
      cases hplain _ hc
    simp only [isNumeralBlank, Bool.or_eq_false_iff, beq_eq_false_iff_ne, Bool.and_eq_false_iff,
      decide_eq_false_iff_not]
    exact ⟨hspace, .inr (by omega)⟩
  rw [readInt?, plainNumeral, String.toList_ofList,
    trimBy_eq_self (fun c hc => hblank c (mem_of_head? hc)) fun c hc => hblank c (mem_of_getLast? hc)]
  cases cs with
  | nil => exact absurd rfl hne
  | cons c cs =>
    obtain ⟨d, hd⟩ := Option.isSome_iff_exists.1 (h c (by simp))
    have hread : readDigits? 10 ((c :: cs).map plainNumeralChar) = some (decimalNumber 0 (c :: cs)) := by
      rw [map_cons, readDigits?, digitIn?_plain (h c (by simp)), hd, Option.bind_some,
        readDigitsFrom?_decimal fun c hc => h c (by simp [hc]), decimalNumber, decimalNumber, foldl_cons, hd,
        Option.getD_some, Nat.mul_zero, Nat.zero_add]
    rw [readSigned?, hread]
    · rfl
    all_goals
      intro ds hsign
      cases hplain _ (hsign ▸ mem_cons_self)

theorem decimalNumber_ascii (h : ∀ c ∈ cs, c.isDigit = true) (acc : Nat) :
    decimalNumber acc cs = Nat.ofDigitChars 10 cs acc := by
  induction cs generalizing acc with
  | nil => rfl
  | cons c cs ih =>
    rw [Nat.ofDigitChars_cons, ← ih fun d hd => h d (by simp [hd]), decimalNumber, foldl_cons,
      decimalValue?_of_ascii (h c (by simp))]
    rfl

/-- The decimal digits of a number are read as that number. -/
theorem readInt?_repr (n : Nat) : readInt? n.repr = some (n : Int) := by
  have hdigits : ∀ c ∈ Nat.toDigits 10 n, c.isDigit = true := fun c =>
    Nat.isDigit_of_mem_toDigits (by decide) (Nat.le_refl 10)
  have hdecimal : ∀ c ∈ Nat.toDigits 10 n, isDecimal c = true := fun c hc => by
    rw [isDecimal, decimalValue?_of_ascii (hdigits c hc)]
    rfl
  rw [Nat.repr_eq_ofList_toDigits, readInt?_decimal Nat.toDigits_ne_nil hdecimal, decimalNumber_ascii hdigits,
    Nat.ofDigitChars_ten_toDigits]

end Workbench.Text
