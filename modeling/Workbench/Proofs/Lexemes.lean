import Mathlib.Data.List.TakeWhile
import Workbench.Proofs.Numerals
import Workbench.Proofs.Syntax
import Workbench.Token.Scan

/-!
# Lexemes

A token is read again from its own text, if white space or the end of the text comes after it (`pieceAt_again`). So the
tokens of a text can be told from their lexemes: `Lexes` says that a stretch of text has certain tokens wherever it
stands in front of white space, and stretches are put together by `Lexes.append`. One token cannot stand in front of
anything: a string that is not closed takes all the text that is left, and is the last token before the end.

The main statement, `tokens_stable`, is that the lexemes of a text, joined by spaces, have the tokens of the text.
-/

open List

namespace Workbench.Token

open Text

/-- What a token is apart from its place: its kind, its text and what it denotes. -/
def content (t : Token) : Kind × String × Option Value := (t.kind, t.lexeme, t.value)

/-- White space, as it may stand between tokens. -/
def isWhite (c : Char) : Bool := c == ' ' || c == '\r' || c == '\t' || c == '\n'

/-- A text that starts with white space, or is empty. -/
def Apart (r : List Char) : Prop := ∀ c ∈ r.head?, isWhite c = true

namespace Apart

variable {r : List Char}

theorem nil : Apart [] := by simp [Apart]

theorem cons {c : Char} (h : isWhite c = true) : Apart (c :: r) := by simpa [Apart] using h

theorem append {w : List Char} (hw : Apart w) (hr : Apart r) : Apart (w ++ r) := by
  cases w with
  | nil => exact hr
  | cons c w => exact .cons (hw c rfl)

theorem head_ne (h : Apart r) {c : Char} (hc : isWhite c = false) : (r.head? == some c) = false := by
  rw [beq_eq_false_iff_ne]
  intro hhead
  rw [h c hhead] at hc
  cases hc

theorem takeWhile_eq_nil (h : Apart r) {p : Char → Bool} (hp : ∀ c, isWhite c = true → p c = false) :
    r.takeWhile p = [] := by
  cases r with
  | nil => rfl
  | cons c r => exact takeWhile_cons_of_neg (by rw [hp c (h c rfl)]; exact Bool.false_ne_true)

theorem takeWhile_append (h : Apart r) {p : Char → Bool} (hp : ∀ c, isWhite c = true → p c = false)
    (cs : List Char) : (cs.takeWhile p ++ r).takeWhile p = cs.takeWhile p := by
  rw [takeWhile_append_of_pos fun c => mem_takeWhile_imp, h.takeWhile_eq_nil hp, append_nil]

end Apart

theorem take_takeWhile_length (p : Char → Bool) (cs : List Char) : cs.take (cs.takeWhile p).length = cs.takeWhile p :=
  (prefix_iff_eq_take.1 (List.takeWhile_prefix p)).symm

variable {c : Char} {p : Piece} {cs w : List Char} {k : Kind} {v : Option Value} {ts : List Token}
  {ks : List (Kind × String × Option Value)} {t : Token}

theorem isWhite_cases (h : isWhite c = true) : c = ' ' ∨ c = '\r' ∨ c = '\t' ∨ c = '\n' := by
  simpa [isWhite, or_assoc] using h

theorem isWhite_class (h : isWhite c = true) : isDigit c = false ∧ isHexDigit c = false ∧ isWordChar c = false := by
  rcases isWhite_cases h with rfl | rfl | rfl | rfl <;> decide

def blankCodes : List Nat :=
  [9, 10, 11, 12, 13, 28, 29, 30, 31, 32, 0x85, 0xa0, 0x1680, 0x2000, 0x2001, 0x2002, 0x2003, 0x2004, 0x2005, 0x2006,
   0x2007, 0x2008, 0x2009, 0x200a, 0x2028, 0x2029, 0x202f, 0x205f, 0x3000]

theorem mem_blankCodes (h : isBlank c = true) : c.toNat ∈ blankCodes := by
  have hrange : ∀ {a b}, (∀ d ≤ b - a, a + d ∈ blankCodes) → a ≤ c.toNat → c.toNat ≤ b → c.toNat ∈ blankCodes := by
    intro a b hcodes ha hb
    have hmem := hcodes (c.toNat - a) (by omega)
    rwa [Nat.add_sub_of_le ha] at hmem
  simp only [isBlank, Bool.or_eq_true, Bool.and_eq_true, decide_eq_true_eq, beq_iff_eq] at h
  rcases h with (((((((((h | h) | h) | h) | h) | h) | h) | h) | h) | h) | h
  case inl.inl.inl.inl.inl.inr | inl.inl.inl.inl.inl.inl.inl.inl.inl.inl | inl.inl.inl.inl.inl.inl.inl.inl.inl.inr =>
    exact hrange (by decide) h.1 h.2
  all_goals
    rw [h]
    decide

theorem isBlank_class (h : isBlank c = true) : isDigit c = false ∧ isLetter c = false := by
  have hall : ∀ n ∈ blankCodes, isDigit (Char.ofNat n) = false ∧ isLetter (Char.ofNat n) = false := by
    decide +kernel
  simpa using hall _ (mem_blankCodes h)

/-! ### A token is read again -/

theorem stringPiece_again {cs r : List Char} (h : r = [] ∨ '"' ∈ cs) :
    stringPiece (cs.take (stringPiece cs).extra ++ r) = stringPiece cs := by
  have hbody := takeWhile_append_dropWhile (p := (· != '"')) (l := cs)
  unfold stringPiece
  generalize hb : cs.takeWhile (· != '"') = body at hbody
  generalize hd : cs.dropWhile (· != '"') = rest at hbody
  cases rest with
  | nil =>
    obtain rfl : body = cs := by simpa using hbody
    have hopen : '"' ∉ body := by
      intro hmem
      rw [← hb] at hmem
      simpa using mem_takeWhile_imp hmem
    obtain rfl : r = [] := h.resolve_right hopen
    simp [hb]
  | cons c rest =>
    obtain rfl : c = '"' := by
      have := head?_dropWhile_not (· != '"') cs
      rw [hd] at this
      simpa using this
    have hpos : ∀ x ∈ body, (x != '"') = true := by
      intro x hx
      rw [← hb] at hx
      exact mem_takeWhile_imp (p := (· != '"')) hx
    have hlt : body.length < cs.length := by
      rw [← hbody]
      simp
    rw [if_pos hlt]
    have htake : cs.take (body.length + 1) = body ++ ['"'] := by
      rw [← hbody, take_append, take_of_length_le (Nat.le_succ _)]
      simp
    rw [htake, append_assoc, takeWhile_append_of_pos hpos]
    simp

theorem not_mem_takeWhile {p : Char → Bool} (h : p c = false) : c ∉ cs.takeWhile p := by
  intro hmem
  rw [mem_takeWhile_imp hmem] at h
  cases h

theorem hexPiece_ok (h : hexPiece cs = .ok p) :
    ∃ n : Nat, p = ⟨(cs.takeWhile isHexDigit).length + 1, some (.number, some (.number n))⟩ := by
  unfold hexPiece at h
  dsimp only at h
  split at h <;> cases h
  rename_i n hn
  have hnonneg : 0 ≤ n := by
    split at hn
    · cases hn
      exact Int.le_refl 0
    · exact readSigned?_nonneg (not_mem_plainNumeral (by decide) (not_mem_takeWhile (by decide))) hn
  exact ⟨n.toNat, by rw [Int.toNat_of_nonneg hnonneg]⟩

theorem decimalPiece_ok (hc : isDigit c = true) (h : decimalPiece c cs = .ok p) :
    ∃ n : Nat, p = ⟨(cs.takeWhile isDigit).length, some (.number, some (.number n))⟩ := by
  have hdash : isDigit '-' = false := by decide
  have hne : '-' ≠ c := by
    rintro rfl
    cases hc
  have hdigits : '-' ∉ c :: cs.takeWhile isDigit :=
    not_mem_cons_of_ne_of_not_mem hne (not_mem_takeWhile hdash)
  unfold decimalPiece at h
  dsimp only at h
  split at h <;> cases h
  rename_i n hn
  have hnonneg : 0 ≤ n := readSigned?_nonneg (not_mem_plainNumeral (by decide) hdigits) hn
  exact ⟨n.toNat, by rw [Int.toNat_of_nonneg hnonneg]⟩

theorem numberPiece_ok (hc : isDigit c = true) (h : numberPiece c cs = .ok p) :
    ∃ n : Nat, p.extra ≤ cs.length ∧ p.found = some (.number, some (.number n)) := by
  have hdecimal : decimalPiece c cs = .ok p →
      ∃ n : Nat, p.extra ≤ cs.length ∧ p.found = some (.number, some (.number n)) := by
    intro h
    obtain ⟨n, rfl⟩ := decimalPiece_ok hc h
    exact ⟨n, (List.takeWhile_prefix _).length_le, rfl⟩
  unfold numberPiece at h
  split at h
  case h_1 m ds =>
    split at h
    · obtain ⟨n, rfl⟩ := hexPiece_ok h
      exact ⟨n, Nat.succ_le_succ (List.takeWhile_prefix _).length_le, rfl⟩
    · exact hdecimal h
  case h_2 => exact hdecimal h

theorem hexPiece_again {cs r : List Char} (hr : Apart r) (h : hexPiece cs = .ok p) :
    hexPiece (cs.takeWhile isHexDigit ++ r) = .ok p := by
  rw [← h]
  simp only [hexPiece, hr.takeWhile_append fun c hc => (isWhite_class hc).2.1]

theorem decimalPiece_again {cs r : List Char} (hr : Apart r) (h : decimalPiece c cs = .ok p) :
    decimalPiece c (cs.takeWhile isDigit ++ r) = .ok p := by
  rw [← h]
  simp only [decimalPiece, hr.takeWhile_append fun c hc => (isWhite_class hc).1]

theorem wordPiece_again (c : Char) (cs : List Char) {r : List Char} (hr : Apart r) :
    wordPiece c (cs.take (wordPiece c cs).extra ++ r) = wordPiece c cs := by
  have hp : (wordPiece c cs).extra = (cs.takeWhile isWordChar).length := rfl
  rw [hp, take_takeWhile_length]
  simp only [wordPiece, hr.takeWhile_append fun c hc => (isWhite_class hc).2.2]

theorem numberPiece_again {cs r : List Char} (hc : isDigit c = true) (hr : Apart r)
    (h : numberPiece c cs = .ok p) : numberPiece c (cs.take p.extra ++ r) = .ok p := by
  have hmark : ∀ m ∈ r.head?, ¬(c == '0' && (m == 'x' || m == 'X')) = true := by
    intro m hm
    rcases isWhite_cases (hr m hm) with rfl | rfl | rfl | rfl <;> simp
  unfold numberPiece at h
  split at h
  case h_1 m ds =>
    split at h
    case isTrue hx =>
      have hagain := hexPiece_again hr h
      obtain ⟨n, rfl⟩ := hexPiece_ok h
      rw [take_succ_cons, take_takeWhile_length, cons_append, numberPiece, if_pos hx, hagain]
    case isFalse hx =>
      have hagain := decimalPiece_again hr h
      obtain ⟨n, rfl⟩ := decimalPiece_ok hc h
      rw [← hagain]
      -- the mark of a hexadecimal number is missing in `m :: ds` already, or white space comes instead
      rw [take_takeWhile_length]
      by_cases hm : isDigit m = true
      · rw [takeWhile_cons_of_pos hm, cons_append, numberPiece, if_neg hx]
      · rw [takeWhile_cons_of_neg hm, nil_append]
        cases r with
        | nil => rfl
        | cons b r => rw [numberPiece, if_neg (hmark b rfl)]
  case h_2 =>
    rw [← decimalPiece_again hr h, take_nil, takeWhile_nil, nil_append]
    cases r with
    | nil => rfl
    | cons b r => rw [numberPiece, if_neg (hmark b rfl)]

/-- Of two tokens with the same first character the same one is read again. -/
theorem pair_again {cs r : List Char} (hr : Apart r) {x : Char} (hx : isWhite x = false) {joined alone p : Piece}
    (hjoined : joined.extra = 1 ∨ joined.found = none) (halone : alone.extra = 0 ∨ alone.found = none)
    (h : (if cs.head? == some x then joined else alone) = p) (hfound : p.found ≠ none) :
    (if (cs.take p.extra ++ r).head? == some x then joined else alone) = p := by
  split at h
  case isTrue hhead =>
    subst h
    rw [hjoined.resolve_right hfound]
    cases cs with
    | nil => cases hhead
    | cons y cs => exact if_pos hhead
  case isFalse =>
    subst h
    rw [halone.resolve_right hfound, take_zero, nil_append, hr.head_ne hx]
    rfl

/-- A token is read again from its own text, in front of white space. A string that is not closed is read again at the
end of the text only. -/
theorem pieceAt_again {cs r : List Char} (h : pieceAt c cs = .ok p) (hfound : p.found ≠ none) (hr : Apart r)
    (hopen : r = [] ∨ (c = '"' → '"' ∈ cs)) : pieceAt c (cs.take p.extra ++ r) = .ok p := by
  unfold pieceAt at h ⊢
  split at h
  · cases h
    exact absurd rfl hfound
  rw [if_neg ‹_›]
  split at h
  case h_1 => exact h
  split at h
  case h_1 =>
    rw [Except.ok.injEq] at h ⊢
    exact pair_again hr rfl (.inl rfl) (.inl rfl) h hfound
  split at h
  · rw [if_pos ‹_›]
    rw [Except.ok.injEq] at h ⊢
    exact pair_again hr rfl (.inl rfl) (.inr rfl) h hfound
  rw [if_neg ‹_›]
  split at h
  · rw [if_pos ‹_›]
    rw [Except.ok.injEq] at h ⊢
    exact pair_again hr rfl (.inl rfl) (.inl rfl) h hfound
  rw [if_neg ‹_›]
  split at h
  · -- a comment has no token, whatever its length
    rw [if_pos ‹_›]
    rw [Except.ok.injEq] at h
    split at h
    · subst h
      exact absurd rfl hfound
    · subst h
      rw [show (Piece.plain 0 .slash).extra = 0 from rfl, take_zero, nil_append, hr.head_ne rfl]
      rfl
  rw [if_neg ‹_›]
  split at h
  case isTrue hquote =>
    rw [if_pos hquote]
    rw [Except.ok.injEq] at h ⊢
    subst h
    exact stringPiece_again (hopen.imp_right fun hq => hq (by simpa using hquote))
  rw [if_neg ‹_›]
  split at h
  · rw [if_pos ‹_›]
    exact numberPiece_again ‹_› hr h
  rw [if_neg ‹_›]
  split at h
  · rw [if_pos ‹_›]
    rw [Except.ok.injEq] at h ⊢
    subst h
    exact wordPiece_again c cs hr
  · cases h
    exact absurd rfl hfound

/-! ### Stretches of text -/

theorem tokensFrom_cons {pos : Pos} : tokensFrom pos (c :: cs) = .ok ts ↔ ∃ p more, pieceAt c cs = .ok p ∧
      tokensFrom (pos.after (c :: cs.take p.extra)) (cs.drop p.extra) = .ok more ∧
      ts = p.tokens (c :: cs.take p.extra) (pos.after (c :: cs.take p.extra)) ++ more := by
  simp only [tokensFrom, bind_eq_ok, pure_eq_ok]
  constructor
  · rintro ⟨p, hp, more, hmore, rfl⟩
    exact ⟨p, more, hp, hmore, rfl⟩
  · rintro ⟨p, more, hp, hmore, rfl⟩
    exact ⟨p, hp, more, hmore, rfl⟩

/-- A text that is written out is given by its characters, so its tokens are evaluated without reading them off the
text. -/
theorem tokens_ofList (cs : List Char) : tokens (String.ofList cs) = tokensFrom .start cs := by
  rw [tokens, String.toList_ofList]

theorem tokens_append_ofList (cs ds : List Char) :
    tokens (String.ofList cs ++ String.ofList ds) = tokensFrom .start (cs ++ ds) := by
  rw [tokens, String.toList_append, String.toList_ofList, String.toList_ofList]

theorem Pos.after_append (pos : Pos) (a b : List Char) : pos.after (a ++ b) = (pos.after a).after b :=
  foldl_append

/-- Wherever it stands in front of white space, the text `w` has the tokens `ks`. -/
def Lexes (w : List Char) (ks : List (Kind × String × Option Value)) : Prop :=
  ∀ pos r ts, Apart r → tokensFrom (pos.after w) r = .ok ts →
    ∃ ts₀, tokensFrom pos (w ++ r) = .ok (ts₀ ++ ts) ∧ ts₀.map content = ks

/-- As a text of its own, `w` has the tokens `ks` and then the end token. -/
def Spells (w : List Char) (ks : List (Kind × String × Option Value)) : Prop :=
  ∀ pos, ∃ ts e, tokensFrom pos w = .ok (ts ++ [e]) ∧ e.content = (.eof, "", none) ∧ ts.map content = ks

theorem Lexes.nil : Lexes [] [] := fun _ _ _ _ h => ⟨[], h, rfl⟩

theorem Lexes.white (hc : isWhite c = true) (h : Lexes w ks) : Lexes (c :: w) ks := by
  intro pos r ts hr hts
  have hskip : pieceAt c (w ++ r) = .ok (.skip 0) := if_pos hc
  obtain ⟨ts₀, hts₀, hks⟩ := h (pos.after [c]) r ts hr hts
  exact ⟨ts₀, tokensFrom_cons.2 ⟨_, _, hskip, hts₀, rfl⟩, hks⟩

theorem Lexes.append {v w : List Char} {js ks : List (Kind × String × Option Value)} (hv : Lexes v js)
    (hw : Lexes w ks) (hapart : Apart w) : Lexes (v ++ w) (js ++ ks) := by
  intro pos r ts hr hts
  rw [Pos.after_append] at hts
  obtain ⟨ts₁, hts₁, rfl⟩ := hw (pos.after v) r ts hr hts
  obtain ⟨ts₀, hts₀, rfl⟩ := hv pos (w ++ r) (ts₁ ++ ts) (hapart.append hr) hts₁
  exact ⟨ts₀ ++ ts₁, by rw [append_assoc, hts₀, append_assoc], map_append⟩

theorem Lexes.spells (h : Lexes w ks) : Spells w ks := by
  intro pos
  have hend : tokensFrom (pos.after w) [] = .ok [⟨.eof, "", (pos.after w).line, (pos.after w).col, none⟩] := by
    rw [tokensFrom]
  obtain ⟨ts₀, hts₀, hks⟩ := h pos [] _ .nil hend
  exact ⟨ts₀, _, by rwa [append_nil] at hts₀, rfl, hks⟩

theorem Lexes.append_spells {v w : List Char} {js ks : List (Kind × String × Option Value)} (hv : Lexes v js)
    (hw : Spells w ks) (hapart : Apart w) : Spells (v ++ w) (js ++ ks) := by
  intro pos
  obtain ⟨ts₁, e, hts₁, he, rfl⟩ := hw (pos.after v)
  obtain ⟨ts₀, hts₀, rfl⟩ := hv pos w _ hapart hts₁
  exact ⟨ts₀ ++ ts₁, e, by rw [hts₀, append_assoc], he, map_append⟩

theorem Spells.white (hc : isWhite c = true) (h : Spells w ks) : Spells (c :: w) ks := by
  intro pos
  have hskip : pieceAt c w = .ok (.skip 0) := if_pos hc
  obtain ⟨ts, e, hts, he, hks⟩ := h (pos.after [c])
  exact ⟨ts, e, tokensFrom_cons.2 ⟨_, _, hskip, hts, rfl⟩, he, hks⟩

theorem Piece.tokens_content (h : p.found = some (k, v)) (text : List Char) (after : Pos) :
    (p.tokens text after).map content = [(k, String.ofList text, v)] := by
  simp only [Piece.tokens, h, map_cons, map_nil, content]

/-! ### What a token is by its kind -/

/-- How a token of the kind is written. Names, numbers and strings have many texts, of which one is given. -/
def Kind.spelling : Kind → String
  | .leftParen => "(" | .rightParen => ")" | .leftBrace => "\x7b" | .rightBrace => "\x7d"
  | .leftBracket => "[" | .rightBracket => "]" | .comma => "," | .dot => "." | .minus => "-" | .plus => "+"
  | .semicolon => ";" | .slash => "/" | .star => "*" | .colon => ":" | .equal => "=" | .amp => "&" | .bang => "!"
  | .bangEqual => "!=" | .equalEqual => "==" | .greater => ">" | .greaterEqual => ">=" | .less => "<"
  | .lessEqual => "<=" | .andAnd => "&&" | .orOr => "||"
  | .identifier => "x" | .string => "\"\"" | .number => "0"
  | .kwFn => "fn" | .kwLet => "let" | .kwReturn => "return" | .kwIf => "if" | .kwElse => "else"
  | .kwWhile => "while" | .kwTrue => "true" | .kwFalse => "false" | .kwInt => "int" | .kwStr => "str"
  | .kwVoid => "void" | .kwPtr => "ptr" | .kwPrint => "print" | .kwPrintln => "println" | .kwAsm => "asm"
  | .kwVmAsm => "vm_asm" | .eof => ""

/-- A text that is read as a name. -/
def IsName (x : String) : Prop := Lexes x.toList [(.identifier, x, none)]

theorem IsName.ne_empty {x : String} (h : IsName x) : x ≠ "" := by
  rintro rfl
  obtain ⟨ts, e, hts, -, hcontent⟩ := Lexes.spells h .start
  rw [show "".toList = [] from rfl, tokensFrom, Except.ok.injEq] at hts
  have hlen := congrArg length hts
  have hlen' := congrArg length hcontent
  simp only [length_append, length_map, length_singleton] at hlen hlen'
  omega

/-- What stands in a token besides its kind `k`, the end token apart: a name, a number without sign, a string without
quotes, or the one text of the kind. -/
def Proper (k : Kind) (lexeme : String) (value : Option Value) : Prop :=
  match k with
  | .identifier => IsName lexeme ∧ value = none
  | .number => ∃ n : Nat, value = some (.number n)
  | .string => ∃ s : String, '"' ∉ s.toList ∧ value = some (.text s)
  | .eof => False
  | k => lexeme = k.spelling ∧ value = none

theorem proper_symbol (h : symbol? c = some k) : Proper k (String.ofList [c]) none := by
  unfold symbol? at h
  split at h <;> cases h <;> exact ⟨rfl, rfl⟩

theorem proper_comparison {alone joined : Kind} (h : comparison? c = some (alone, joined)) :
    Proper alone (String.ofList [c]) none ∧ Proper joined (String.ofList [c, '=']) none := by
  unfold comparison? at h
  split at h <;> cases h <;> exact ⟨⟨rfl, rfl⟩, rfl, rfl⟩

theorem Kind.ofWord_cases (word : String) :
    Kind.ofWord word = .identifier ∨ (word, Kind.ofWord word) ∈ Kind.keywords := by
  unfold Kind.ofWord
  rcases h : keywords.lookup word with _ | k
  · exact .inl rfl
  · exact .inr (mem_of_lookup h)

theorem proper_keyword {word : String} (h : (word, k) ∈ Kind.keywords) : Proper k word none := by
  have hall : ∀ p ∈ Kind.keywords, p.1 = p.2.spelling ∧
      p.2 ∉ [.identifier, .number, .string, .eof] := by decide
  obtain ⟨hword, hk⟩ : word = k.spelling ∧ k ∉ _ := hall _ h
  unfold Proper
  split
  case h_5 => exact ⟨hword, rfl⟩
  all_goals exact absurd hk (by decide)

theorem proper_string (h : (stringPiece cs).found = some (k, v)) (w : String) : Proper k w v := by
  have hbody : '"' ∉ (String.ofList (cs.takeWhile (· != '"'))).toList := by
    rw [String.toList_ofList]
    intro hmem
    simpa using mem_takeWhile_imp hmem
  unfold stringPiece at h
  dsimp only at h
  split at h <;> cases h
  · exact ⟨_, hbody, rfl⟩
  · exact ⟨"", by simp, rfl⟩

/-! ### The pieces of a text -/

/-- What the piece that starts with `c` is, in front of `cs`. -/
inductive Starts (c : Char) (cs : List Char) : Piece → Prop
  | white (hc : isWhite c = true) : Starts c cs (.skip 0)
  | alone {k : Kind} (hk : Proper k (String.ofList [c]) none) : Starts c cs (.plain 0 k)
  | joined {k : Kind} {x : Char} (hx : cs.head? = some x) (hk : Proper k (String.ofList [c, x]) none) :
      Starts c cs (.plain 1 k)
  | bar (hc : c = '|') (hx : cs.head? ≠ some '|') : Starts c cs (.skip 0)
  | comment (hc : c = '/') (hx : cs.head? = some '/') : Starts c cs (.skip (cs.takeWhile (· != '\n')).length)
  | string : Starts c cs (stringPiece cs)
  | number {extra n : Nat} (hextra : extra ≤ cs.length) : Starts c cs ⟨extra, some (.number, some (.number n))⟩
  | word (hc : c ≠ '"') : Starts c cs (wordPiece c cs)
  | stray (hsymbol : symbol? c = none) (hcomparison : comparison? c = none) (hc : c ∉ ['|', '&', '/', '"', '_'])
      (hdigit : Text.isDigit c = false) (hletter : Text.isLetter c = false) : Starts c cs (.skip 0)

/-- Of two tokens with the same first character, the longer one is taken if it is there. -/
theorem starts_pair {x : Char} {joined alone : Kind} (hjoined : Proper joined (String.ofList [c, x]) none)
    (halone : Proper alone (String.ofList [c]) none) :
    Starts c cs (if cs.head? == some x then .plain 1 joined else .plain 0 alone) := by
  split
  case isTrue hx => exact .joined (eq_of_beq hx) hjoined
  case isFalse => exact .alone halone

/-- A piece is what its first character makes it. -/
theorem pieceAt_starts (h : pieceAt c cs = .ok p) : Starts c cs p := by
  unfold pieceAt at h
  split at h
  case isTrue hwhite =>
    cases h
    exact .white hwhite
  split at h
  case h_1 hsymbol =>
    cases h
    exact .alone (proper_symbol hsymbol)
  rename_i hsymbol
  split at h
  case h_1 hcomparison =>
    cases h
    exact starts_pair (proper_comparison hcomparison).2 (proper_comparison hcomparison).1
  rename_i hcomparison
  split at h
  case isTrue hbar =>
    cases eq_of_beq hbar
    cases h
    split
    case isTrue hx => exact .joined (eq_of_beq hx) ⟨rfl, rfl⟩
    case isFalse hx => exact .bar rfl (by simpa using hx)
  split at h
  case isTrue hamp =>
    cases eq_of_beq hamp
    cases h
    exact starts_pair ⟨rfl, rfl⟩ ⟨rfl, rfl⟩
  split at h
  case isTrue hslash =>
    cases eq_of_beq hslash
    cases h
    split
    case isTrue hx => exact .comment rfl (eq_of_beq hx)
    case isFalse => exact .alone ⟨rfl, rfl⟩
  split at h
  case isTrue =>
    cases h
    exact .string
  rename_i hquote
  split at h
  case isTrue hdigit =>
    obtain ⟨n, hextra, hfound⟩ := numberPiece_ok hdigit h
    obtain ⟨extra, found⟩ := p
    cases hfound
    exact .number hextra
  rename_i hdigit
  split at h
  case isTrue =>
    cases h
    exact .word (by simpa using hquote)
  rename_i hletter
  cases h
  rw [Bool.or_eq_true, not_or, Bool.not_eq_true] at hletter
  refine .stray hsymbol hcomparison ?_ (by simpa using hdigit) hletter.1
  simp_all

theorem Starts.extra_le (h : Starts c cs p) : p.extra ≤ cs.length := by
  have hrun : ∀ q : Char → Bool, (cs.takeWhile q).length ≤ cs.length := fun q =>
    (List.takeWhile_prefix q).length_le
  cases h with
  | white | alone | bar | stray => exact Nat.zero_le _
  | joined hx => exact length_pos_iff.2 (by rintro rfl; cases hx)
  | comment | word => exact hrun _
  | string =>
    unfold stringPiece
    dsimp only
    split
    · assumption
    · exact hrun _
  | number hextra => exact hextra

theorem lexes_of_pieceAt (h : pieceAt c cs = .ok p) (hfound : p.found = some (k, v)) (hopen : c = '"' → '"' ∈ cs) :
    Lexes (c :: cs.take p.extra) [(k, String.ofList (c :: cs.take p.extra), v)] := by
  intro pos r ts hr hts
  have hagain := pieceAt_again h (by rw [hfound]; simp) hr (.inr hopen)
  have hlen : (cs.take p.extra).length = p.extra := length_take_of_le (pieceAt_starts h).extra_le
  have hdrop : (cs.take p.extra ++ r).drop p.extra = r := drop_left' hlen
  have htake : (cs.take p.extra ++ r).take p.extra = cs.take p.extra := take_left' hlen
  refine ⟨p.tokens (c :: cs.take p.extra) (pos.after (c :: cs.take p.extra)), ?_, Piece.tokens_content hfound _ _⟩
  rw [cons_append, tokensFrom_cons]
  exact ⟨p, ts, hagain, by rwa [hdrop, htake], by rw [htake]⟩

/-- The text of a token, as a text of its own, has that token. -/
theorem spells_of_pieceAt (h : pieceAt c cs = .ok p) (hfound : p.found = some (k, v)) :
    Spells (c :: cs.take p.extra) [(k, String.ofList (c :: cs.take p.extra), v)] := by
  intro pos
  have hagain := pieceAt_again h (by rw [hfound]; simp) .nil (.inl rfl)
  have hlen : (cs.take p.extra).length ≤ p.extra := length_take_le _ _
  rw [append_nil] at hagain
  have htake : (cs.take p.extra).take p.extra = cs.take p.extra := by rw [take_take, Nat.min_self]
  let after := pos.after (c :: cs.take p.extra)
  refine ⟨p.tokens (c :: cs.take p.extra) after, ⟨.eof, "", after.line, after.col, none⟩, ?_, rfl,
    Piece.tokens_content hfound _ _⟩
  rw [tokensFrom_cons]
  refine ⟨p, _, hagain, ?_, by rw [htake]⟩
  rw [drop_of_length_le hlen, htake, tokensFrom]

theorem proper_of_pieceAt (h : pieceAt c cs = .ok p) (hfound : p.found = some (k, v)) :
    Proper k (String.ofList (c :: cs.take p.extra)) v := by
  have hword := lexes_of_pieceAt h hfound
  cases pieceAt_starts h with
  | white | bar | comment | stray => cases hfound
  | alone hk =>
    cases hfound
    exact hk
  | @joined k x hx hk =>
    cases hfound
    have htake : cs.take 1 = [x] := by
      cases cs with
      | nil => cases hx
      | cons y cs => simpa using hx
    rw [show (Piece.plain 1 k).extra = 1 from rfl, htake]
    exact hk
  | string => exact proper_string hfound _
  | @number extra n =>
    cases hfound
    exact ⟨n, rfl⟩
  | word hc =>
    cases hfound
    rcases Kind.ofWord_cases (String.ofList (c :: cs.takeWhile isWordChar)) with hk | hk
    · have hlex := hword fun hquote => absurd hquote hc
      rw [hk] at hlex ⊢
      exact ⟨by rwa [IsName, String.toList_ofList], rfl⟩
    · rw [show (wordPiece c cs).extra = (cs.takeWhile isWordChar).length from rfl, take_takeWhile_length]
      exact proper_keyword hk

theorem isBlank_of_pieceAt (h : pieceAt c cs = .ok p) (hfound : p.found ≠ none) : isBlank c = false := by
  rw [Bool.eq_false_iff]
  intro hblank
  obtain ⟨hdigit, hletter⟩ := isBlank_class hblank
  have hsymbol : symbol? c = none := by
    unfold symbol?
    split <;> first | rfl | cases hblank
  have hcomparison : comparison? c = none := by
    unfold comparison?
    split <;> first | rfl | cases hblank
  have hne : ∀ {x : Char}, isBlank x = false → (c == x) = false := by
    intro x hx
    rw [beq_eq_false_iff_ne]
    rintro rfl
    rw [hx] at hblank
    cases hblank
  unfold pieceAt at h
  rw [hsymbol, hcomparison, hne (x := '|') rfl, hne (x := '&') rfl, hne (x := '/') rfl, hne (x := '"') rfl, hdigit,
    hletter, hne (x := '_') rfl] at h
  split at h <;> cases h <;> exact hfound rfl

/-! ### Words that have one token -/

theorem lexes_word (h : pieceAt c cs = .ok p) (hextra : p.extra = cs.length) (hfound : p.found = some (k, v))
    (hopen : c = '"' → '"' ∈ cs) : Lexes (c :: cs) [(k, String.ofList (c :: cs), v)] := by
  have hlex := lexes_of_pieceAt h hfound hopen
  rwa [hextra, take_length] at hlex

/-- The text of a kind is read as a token of the kind. -/
def Kind.respelled (k : Kind) : Bool :=
  match k.spelling.toList with
  | [] => false
  | c :: cs => c != '"' && (pieceAt c cs).toOption.any fun p => p.extra == cs.length && p.found == some (k, none)

theorem lexes_spelling (h : k.respelled = true) : Lexes k.spelling.toList [(k, k.spelling, none)] := by
  unfold Kind.respelled at h
  split at h
  · cases h
  case h_2 c cs hword =>
    cases hp : pieceAt c cs with
    | error e => simp [hp, Except.toOption] at h
    | ok p =>
      simp only [hp, Except.toOption, Option.any_some, Bool.and_eq_true, bne_iff_ne, beq_iff_eq] at h
      have hlex := lexes_word hp h.2.1 h.2.2 fun hc => absurd hc h.1
      rwa [← hword, String.ofList_toList] at hlex

theorem pieceAt_of_isDigit (h : c.isDigit = true) (cs : List Char) : pieceAt c cs = numberPiece c cs := by
  have hall : ∀ n < 58, 48 ≤ n → Char.ofNat n ∈ "0123456789".toList := by decide
  have hmem : c ∈ "0123456789".toList := by
    simp only [Char.isDigit, Bool.and_eq_true, decide_eq_true_eq] at h
    have hle : c.toNat < 58 := Nat.lt_succ_of_le h.2
    simpa using hall c.toNat hle h.1
  simp only [String.reduceToList, mem_cons, not_mem_nil, or_false] at hmem
  rcases hmem with rfl | rfl | rfl | rfl | rfl | rfl | rfl | rfl | rfl | rfl <;> rfl

theorem lexes_repr (n : Nat) : Lexes n.repr.toList [(.number, n.repr, some (.number n))] := by
  have hdigits : ∀ c ∈ Nat.toDigits 10 n, c.isDigit = true := fun c =>
    Nat.isDigit_of_mem_toDigits (by decide) le_rfl
  have hread := readInt?_repr n
  rw [Nat.repr_eq_ofList_toDigits] at hread ⊢
  rw [String.toList_ofList]
  cases hcs : Nat.toDigits 10 n with
  | nil => exact absurd hcs Nat.toDigits_ne_nil
  | cons c cs =>
    rw [hcs] at hdigits hread
    have hrun : cs.takeWhile isDigit = cs :=
      takeWhile_eq_self_iff.2 fun d hd => isDigit_of_ascii (hdigits d (by simp [hd]))
    have hdecimal : decimalPiece c cs = .ok ⟨cs.length, some (.number, some (.number n))⟩ := by
      simp only [decimalPiece, hrun, hread]
    have hnumber : numberPiece c cs = decimalPiece c cs := by
      cases cs with
      | nil => rfl
      | cons m ds =>
        have hm := hdigits m (by simp)
        rw [numberPiece, if_neg]
        simp only [Bool.and_eq_true, Bool.or_eq_true, beq_iff_eq]
        rintro ⟨-, rfl | rfl⟩ <;> cases hm
    have hpiece := (pieceAt_of_isDigit (hdigits c (by simp)) cs).trans (hnumber.trans hdecimal)
    exact lexes_word hpiece rfl rfl fun hc => absurd (hdigits c (by simp)) (by rw [hc]; decide)

/-- A text without quotes is read from between quotes. -/
theorem lexes_quoted {s : String} (h : '"' ∉ s.toList) :
    Lexes ("\"" ++ s ++ "\"").toList [(.string, "\"" ++ s ++ "\"", some (.text s))] := by
  have hpos : ∀ c ∈ s.toList, (c != '"') = true := by
    intro c hc
    rw [bne_iff_ne]
    rintro rfl
    exact h hc
  have hrun : (s.toList ++ ['"']).takeWhile (· != '"') = s.toList := by
    rw [takeWhile_append_of_pos hpos]
    simp
  have hpiece : pieceAt '"' (s.toList ++ ['"']) = .ok ⟨s.toList.length + 1, some (.string, some (.text s))⟩ := by
    rw [show pieceAt '"' (s.toList ++ ['"']) = .ok (stringPiece (s.toList ++ ['"'])) from rfl]
    simp only [stringPiece, hrun, length_append, length_singleton, Nat.lt_succ_self, if_true,
      String.ofList_toList]
  have hlex := lexes_word hpiece (by simp) rfl fun _ => by simp
  have htext : ("\"" ++ s ++ "\"").toList = '"' :: (s.toList ++ ['"']) := by
    simp
  rw [← htext, String.ofList_toList] at hlex
  exact hlex

/-! ### The tokens of a text -/

/-- A token that is read again from its lexeme in front of white space. -/
structure Whole (t : Token) : Prop where
  proper : Proper t.kind t.lexeme t.value
  lexes : Lexes t.lexeme.toList [t.content]
  solid : ∃ c cs, t.lexeme.toList = c :: cs ∧ Text.isBlank c = false

/-- The tokens of a text: whole ones and then the end token. A string that is not closed may be the last one before
the end. -/
inductive Stream : List Token → Prop
  | eof {e : Token} (he : e.content = (.eof, "", none)) : Stream [e]
  | unclosed {t e : Token} (hkind : t.kind = .string) (hproper : Proper t.kind t.lexeme t.value)
      (h : Spells t.lexeme.toList [t.content]) (he : e.content = (.eof, "", none)) : Stream [t, e]
  | cons {t : Token} {ts : List Token} (h : Whole t) (hts : Stream ts) : Stream (t :: ts)

/-- A string that is not closed takes all the text that is left. -/
theorem drop_of_open (h : pieceAt '"' cs = .ok p) (hopen : '"' ∉ cs) :
    cs.drop p.extra = [] ∧ ∃ v, p.found = some (.string, v) := by
  have hall : cs.takeWhile (· != '"') = cs :=
    takeWhile_eq_self_iff.2 fun c hc => by
      rw [bne_iff_ne]
      rintro rfl
      exact hopen hc
  have hp : p = stringPiece cs := by
    cases h
    rfl
  rw [hp]
  unfold stringPiece
  rw [hall, if_neg (Nat.lt_irrefl _)]
  exact ⟨drop_length, _, rfl⟩

theorem tokensFrom_stream (pos : Pos) (cs : List Char) : ∀ ts, tokensFrom pos cs = .ok ts → Stream ts := by
  induction pos, cs using tokensFrom.induct with
  | case1 pos =>
    intro ts h
    rw [tokensFrom, Except.ok.injEq] at h
    subst h
    exact .eof rfl
  | case2 pos c cs ih =>
    intro ts h
    obtain ⟨p, more, hp, hmore, rfl⟩ := tokensFrom_cons.1 h
    cases hfound : p.found with
    | none => simpa [Piece.tokens, hfound] using ih p more hmore
    | some kv =>
      obtain ⟨k, v⟩ := kv
      have hproper := proper_of_pieceAt hp hfound
      simp only [Piece.tokens, hfound]
      by_cases hopen : c = '"' → '"' ∈ cs
      · refine .cons ⟨hproper, ?_, c, cs.take p.extra, ?_, ?_⟩ (ih p more hmore)
        · simpa [content] using lexes_of_pieceAt hp hfound hopen
        · exact String.toList_ofList
        · exact isBlank_of_pieceAt hp (by rw [hfound]; simp)
      · -- nothing is left, so this is the last token
        obtain ⟨rfl, hquote⟩ := Classical.not_imp.1 hopen
        obtain ⟨hdrop, w, hstring⟩ := drop_of_open hp hquote
        rw [hdrop, tokensFrom, Except.ok.injEq] at hmore
        subst hmore
        obtain ⟨rfl, -⟩ : .string = k ∧ w = v := by simpa [hfound, eq_comm] using hstring
        refine .unclosed rfl hproper ?_ rfl
        simpa [content] using spells_of_pieceAt hp hfound

theorem Proper.ne_eof {w : String} (h : Proper k w v) : k ≠ .eof := by
  rintro rfl
  exact h

theorem tokens_stream {source : String} (h : tokens source = .ok ts) : Stream ts :=
  tokensFrom_stream _ _ ts h

theorem Stream.tail (h : Stream (t :: ts)) (ht : t.kind ≠ .eof) : Stream ts := by
  cases h with
  | eof he => exact absurd (congrArg Prod.fst he) ht
  | unclosed _ _ _ he => exact .eof he
  | cons _ hts => exact hts

theorem Stream.drop {p rest : List Token} (h : Stream (p ++ rest)) (hp : ∀ t ∈ p, t.kind ≠ .eof) : Stream rest := by
  induction p with
  | nil => exact h
  | cons t p ih => exact ih (h.tail (hp t (by simp))) fun t' ht' => hp t' (by simp [ht'])

theorem Stream.proper (h : Stream (t :: ts)) (ht : t.kind ≠ .eof) : Proper t.kind t.lexeme t.value := by
  cases h with
  | eof he => exact absurd (congrArg Prod.fst he) ht
  | unclosed _ hproper _ _ => exact hproper
  | cons h _ => exact h.proper

/-- The end token comes last and only there, and the lexemes of the others, joined by spaces, have these tokens. -/
theorem Stream.spells (h : Stream ts) : ∃ (body : List Token) (e : Token), ts = body ++ [e] ∧
    e.content = (.eof, "", none) ∧ (∀ t ∈ body, t.kind ≠ .eof) ∧
      Spells (" ".intercalate (body.map (·.lexeme))).toList (body.map content) := by
  induction h with
  | @eof e he => exact ⟨[], e, rfl, he, by simp, Lexes.nil.spells⟩
  | @unclosed t e hkind hproper h he =>
    refine ⟨[t], e, rfl, he, by simp [hkind], ?_⟩
    rwa [map_singleton]
  | @cons t ts h _ ih =>
    obtain ⟨body, e, rfl, he, hbody, hspells⟩ := ih
    refine ⟨t :: body, e, rfl, he, ?_, ?_⟩
    · intro t' ht'
      rcases mem_cons.1 ht' with rfl | ht'
      · exact h.proper.ne_eof
      · exact hbody t' ht'
    · cases body with
      | nil =>
        exact h.lexes.spells
      | cons t' body =>
        rw [map_cons, map_cons, String.intercalate_cons_cons, String.toList_append, String.toList_append,
          append_assoc]
        exact h.lexes.append_spells (.white rfl hspells) (.cons rfl)

/-- Lexing is stable: the lexemes of a text, joined by single spaces, are a text with the same tokens, whatever stood
between them. -/
theorem tokens_stable {source : String} {ts : List Token} (h : tokens source = .ok ts) :
    ∃ ts', tokens (" ".intercalate ((ts.filter (·.kind != .eof)).map (·.lexeme))) = .ok ts' ∧
      ts'.map (fun t => (t.kind, t.lexeme, t.value)) = ts.map fun t => (t.kind, t.lexeme, t.value) := by
  obtain ⟨body, e, rfl, he, hbody, hspells⟩ := (tokens_stream h).spells
  obtain ⟨ts₀, e', hts₀, he', hcontent⟩ := hspells .start
  have hkind : e.kind = .eof := congrArg Prod.fst he
  have hfilter : (body ++ [e]).filter (·.kind != .eof) = body := by
    rw [List.filter_append, List.filter_eq_self.2 fun t ht => bne_iff_ne.2 (hbody t ht),
      List.filter_cons_of_neg (by simp [hkind]), List.filter_nil, List.append_nil]
  refine ⟨ts₀ ++ [e'], by rw [hfilter]; exact hts₀, ?_⟩
  calc (ts₀ ++ [e']).map content = body.map content ++ [e.content] := by
        rw [List.map_append, hcontent, List.map_singleton, he', he]
    _ = (body ++ [e]).map content := by rw [List.map_append, List.map_singleton]

/-- Neighbours without space, a comment, characters that start no token, a hexadecimal number without digits, a digit
of another script, a string over two lines and one that is not closed. -/
def tangledText : String := "x|y||0X1f%0x.\u06637&&&!==-//c\n\"a\nb\"in t\"open"

/-- In `tangledText` are sixteen tokens, which are found again in their lexemes. -/
theorem tangledText_stable : ∃ ts, tokens tangledText = .ok ts ∧
    ts.map (·.kind) = [.identifier, .identifier, .orOr, .number, .number, .dot, .number, .andAnd, .amp, .bangEqual,
      .equal, .minus, .string, .identifier, .identifier, .string, .eof] ∧
    ∃ ts', tokens (" ".intercalate ((ts.filter (·.kind != .eof)).map (·.lexeme))) = .ok ts' ∧
      ts'.map (fun t => (t.kind, t.lexeme, t.value)) = ts.map fun t => (t.kind, t.lexeme, t.value) := by
  obtain ⟨ts, hts, hkinds⟩ : ∃ ts, tokens tangledText = .ok ts ∧ ts.map (·.kind) = [.identifier, .identifier, .orOr,
      .number, .number, .dot, .number, .andAnd, .amp, .bangEqual, .equal, .minus, .string, .identifier, .identifier,
      .string, .eof] := by
    rw [show tokens tangledText = _ from tokens_ofList _]
    decide +kernel
  exact ⟨ts, hts, hkinds, tokens_stable hts⟩

end Workbench.Token
