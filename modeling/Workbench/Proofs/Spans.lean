import Mathlib.Data.List.Induction
import Workbench.Proofs.Lexemes

/-!
# Where tokens stand

The text is cut into stretches, one after the other. A stretch is a token or a gap (`Gap`): white space, a comment, or a
character that starts no token. `Laid` collects this from some offset on, and each kind of stretch has a lemma that
puts it in front (`Laid.token`, `Laid.gap`).

Places are kept while the text is read, character by character. What they come to is said by counting: the line of an
offset is the number of newlines before it, its column the distance to the last of them (`Pos.start_after`). A token is
placed by its length before the place where it ends, which is the place where it starts as long as it has no newline.

The main statement is `tokens_located`.
-/

open List

namespace Workbench.Token

/-! ### Offsets -/

/-- A stretch of text: the offset of its first character, and the offset after its last one. -/
structure Span where
  start : Nat
  stop : Nat
  deriving DecidableEq, Repr

namespace Span

def of (sp : Span) (text : List Char) : List Char := (text.drop sp.start).take (sp.stop - sp.start)

/-- The offset lies in the span. -/
def Holds (sp : Span) (k : Nat) : Prop := sp.start ≤ k ∧ k < sp.stop

/-- One of the spans ends before the other one starts. -/
def Apart (sp sp' : Span) : Prop := sp.stop ≤ sp'.start ∨ sp'.stop ≤ sp.start

end Span

/-- Spans that follow one another between the offsets `lo` and `hi`; none of them is empty. -/
def InOrder (hi : Nat) : Nat → List Span → Prop
  | lo, [] => lo ≤ hi
  | lo, sp :: sps => lo ≤ sp.start ∧ sp.start < sp.stop ∧ InOrder hi sp.stop sps

variable {cs : List Char} {p : Piece} {c : Char} {sps : List Span}

theorem InOrder.mono {hi lo lo' : Nat} (h : InOrder hi lo sps) (hlo : lo' ≤ lo) : InOrder hi lo' sps := by
  cases sps with
  | nil => exact hlo.trans h
  | cons sp sps => exact ⟨hlo.trans h.1, h.2⟩

theorem InOrder.le_start {hi : Nat} : ∀ {lo : Nat}, InOrder hi lo sps → ∀ sp ∈ sps, lo ≤ sp.start := by
  induction sps with
  | nil => simp
  | cons sp sps ih =>
    intro lo h sp' hmem
    obtain ⟨hlo, hlt, hrest⟩ := h
    rcases mem_cons.1 hmem with rfl | hmem
    · exact hlo
    · have := ih hrest sp' hmem
      omega

def lineAt (text : List Char) (k : Nat) : Nat := 1 + (text.take k).count '\n'

/-- The column of an offset, counted from 1: one more than the number of characters between the offset and the newline
before it, or the start of the text. -/
def colAt (text : List Char) (k : Nat) : Nat := 1 + ((text.take k).reverse.takeWhile (· != '\n')).length

/-- Places count newlines, and characters since the last one. -/
theorem Pos.start_after (cs : List Char) :
    Pos.start.after cs = ⟨1 + cs.count '\n', 1 + (cs.reverse.takeWhile (· != '\n')).length⟩ := by
  induction cs using reverseRecOn with
  | nil => rfl
  | append_singleton cs c ih =>
    rw [Pos.after_append, ih, count_append, reverse_append, reverse_singleton, singleton_append]
    by_cases hc : c = '\n'
    · subst hc
      simp [Pos.after, Pos.step]
      omega
    · simp [Pos.after, Pos.step, hc]
      omega

theorem Pos.start_after_append (done rest : List Char) :
    Pos.start.after done = ⟨lineAt (done ++ rest) done.length, colAt (done ++ rest) done.length⟩ := by
  rw [Pos.start_after, lineAt, colAt, take_left]

theorem Pos.after_of_notMem {w : List Char} (h : '\n' ∉ w) (pos : Pos) : pos.after w = ⟨pos.line, pos.col + w.length⟩ := by
  induction w generalizing pos with
  | nil => rfl
  | cons c w ih =>
    rw [mem_cons, not_or] at h
    have hstep : pos.step c = ⟨pos.line, pos.col + 1⟩ := by simp [Pos.step, Ne.symm h.1]
    rw [Pos.after, foldl_cons, ← Pos.after, hstep, ih h.2, length_cons, Nat.add_assoc, Nat.add_comm 1]

/-! ### What stands between tokens -/

/-- The marks that tokens start with. -/
def marks : List Char :=
  ['(', ')', '{', '}', '[', ']', ',', '.', '-', '+', ';', '*', ':', '!', '=', '<', '>', '|', '&', '/', '"', '_']

/-- A character that can start a token. A bar does so only in front of another bar. -/
def startsToken (c : Char) : Bool := marks.contains c || Text.isDigit c || Text.isLetter c

/-- Text between tokens: white space, a comment up to the newline or the end of the text, a bar by itself, or a
character that starts no token. -/
inductive Gap (text : List Char) : Span → Prop
  | white {k : Nat} {c : Char} (hk : text[k]? = some c) (hc : isWhite c = true) : Gap text ⟨k, k + 1⟩
  | comment {a b : Nat} (hfirst : text[a]? = some '/') (hsecond : text[a + 1]? = some '/') (hlt : a + 1 < b)
      (hline : ∀ k, a ≤ k → k < b → text[k]? ≠ some '\n') (hend : b = text.length ∨ text[b]? = some '\n') :
      Gap text ⟨a, b⟩
  | bar {k : Nat} (hk : text[k]? = some '|') (hnext : text[k + 1]? ≠ some '|') : Gap text ⟨k, k + 1⟩
  | stray {k : Nat} {c : Char} (hk : text[k]? = some c) (hc : startsToken c = false) : Gap text ⟨k, k + 1⟩

theorem startsToken_eq_false (hsymbol : symbol? c = none) (hcomparison : comparison? c = none)
    (hc : c ∉ ['|', '&', '/', '"', '_']) (hdigit : Text.isDigit c = false) (hletter : Text.isLetter c = false) :
    startsToken c = false := by
  have hmarks : marks.all (fun x => (symbol? x).isSome || (comparison? x).isSome ||
      ['|', '&', '/', '"', '_'].contains x) = true := by decide
  have hmem : c ∉ marks := by
    intro hmem
    have hmark := all_eq_true.1 hmarks c hmem
    simp only [hsymbol, hcomparison, Option.isSome_none, Bool.false_or, contains_iff_mem] at hmark
    exact hc hmark
  rw [startsToken, hdigit, hletter, Bool.or_false, Bool.or_false, ← Bool.not_eq_true, contains_iff_mem]
  exact hmem

theorem gap_comment {line rest : List Char} (hslash : line.head? = some '/') (hline : '\n' ∉ line)
    (hrest : ∀ c ∈ rest.head?, c = '\n') (done : List Char) :
    Gap (done ++ '/' :: (line ++ rest)) ⟨done.length, done.length + (line.length + 1)⟩ := by
  have hnext : (line ++ rest).head? = some '/' := by rw [head?_append, hslash, Option.some_or]
  have hpos : 0 < line.length := by
    rw [length_pos_iff]
    rintro rfl
    cases hslash
  refine .comment (by simp) ?_ (by omega) (fun k hle hlt hk => ?_) ?_
  · rw [getElem?_append_right (by omega), Nat.add_sub_cancel_left, getElem?_cons_succ,
      ← head?_eq_getElem?, hnext]
  · rw [← cons_append, getElem?_append_right hle,
      getElem?_append_left (by rw [length_cons]; omega)] at hk
    rcases mem_cons.1 (mem_of_getElem? hk) with h | h
    · cases h
    · exact hline h
  · cases rest with
    | nil => exact .inl (by simp)
    | cons c rest =>
      right
      rw [getElem?_append_right (by omega), Nat.add_sub_cancel_left, getElem?_cons_succ,
        getElem?_append_right le_rfl, Nat.sub_self, getElem?_cons_zero, hrest c rfl]

theorem stringPiece_found (cs : List Char) : (stringPiece cs).found ≠ none := by
  unfold stringPiece
  dsimp only
  split <;> exact nofun

theorem pieceAt_gap (h : pieceAt c cs = .ok p) (hfound : p.found = none) (done : List Char) :
    Gap (done ++ c :: cs) ⟨done.length, done.length + (p.extra + 1)⟩ := by
  have hfirst : (done ++ c :: cs)[done.length]? = some c := by simp
  have hnext : (done ++ c :: cs)[done.length + 1]? = cs.head? := by
    rw [getElem?_append_right (by omega), Nat.add_sub_cancel_left, getElem?_cons_succ, head?_eq_getElem?]
  cases pieceAt_starts h with
  | white hc => exact .white hfirst hc
  | bar hc hx =>
    subst hc
    exact .bar hfirst (by rwa [hnext])
  | comment hc hx =>
    subst hc
    have hrest : ∀ c ∈ (cs.dropWhile (· != '\n')).head?, c = '\n' := by
      intro c hc
      have hstop := head?_dropWhile_not (· != '\n') cs
      rw [hc] at hstop
      simpa using hstop
    have hslash : (cs.takeWhile (· != '\n')).head? = some '/' := by
      rw [head?_takeWhile, hx]
      rfl
    have hgap := gap_comment hslash (not_mem_takeWhile rfl) hrest done
    rwa [takeWhile_append_dropWhile] at hgap
  | string => exact absurd hfound (stringPiece_found cs)
  | alone | joined | number | word => cases hfound
  | stray hsymbol hcomparison hc hdigit hletter =>
    exact .stray hfirst (startsToken_eq_false hsymbol hcomparison hc hdigit hletter)

/-! ### Tokens at their offsets -/

/-- The token has its text from the span. If it has no newline, its place is that of the offset where the span starts. -/
structure Located (text : List Char) (t : Token) (sp : Span) : Prop where
  lexeme : t.lexeme = String.ofList (sp.of text)
  line : '\n' ∉ t.lexeme.toList → t.line = lineAt text sp.start
  col : '\n' ∉ t.lexeme.toList → t.col = colAt text sp.start

/-- The tokens stand at the spans, which are all of the text from the offset `n` on but for gaps between them. -/
structure Laid (text : List Char) (n : Nat) (ts : List Token) (spans : List Span) : Prop where
  order : InOrder text.length n spans
  located : List.Forall₂ (Located text) ts spans
  gaps : ∀ k, n ≤ k → k < text.length → (∀ sp ∈ spans, ¬sp.Holds k) →
    ∃ gap, Gap text gap ∧ n ≤ gap.start ∧ gap.Holds k ∧ ∀ sp ∈ spans, sp.Apart gap

namespace Laid

variable {text : List Char} {n m : Nat} {ts : List Token} {spans : List Span}

theorem nil (text : List Char) : Laid text text.length [] [] :=
  ⟨le_rfl, .nil, fun _ hle hlt => absurd hlt (not_lt.2 hle)⟩

theorem token (h : Laid text m ts spans) (hlt : n < m) {t : Token} (ht : Located text t ⟨n, m⟩) :
    Laid text n (t :: ts) (⟨n, m⟩ :: spans) := by
  refine ⟨⟨Nat.le_refl n, hlt, h.order⟩, .cons ht h.located, fun k hle hk hout => ?_⟩
  rw [forall_mem_cons] at hout
  have hkm : m ≤ k := by
    by_contra hkm
    exact hout.1 ⟨hle, by dsimp only; omega⟩
  obtain ⟨gap, hgap, hstart, hholds, hapart⟩ := h.gaps k hkm hk hout.2
  refine ⟨gap, hgap, by omega, hholds, ?_⟩
  rw [forall_mem_cons]
  exact ⟨.inl hstart, hapart⟩

theorem gap (h : Laid text m ts spans) (hlt : n < m) (hgap : Gap text ⟨n, m⟩) : Laid text n ts spans := by
  refine ⟨h.order.mono hlt.le, h.located, fun k hle hk hout => ?_⟩
  rcases Nat.lt_or_ge k m with hkm | hkm
  · exact ⟨⟨n, m⟩, hgap, Nat.le_refl n, ⟨hle, hkm⟩, fun sp hsp => .inr (h.order.le_start sp hsp)⟩
  · obtain ⟨gap, hgap, hstart, hholds, hapart⟩ := h.gaps k hkm hk hout
    exact ⟨gap, hgap, by omega, hholds, hapart⟩

end Laid

theorem located_piece (done w rest : List Char) (k : Kind) (v : Option Value) :
    Located (done ++ (w ++ rest)) ⟨k, String.ofList w, (Pos.start.after (done ++ w)).line,
      ((Pos.start.after (done ++ w)).col : Int) - w.length, v⟩ ⟨done.length, done.length + w.length⟩ := by
  have hplace : '\n' ∉ w → Pos.start.after (done ++ w) = ⟨lineAt (done ++ (w ++ rest)) done.length,
      colAt (done ++ (w ++ rest)) done.length + w.length⟩ := by
    intro hw
    rw [Pos.after_append, Pos.after_of_notMem hw, Pos.start_after_append done (w ++ rest)]
  refine ⟨by rw [Span.of, drop_left, Nat.add_sub_cancel_left, take_left], fun hw => ?_, fun hw => ?_⟩
  · rw [String.toList_ofList] at hw
    rw [hplace hw]
  · rw [String.toList_ofList] at hw
    rw [hplace hw]
    dsimp only
    omega

/-- The tokens lie in the text one after the other, and the end token stands at its end. -/
theorem tokensFrom_laid (pos : Pos) (cs : List Char) : ∀ (done : List Char) (ts : List Token),
    pos = Pos.start.after done → tokensFrom pos cs = .ok ts →
    ∃ body e spans, ts = body ++ [e] ∧ Laid (done ++ cs) done.length body spans ∧
      e = ⟨.eof, "", lineAt (done ++ cs) (done ++ cs).length, colAt (done ++ cs) (done ++ cs).length, none⟩ := by
  induction pos, cs using tokensFrom.induct with
  | case1 pos =>
    intro done ts hpos h
    rw [tokensFrom, Except.ok.injEq] at h
    refine ⟨[], _, [], h.symm, ?_, ?_⟩
    · rw [append_nil]
      exact .nil done
    · rw [hpos, Pos.start_after_append done [], append_nil]
  | case2 pos c cs ih =>
    intro done ts hpos h
    obtain ⟨p, more, hp, hmore, rfl⟩ := tokensFrom_cons.1 h
    -- the piece is `w`, and reading goes on after it
    obtain ⟨w, hw⟩ : ∃ w, w = c :: cs.take p.extra := ⟨_, rfl⟩
    have htext : done ++ c :: cs = done ++ (w ++ cs.drop p.extra) := by
      rw [hw, cons_append, take_append_drop]
    have hlen : w.length = p.extra + 1 := by
      have := (pieceAt_starts hp).extra_le
      rw [hw, length_cons, length_take]
      omega
    obtain ⟨body, e, spans, rfl, hlaid, he⟩ := ih p (done ++ w) more (by rw [hpos, Pos.after_append, hw]) hmore
    rw [append_assoc, ← htext] at hlaid he
    rw [length_append] at hlaid
    have hlt : done.length < done.length + w.length := by omega
    cases hfound : p.found with
    | none =>
      refine ⟨body, e, spans, by simp [Piece.tokens, hfound], hlaid.gap hlt ?_, he⟩
      rw [hlen]
      exact pieceAt_gap hp hfound done
    | some kv =>
      obtain ⟨k, v⟩ := kv
      have hlocated := located_piece done w (cs.drop p.extra) k v
      rw [← htext] at hlocated
      refine ⟨_, e, _, ?_, hlaid.token hlt hlocated, he⟩
      rw [Piece.tokens, hfound, ← hw, hpos, ← Pos.after_append]
      rfl

/-- **Tokens stand where they say.** The tokens before the end token have their texts from spans of the source text that
follow one another, and every character outside of these belongs to a gap. The end token and every token without a
newline are placed at the line and the column where they start. -/
theorem tokens_located {source : String} {ts : List Token} (h : tokens source = .ok ts) :
    ∃ body e spans, ts = body ++ [e] ∧ (∀ t ∈ body, t.kind ≠ .eof) ∧ Laid source.toList 0 body spans ∧
      e.kind = .eof ∧ Located source.toList e ⟨source.toList.length, source.toList.length⟩ := by
  obtain ⟨body, e, spans, rfl, hlaid, rfl⟩ := tokensFrom_laid .start source.toList [] ts rfl h
  obtain ⟨body', e', heq, -, hkinds, -⟩ := (tokens_stream h).spells
  obtain ⟨rfl, -⟩ := List.append_inj' heq rfl
  refine ⟨body, _, spans, rfl, hkinds, hlaid, rfl, ?_, fun _ => rfl, fun _ => rfl⟩
  rw [Span.of, Nat.sub_self, List.take_zero, String.ofList_nil]

/-- A bar by itself, a comment with a quote in it, a string over two lines and a character that starts no token. -/
def scatteredText : String := "a|b//c\"\n \"x\ny\" $7"

/-- The tokens of `scatteredText` with their places. Only the string, which has a newline, is not placed where it
starts. -/
theorem scatteredText_located : ∃ ts, tokens scatteredText = .ok ts ∧
    ts.map (fun t => (t.lexeme, t.line, t.col)) =
      [("a", 1, 1), ("b", 1, 3), ("\"x\ny\"", 3, -2), ("7", 3, 5), ("", 3, 6)] ∧
    ∃ body e spans, ts = body ++ [e] ∧ (∀ t ∈ body, t.kind ≠ .eof) ∧ Laid scatteredText.toList 0 body spans ∧
      e.kind = .eof ∧ Located scatteredText.toList e ⟨scatteredText.toList.length, scatteredText.toList.length⟩ := by
  obtain ⟨ts, hts, hplaces⟩ : ∃ ts, tokens scatteredText = .ok ts ∧ ts.map (fun t => (t.lexeme, t.line, t.col)) =
      [("a", 1, 1), ("b", 1, 3), ("\"x\ny\"", 3, -2), ("7", 3, 5), ("", 3, 6)] := by
    rw [show tokens scatteredText = _ from tokens_ofList _]
    decide +kernel
  exact ⟨ts, hts, hplaces, tokens_located hts⟩

end Workbench.Token
