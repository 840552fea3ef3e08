import Workbench.Proofs.Printing

/-!
# Programs are read back from their text

Every part of a program that can be read is read back from its words. An expression may be wanted at any level of
binding: from its own level it is carried to the looser ones, parentheses make it an operand of every operator, and with
them it is carried to the tighter ones (`readsBack_of_open`). A block of machine instructions is read back line by line,
as its lines are the lexemes of whole tokens up to a semicolon.

The main statement is `parse_print`.
-/

open List

namespace Workbench

open Token

/-! ### Levels -/

theorem BinaryOp.level_lt (op : BinaryOp) : op.level < 6 := by
  cases op <;> simp [level]

theorem Expr.level_le {α : Type} (e : Expr α) : e.level ≤ 7 := by
  cases e with
  | binary _ op _ _ => exact Nat.le_of_lt (Nat.lt_succ_of_lt op.level_lt)
  | _ => simp [level]

/-- The kind of token that an operator with two operands is written as. -/
def BinaryOp.kind : BinaryOp → Kind
  | add => .plus
  | sub => .minus
  | mul => .star
  | div => .slash
  | eq => .equalEqual
  | ne => .bangEqual
  | lt => .less
  | le => .lessEqual
  | gt => .greater
  | ge => .greaterEqual
  | and => .andAnd
  | or => .orOr
  | other _ => .eof

variable {op : BinaryOp}

theorem BinaryOp.text_eq (hop : ∀ text, op ≠ .other text) :
    op.text = op.kind.spelling ∧ op.kind ∉ [.number, .string, .eof] := by
  cases op with
  | other text => exact absurd rfl (hop text)
  | _ => exact ⟨rfl, by decide⟩

/-- The level of an operator is the place of its tier, and its word is a token of the tier that stands for it. -/
theorem BinaryOp.tier_eq (hop : ∀ text, op ≠ .other text) : ∃ loosest,
    Program.Parse.tiers.drop op.level = loosest :: Program.Parse.tiers.drop (op.level + 1) ∧ op.kind ∈ loosest ∧
      Lexes op.text.toList [(op.kind, op.text, none)] ∧ ofText op.text = op := by
  obtain ⟨htext, hkind⟩ := text_eq hop
  have hlexes := lexes_fixed hkind
  cases op with
  | other text => exact absurd rfl (hop text)
  | _ => exact ⟨_, rfl, by decide, hlexes, rfl⟩

namespace Program.Parse

variable {ws : List String}

/-! ### Levels of reading -/

/-- An expression that is wanted at the level `n`. -/
abbrev ReadsAt (n : Nat) (ws : List String) (e : SourceExpr) : Prop :=
  Reads startsExpr (stops (tiers.drop n)) (rule (tier (tiers.drop n))) ws (pure e)

/-- An expression as the left operand of operators that may still come. -/
abbrev ReadsLeft (loosest : List Kind) (ops : List (List Kind)) (ws : List String) (e : SourceExpr) : Prop :=
  Reads startsExpr (stops ops) (rule (tier (loosest :: ops))) ws (rule (tierRest loosest ops e))

/-- An expression without operators, of which there may come a call or an index. -/
abbrev ReadsBase (ws : List String) (e : SourceExpr) : Prop :=
  Reads startsPrimary anyKind (rule primary >>= fun e => rule (postfixes e)) ws (rule (postfixes e))

variable {loosest : List Kind}

section Levels

variable {e : SourceExpr} {n m : Nat}

theorem ReadsBase.readsAt (h : ReadsBase ws e) : ReadsAt 6 ws e := by
  have hunary : Reads startsPrimary anyKind (rule unary) ws (rule (postfixes e)) := h.imp leads_unary_of_primary
  show Reads startsExpr (stops []) (rule (tier [])) ws (pure e)
  rw [rule_tier_nil]
  exact (hunary.finish (takes_postfixes_nil e) (.any _)).mono_left (by decide)

theorem ReadsAt.left (h : ReadsAt (n + 1) ws e) : ReadsLeft loosest (tiers.drop (n + 1)) ws e := by
  rw [ReadsLeft, rule_tier_cons]
  exact h.proceed

theorem ReadsLeft.readsAt {ops : List (List Kind)} (h : ReadsLeft loosest ops ws e)
    (hdrop : tiers.drop n = loosest :: ops) : ReadsAt n ws e := by
  rw [ReadsAt, hdrop]
  exact h.finish (takes_tierRest_nil loosest ops e) (within_stops loosest ops)

theorem ReadsAt.mono (h : ReadsAt m ws e) (hnm : n ≤ m) (hm : m ≤ 6) : ReadsAt n ws e := by
  induction m, hnm using Nat.le_induction with
  | base => exact h
  | succ m hnm ih =>
    have hlt : m < tiers.length := hm
    exact ih (h.left.readsAt (drop_eq_getElem_cons hlt)) (Nat.le_of_succ_le hm)

/-- Between parentheses, an expression is an operand of any operator. -/
theorem ReadsAt.group (h : ReadsAt 0 ws e) : ReadsBase (parenthesized ws) e := by
  have hprimary : Reads startsPrimary anyKind (rule primary) (parenthesized ws) (pure e) := by
    rw [rule_primary]
    refine .take_bind (G := startsExpr) (lexes_fixed (k := .leftParen) (by decide)) rfl fun t ht => ?_
    have hrest : primaryRest t = (do
        let e ← rule expression
        let _ ← token .rightParen .groupClose
        return e) := by
      rw [primaryRest, kind_of_content ht]
    rw [hrest]
    exact h.bind (.fixed_last (by decide) e) (by decide)
  exact hprimary.proceed

end Levels

/-- The expression is read back from its words, with parentheses around them where they are needed. -/
structure ReadsBack (e : SourceExpr) : Prop where
  operand : ∀ {n}, n ≤ 6 → ReadsAt n (enclose (e.level < n) e.words) e
  left : ∀ {n loosest}, tiers.drop n = loosest :: tiers.drop (n + 1) →
    ReadsLeft loosest (tiers.drop (n + 1)) (enclose (e.level < n) e.words) e
  base : ReadsBase (enclose (e.level < 7) e.words) e

section ReadsBack

variable {e : SourceExpr}

/-- An expression that can be read at its own level and the looser ones can be read at every level. -/
theorem readsBack_of_open (hopen : ∀ {n}, n ≤ 6 → n ≤ e.level → ReadsAt n e.words e)
    (hleft : ∀ {loosest}, tiers.drop e.level = loosest :: tiers.drop (e.level + 1) →
      ReadsLeft loosest (tiers.drop (e.level + 1)) e.words e)
    (hbase : e.level = 7 → ReadsBase e.words e) : ReadsBack e := by
  -- between parentheses the expression is wanted at the loosest level, where it is always open
  have hgroup : ReadsBase (parenthesized e.words) e := (hopen (Nat.zero_le 6) (Nat.zero_le _)).group
  have hoperand : ∀ {n}, n ≤ 6 → ReadsAt n (enclose (e.level < n) e.words) e := by
    intro n hn
    by_cases hlt : e.level < n
    · rw [enclose, if_pos (by simpa using hlt)]
      exact hgroup.readsAt.mono hn le_rfl
    · rw [enclose, if_neg (by simpa using hlt)]
      exact hopen hn (Nat.le_of_not_lt hlt)
  refine ⟨hoperand, fun {n loosest} hdrop => ?_, ?_⟩
  · by_cases hn : n = e.level
    · subst hn
      rw [enclose, if_neg (by simp)]
      exact hleft hdrop
    · -- it has no operator of the tier `n`, so it is a whole operand one level tighter
      have hlt : n < tiers.length := by
        rw [← not_le, ← drop_eq_nil_iff, hdrop]
        simp
      have hsame : decide (e.level < n) = decide (e.level < n + 1) := by
        rw [decide_eq_decide]
        omega
      rw [hsame]
      exact (hoperand hlt).left
  · by_cases hlt : e.level < 7
    · rw [enclose, if_pos (by simpa using hlt)]
      exact hgroup
    · rw [enclose, if_neg (by simpa using hlt)]
      exact hbase (Nat.le_antisymm e.level_le (Nat.le_of_not_lt hlt))

theorem readsBack_of_base (hlevel : e.level = 7) (h : ReadsBase e.words e) : ReadsBack e := by
  refine readsBack_of_open (fun hn _ => h.readsAt.mono hn le_rfl) (fun hdrop => ?_) fun _ => h
  rw [hlevel] at hdrop
  cases hdrop

theorem readsBack_of_unary (hlevel : e.level = 6) (h : ReadsAt 6 e.words e) : ReadsBack e := by
  refine readsBack_of_open (fun hn _ => h.mono hn le_rfl) (fun hdrop => ?_) fun hbase => ?_
  · rw [hlevel] at hdrop
    cases hdrop
  · rw [hlevel] at hbase
    cases hbase

theorem readsBack_of_left (hdrop : tiers.drop e.level = loosest :: tiers.drop (e.level + 1))
    (h : ReadsLeft loosest (tiers.drop (e.level + 1)) e.words e) : ReadsBack e := by
  have hlt : e.level < tiers.length := by
    rw [← not_le, ← drop_eq_nil_iff, hdrop]
    simp
  refine readsBack_of_open (fun _ hn => (h.readsAt hdrop).mono hn hlt.le) (fun hdrop' => ?_) fun hbase => ?_
  · rw [hdrop, cons.injEq] at hdrop'
    rw [← hdrop'.1]
    exact h
  · rw [hbase] at hlt
    exact absurd hlt (by decide)

theorem ReadsBack.unary (h : ReadsBack e) :
    Reads startsExpr (stops []) (rule unary) (enclose (e.level < 6) e.words) (pure e) := by
  rw [← rule_tier_nil]
  exact h.operand le_rfl

theorem ReadsBack.expression (h : ReadsBack e) : Reads startsExpr (stops tiers) (rule expression) e.words (pure e) :=
  h.operand (Nat.zero_le 6)

end ReadsBack

/-! ### Expressions -/

variable {lines : List String} {us : List Token} {x : Kind × String × Option Value} {init? : Option SourceExpr}
  {type? : Option String} {name : String}

theorem reads_primary {w : String} {e : SourceExpr} (hw : Lexes w.toList [x]) (hkind : startsPrimary x.1 = true)
    (hrest : ∀ t : Token, t.content = x → primaryRest t = pure e) :
    Reads startsPrimary anyKind (rule primary) [w] (pure e) := by
  rw [rule_primary]
  refine .take_bind (G := anyKind) hw hkind fun t ht => .nil ?_
  rw [hrest t ht]
  exact .pure e

theorem reads_name {x : String} (h : IsName x) : Reads startsPrimary anyKind (rule primary) [x] (pure (.var () x)) := by
  refine reads_primary h rfl fun t ht => ?_
  rw [primaryRest, kind_of_content ht, lexeme_of_content ht]

theorem reads_arguments {e : SourceExpr} {es : List SourceExpr} (he : ReadsBack e) (hes : ∀ a ∈ es, ReadsBack a) :
    Reads startsExpr (fun k => stops tiers k && k != .comma) (rule arguments)
      (commaSeparated (Expr.wordsEach (e :: es))) (pure (e :: es)) := by
  induction es generalizing e with
  | nil =>
    rw [rule_arguments]
    exact he.expression.proceed.finish ((Leads.pure [e]).branch_false (by decide)) (by decide)
  | cons e' es ih =>
    obtain ⟨he', hes⟩ := forall_mem_cons.1 hes
    rw [rule_arguments]
    refine he.expression.bind (G := (· == .comma)) ?_ (by decide)
    exact .choose_fixed (g := .comma) (by decide) rfl fun _ _ => (ih he' hes).proceed

theorem reads_unary {op : UnaryOp} {e : SourceExpr} (hop : op = .neg ∨ op = .not) (he : ReadsBack e) :
    ReadsAt 6 (op.text :: enclose (e.level < 6) e.words) (.unary () op e) := by
  obtain ⟨kind, hkind, hlexes, hofText⟩ : ∃ kind : Kind, (kind == .bang || kind == .minus) = true ∧
      Lexes op.text.toList [(kind, op.text, none)] ∧ .ofText op.text = op := by
    rcases hop with rfl | rfl
    · exact ⟨.minus, rfl, lexes_fixed (k := .minus) (by decide), rfl⟩
    · exact ⟨.bang, rfl, lexes_fixed (k := .bang) (by decide), rfl⟩
  show Reads startsExpr (stops []) (rule (tier [])) _ _
  rw [rule_tier_nil, rule_unary]
  refine .mono_left (.branch_false (F := fun k => k == .bang || k == .minus) ?_ (by decide)) (by decide)
  refine .choose_true (G := startsExpr) hlexes hkind fun t ht => ?_
  rw [lexeme_of_content ht, hofText]
  exact he.unary.proceed

theorem reads_addr {e : SourceExpr} (he : ReadsBack e) :
    ReadsAt 6 ("&" :: enclose (e.level < 6) e.words) (.addr () e) := by
  show Reads startsExpr (stops []) (rule (tier [])) _ _
  rw [rule_tier_nil, rule_unary]
  refine .mono_left (F := (· == .amp)) ?_ (by decide)
  exact .choose_fixed (g := .amp) (by decide) rfl fun _ _ => he.unary.proceed

/-- The left operand may have operators of the same tier, and the right one may not. -/
theorem reads_binary {l r : SourceExpr} (hop : ∀ text, op ≠ .other text) (hl : ReadsBack l)
    (hr : ReadsBack r) : ReadsBack (.binary () op l r) := by
  obtain ⟨loosest, hdrop, hkind, hlexes, hofText⟩ := BinaryOp.tier_eq hop
  have hsuffix : loosest :: tiers.drop (op.level + 1) <:+ tiers := hdrop ▸ drop_suffix _ _
  -- after the left operand the tier goes on with the operator, and after the right one with what comes next
  refine readsBack_of_left hdrop ((hl.left hdrop).trans ?_ (within_goesOn hsuffix))
  rw [rule_tierRest]
  refine .mono_left (.choose_true (G := startsExpr) hlexes (contains_iff_mem.2 hkind) fun t ht => ?_)
    fun k hk => ?_
  · rw [lexeme_of_content ht, hofText]
    exact (hr.operand op.level_lt).proceed
  · rw [goesOn, hk, Bool.true_or]

theorem reads_index {a i : SourceExpr} (ha : ReadsBack a) (hi : ReadsBack i) : ReadsBack (.index () a i) := by
  refine readsBack_of_base rfl ?_
  rw [Expr.words, append_assoc]
  refine ha.base.trans (G := opens a) ?_ (.any _)
  rw [rule_postfixes]
  refine .choose_fixed (G := startsExpr) (g := .leftBracket) (by decide) rfl fun t ht => ?_
  rw [if_pos (by rw [ht]; rfl)]
  exact hi.expression.bind (.fixed_bind (by decide) fun _ => .nil (.refl _ _)) (by decide)

theorem reads_call {f : String} {args : List SourceExpr} (hf : IsName f) (hargs : ∀ e ∈ args, ReadsBack e) :
    ReadsBack (.call () f args) := by
  have hclose : ∀ {args : List SourceExpr}, Reads (· == .rightParen) anyKind (do
      let _ ← token .rightParen .argsClose
      rule (postfixes (.call () f args))) [")"] (rule (postfixes (.call () f args))) :=
    .fixed_bind (by decide) fun _ => .nil (.refl _ _)
  refine readsBack_of_base rfl ((reads_name hf).bind (G := opens (.var () f)) ?_ (.any _))
  rw [rule_postfixes]
  refine .choose_fixed (G := anyKind) (g := .leftParen) (by decide) rfl fun t ht => ?_
  rw [if_neg (by rw [ht]; decide)]
  cases args with
  | nil => exact (hclose.branch_true (.refl _)).mono_left (.any _)
  | cons e es =>
    obtain ⟨he, hes⟩ := forall_mem_cons.1 hargs
    exact (((reads_arguments he hes).bind hclose (by decide)).branch_false (by decide)).mono_left (.any _)

/-- Every expression that can be read is read back from its words. -/
theorem readsBack {e : SourceExpr} (h : e.Written) : ReadsBack e := by
  induction h with
  | int n =>
    refine readsBack_of_base rfl (reads_primary (lexes_repr n) rfl fun t ht => ?_).proceed
    rw [primaryRest, kind_of_content ht, literalOf, value_of_content ht]
  | bool b =>
    cases b with
    | false =>
      have hword := lexes_fixed (k := .kwFalse) (by decide)
      refine readsBack_of_base rfl (reads_primary hword rfl fun t ht => ?_).proceed
      rw [primaryRest, kind_of_content ht]
    | true =>
      have hword := lexes_fixed (k := .kwTrue) (by decide)
      refine readsBack_of_base rfl (reads_primary hword rfl fun t ht => ?_).proceed
      rw [primaryRest, kind_of_content ht]
  | @str s hs =>
    refine readsBack_of_base rfl (reads_primary (lexes_quoted hs) rfl fun t ht => ?_).proceed
    rw [primaryRest, kind_of_content ht, literalOf, value_of_content ht]
  | var hx => exact readsBack_of_base rfl (reads_name hx).proceed
  | unary hop _ ih => exact readsBack_of_unary rfl (reads_unary hop ih)
  | binary hop _ _ ihl ihr => exact reads_binary hop ihl ihr
  | call hf _ ih => exact reads_call hf ih
  | index _ _ iha ihi => exact reads_index iha ihi
  | addr _ ih => exact readsBack_of_unary rfl (reads_addr ih)

theorem reads_expression {e : SourceExpr} (h : e.Written) :
    Reads startsExpr (stops tiers) (rule expression) e.words (pure e) :=
  (readsBack h).expression

/-! ### Types -/

theorem bracketed_of_isName {x : String} (h : IsName x) : Ty.bracketed? x = none := by
  unfold Ty.bracketed?
  split
  case h_2 => rfl
  case h_1 cs hx =>
    -- the name would start with the word `int`
    obtain ⟨ts, e, hts, -, hcontent⟩ := Lexes.spells h .start
    rw [hx] at hts
    obtain ⟨p, more, hp, -, hsplit⟩ := tokensFrom_cons.1 hts
    have hint : pieceAt 'i' ('n' :: 't' :: '[' :: cs) = .ok (.plain 2 .kwInt) := rfl
    cases hp
    obtain ⟨t, rfl, ht⟩ := map_eq_singleton_iff.1 hcontent
    cases hsplit
    cases ht

theorem typeWords_sized (n : Nat) : typeWords ("int[" ++ n.repr ++ "]") = ["int", "[", n.repr, "]"] := by
  have hchars : ("int[" ++ n.repr ++ "]").toList = 'i' :: 'n' :: 't' :: '[' :: (n.repr.toList ++ [']']) := by simp
  have hsize : Ty.bracketed? ("int[" ++ n.repr ++ "]") = some n.repr := by
    rw [Ty.bracketed?, hchars]
    show (if (n.repr.toList ++ [']']).getLast? == some ']' then _ else none) = some n.repr
    rw [if_pos (by simp), dropLast_concat, String.ofList_toList]
  rw [typeWords, hsize]

theorem reads_baseName (hw : Lexes name.toList [x]) (hkind : startsType x.1 = true)
    (hbase : ∀ t : Token, t.content = x → baseName t = name) :
    Reads startsType stopsType (rule typeName) [name] (pure name) := by
  rw [rule_typeName]
  refine .take_bind (G := anyKind) hw hkind fun t ht => .nil ?_
  rw [hbase t ht, typeRest]
  split
  · exact (Leads.pure _).mono_left (.any _)
  · exact ((Leads.pure _).branch_false (by decide)).mono_left (.any _)

theorem reads_typeWord {k : Kind} (hk : k ∈ [.kwInt, .kwStr, .kwVoid, .kwPtr]) :
    Reads startsType stopsType (rule typeName) [k.spelling] (pure k.spelling) := by
  have hbase : ∀ t : Token, t.content = (k, k.spelling, none) → baseName t = k.spelling := by
    intro t ht
    rw [baseName, kind_of_content ht, lexeme_of_content ht]
    split <;> rfl
  have hkinds : ∀ k ∈ [.kwInt, .kwStr, .kwVoid, .kwPtr], k ∉ [.number, .string, .eof] ∧ startsType k = true := by
    decide
  exact reads_baseName (lexes_fixed (hkinds k hk).1) (hkinds k hk).2 hbase

theorem reads_typeName (h : IsType name) : Reads startsType stopsType (rule typeName) (typeWords name) (pure name) := by
  cases h with
  | word h =>
    simp only [mem_cons, not_mem_nil, or_false] at h
    rcases h with rfl | rfl | rfl | rfl
    · exact reads_typeWord (k := .kwInt) (by decide)
    · exact reads_typeWord (k := .kwStr) (by decide)
    · exact reads_typeWord (k := .kwVoid) (by decide)
    · exact reads_typeWord (k := .kwPtr) (by decide)
  | name h =>
    rw [typeWords, bracketed_of_isName h]
    refine reads_baseName h rfl fun t ht => ?_
    rw [baseName, kind_of_content ht, lexeme_of_content ht]
  | sized n =>
    rw [typeWords_sized, rule_typeName]
    refine .take_bind (G := anyKind) (lexes_fixed (k := .kwInt) (by decide)) rfl fun t ht => ?_
    have hbase : baseName t = "int" := by rw [baseName, kind_of_content ht]
    rw [hbase, typeRest]
    refine .mono_left (F := (· == .leftBracket)) ?_ (.any _)
    refine .choose_fixed (G := (· == .number)) (g := .leftBracket) (by decide) rfl fun _ _ => ?_
    refine .token_bind (G := (· == .rightBracket)) (lexes_repr n) fun size hsize => ?_
    refine .fixed_bind (G := anyKind) (by decide) fun _ => .nil ?_
    have hname : sizedName size = pure ("int[" ++ n.repr ++ "]") := by
      funext ts
      rw [sizedName, arraySize, value_of_content hsize]
      rfl
    rw [hname]
    exact (Leads.pure _).mono_left (.any _)

/-! ### Machine instructions -/

theorem joined_ends (ws : List String) : ∃ cs, (" ".intercalate (ws ++ [";"])).toList = cs ++ [';'] := by
  induction ws with
  | nil => exact ⟨[], by rw [nil_append]; rfl⟩
  | cons w ws ih =>
    obtain ⟨cs, hcs⟩ := ih
    obtain ⟨w', ws', hws'⟩ := exists_cons_of_ne_nil (l := ws ++ [";"]) (by simp)
    rw [hws'] at hcs
    refine ⟨w.toList ++ " ".toList ++ cs, ?_⟩
    rw [cons_append, hws', String.intercalate_cons_cons, String.toList_append, String.toList_append, hcs]
    simp only [append_assoc]

theorem joined_starts (w : String) (ws : List String) :
    ∃ cs, (" ".intercalate (w :: ws)).toList = w.toList ++ cs := by
  cases ws with
  | nil => exact ⟨[], by rw [String.intercalate_singleton, append_nil]⟩
  | cons w' ws =>
    rw [String.intercalate_cons_cons, String.toList_append, String.toList_append, append_assoc]
    exact ⟨_, rfl⟩

theorem instructionLine_eq (hus : ∀ u ∈ us, u.Whole) :
    instructionLine (us.map (·.lexeme) ++ [";"]) = " ".intercalate (us.map (·.lexeme) ++ [";"]) := by
  have hhead : ∀ c ∈ (" ".intercalate (us.map (·.lexeme) ++ [";"])).toList.head?, Text.isBlank c = false := by
    intro c hc
    cases us with
    | nil =>
      cases hc
      decide
    | cons u us =>
      obtain ⟨b, bs, hb, hblank⟩ := (hus u (by simp)).solid
      obtain ⟨cs, hcs⟩ := joined_starts u.lexeme (us.map (·.lexeme) ++ [";"])
      rw [map_cons, cons_append, hcs, hb] at hc
      cases hc
      exact hblank
  have hlast : ∀ c ∈ (" ".intercalate (us.map (·.lexeme) ++ [";"])).toList.getLast?, Text.isBlank c = false := by
    intro c hc
    obtain ⟨cs, hcs⟩ := joined_ends (us.map (·.lexeme))
    rw [hcs, getLast?_concat] at hc
    cases hc
    decide
  rw [instructionLine, Text.trim, Text.trimBy_eq_self hhead hlast, String.ofList_toList]

theorem instructionLine_ne_empty (hus : ∀ u ∈ us, u.Whole) : instructionLine (us.map (·.lexeme) ++ [";"]) ≠ "" := by
  obtain ⟨cs, hcs⟩ := joined_ends (us.map (·.lexeme))
  rw [instructionLine_eq hus]
  intro hempty
  rw [hempty] at hcs
  simp at hcs

/-- The tokens of a line of machine instructions, the last one of which is the semicolon. -/
theorem lexes_line (hus : ∀ u ∈ us, u.Whole) : Lexes (instructionLine (us.map (·.lexeme) ++ [";"])).toList
      (us.map content ++ [(Kind.semicolon, ";", none)]) := by
  have hlexemes : Spelled (us.map (·.lexeme)) us := by
    induction us with
    | nil => exact .nil
    | cons u us ih =>
      obtain ⟨hu, hus⟩ := forall_mem_cons.1 hus
      exact .cons (c := [u]) hu.lexes (ih hus)
  obtain ⟨t, ht, hcons⟩ := Spelled.exists_cons (lexes_fixed (k := .semicolon) (by decide))
  have hlexes := (spaced_intercalate ' ' rfl _).lexes (hlexemes.append (hcons .nil))
  rw [map_append, map_singleton, ht] at hlexes
  rw [instructionLine_eq hus]
  exact hlexes

theorem instructionLines_line {us ts : List Token} {t : Token}
    (hus : ∀ u ∈ us, u.kind ∉ [.rightBrace, .eof, .semicolon]) (ht : t.kind = .semicolon) (line : List String) :
    rule (instructionLines line) (us ++ t :: ts) = (do
      let lines ← rule (instructionLines [])
      return addLine (instructionLine (line ++ (us.map (fun u : Token => u.lexeme) ++ [t.lexeme]))) lines) ts := by
  induction us generalizing line with
  | nil => exact instructionLines_semicolon ht line ts
  | cons u us ih =>
    obtain ⟨hu, hus⟩ := forall_mem_cons.1 hus
    rw [cons_append, instructionLines_other hu, ih hus, append_assoc, singleton_append, map_cons,
      cons_append]

theorem spelled_lines (hlines : ∀ l ∈ lines, IsLine l) : ∃ c, Spelled lines c := by
  induction lines with
  | nil => exact ⟨[], .nil⟩
  | cons line lines ih =>
    obtain ⟨⟨us, hus, rfl⟩, hmore⟩ := forall_mem_cons.1 hlines
    obtain ⟨c, hc⟩ := ih hmore
    have hlexes := lexes_line fun u hu => (hus u hu).1
    exact ⟨us ++ [⟨.semicolon, ";", 0, 0, none⟩] ++ c, .cons (by rw [map_append]; exact hlexes) hc⟩

/-- The lines are those that the tokens were taken from, as every other text with these tokens has the same lexemes. -/
theorem instructionLines_spelled (hlines : ∀ l ∈ lines, IsLine l) {c : List Token} (hc : Spelled lines c)
    {brace : Token} (hbrace : brace.kind = .rightBrace) (rest : List Token) :
    rule (instructionLines []) (c ++ brace :: rest) = .ok (lines, rest) := by
  induction hc with
  | nil => exact instructionLines_brace hbrace [] rest
  | @cons line lines c cs hline _ ih =>
    obtain ⟨⟨us, hus, rfl⟩, hmore⟩ := forall_mem_cons.1 hlines
    have hwhole : ∀ u ∈ us, u.Whole := fun u hu => (hus u hu).1
    have hne := instructionLine_ne_empty hwhole
    -- the tokens at hand are those of the line but for their
    obtain ⟨us', d, rfl, hcontent, hd⟩ := map_eq_append_iff.1 (hline.unique (lexes_line hwhole))
    obtain ⟨t, rfl, ht⟩ := map_eq_singleton_iff.1 hd
    have hkinds : ∀ u ∈ us', u.kind ∉ [.rightBrace, .eof, .semicolon] := by
      intro u hu
      have hmem : u.content ∈ us'.map content := mem_map_of_mem hu
      rw [hcontent] at hmem
      obtain ⟨v, hv, huv⟩ := mem_map.1 hmem
      rw [← show v.kind = u.kind from congrArg Prod.fst huv]
      simp [(hus v hv).2, (hus v hv).1.proper.ne_eof]
    have hlexemes : us'.map (·.lexeme) = us.map (·.lexeme) := by
      have hmap := congrArg (map (·.2.1)) hcontent
      rwa [map_map, map_map] at hmap
    rw [append_assoc, append_assoc, singleton_append,
      instructionLines_line hkinds (kind_of_content ht), bind_ok (ih hmore), nil_append, hlexemes,
      lexeme_of_content ht]
    rw [addLine, if_neg (by simpa using hne)]
    rfl

theorem reads_lines (hlines : ∀ l ∈ lines, IsLine l) :
    Reads anyKind anyKind (rule (instructionLines [])) ["\n".intercalate lines, "\x7d"] (pure lines) := by
  obtain ⟨c, hc⟩ := spelled_lines hlines
  have hlexes := (spaced_intercalate '\n' rfl lines).lexes hc
  have hbrace := lexes_fixed (k := .rightBrace) (by decide)
  constructor
  · obtain ⟨brace, -, hcons⟩ := Spelled.exists_cons hbrace
    exact ⟨c ++ [brace], .cons hlexes (hcons .nil)⟩
  · -- any tokens of the text are tokens of its lines, as the lines have no others
    intro d hd rest _
    cases hd with
    | @cons _ _ a b ha hb =>
      obtain ⟨brace, _, rfl, hcontent, hnil⟩ := hb.uncons hbrace
      cases hnil
      have hkind : brace.kind = .rightBrace := kind_of_content hcontent
      rw [append_assoc]
      refine ⟨?_, instructionLines_spelled hlines (hc.congr (ha.unique hlexes)) hkind rest⟩
      cases a <;> exact .cons rfl _

/-! ### Statements -/

theorem reads_writtenType (h : ∀ t ∈ type?, IsType t) :
    Reads startsWritten stopsWritten (rule writtenType) (writtenTypeWords type?) (pure type?) := by
  rw [rule_writtenType]
  cases type? with
  | none => exact .nil (((Leads.pure none).branch_false (by decide)).mono_left (by decide))
  | some name =>
    refine .mono_left (F := (· == .colon)) ?_ (by decide)
    refine .choose_fixed (G := startsType) (g := .colon) (by decide) rfl fun _ _ => ?_
    exact (reads_typeName (h name rfl)).proceed.finish (.pure _) (by decide)

theorem reads_initialValue (h : ∀ e ∈ init?, e.Written) :
    Reads (fun k => k == .equal || k == .semicolon) (· == .semicolon) (rule initialValue) (initialValueWords init?)
      (pure init?) := by
  rw [rule_initialValue]
  cases init? with
  | none => exact .nil (((Leads.pure none).branch_false (by decide)).mono_left (by decide))
  | some e =>
    refine .mono_left (F := (· == .equal)) ?_ (by decide)
    refine .choose_fixed (G := startsExpr) (g := .equal) (by decide) rfl fun _ _ => ?_
    exact (reads_expression (h e rfl)).proceed.finish (.pure _) (by decide)

theorem reads_test {e : SourceExpr} (h : e.Written) (want : Expected) :
    Reads (· == .leftParen) anyKind (rule (test want)) (parenthesized e.words) (pure e) := by
  rw [rule_test]
  refine .fixed_bind (G := startsExpr) (by decide) fun _ => ?_
  refine (reads_expression h).bind (G := (· == .rightParen)) ?_ (by decide)
  exact .fixed_last (by decide) _

theorem reads_declaration {x : String} (hx : IsName x) (htype : ∀ t ∈ type?, IsType t)
    (hinit : ∀ e ∈ init?, e.Written) :
    Reads (· == .identifier) anyKind (rule declaration)
      (x :: (writtenTypeWords type? ++ (initialValueWords init? ++ [";"]))) (pure (.decl x type? init?)) := by
  rw [rule_declaration]
  refine .token_bind (G := startsWritten) hx fun name hname => ?_
  rw [lexeme_of_content hname]
  refine (reads_writtenType htype).bind (G := fun k => k == .equal || k == .semicolon) ?_ (by decide)
  refine (reads_initialValue hinit).bind ?_ (.refl _)
  exact .fixed_last (by decide) _

theorem reads_printStatement {newline : Bool} {e : SourceExpr} (h : e.Written) :
    Reads (· == .leftParen) anyKind (rule (printStatement newline)) (parenthesized e.words ++ [";"])
      (pure (.print newline e)) := by
  rw [rule_printStatement, parenthesized, append_assoc]
  refine .fixed_bind (G := startsExpr) (by decide) fun _ => ?_
  refine (reads_expression h).bind (G := (· == .rightParen)) ?_ (by decide)
  refine .fixed_bind (G := (· == .semicolon)) (by decide) fun _ => ?_
  exact .fixed_last (by decide) _

theorem reads_asmStatement {text : String} (h : '"' ∉ text.toList) :
    Reads (· == .string) anyKind (rule asmStatement) [(Literal.str text).word, ";"] (pure (.asm text)) := by
  rw [rule_asmStatement]
  refine .token_bind (G := (· == .semicolon)) (lexes_quoted h) fun t ht => ?_
  rw [textOf, value_of_content ht]
  exact .fixed_last (by decide) _

theorem reads_returnStatement {value? : Option SourceExpr} (h : ∀ e ∈ value?, e.Written) :
    Reads anyKind anyKind (rule returnStatement) ((value?.elim [] Expr.words) ++ [";"]) (pure (.ret value?)) := by
  have hend : ∀ value? : Option SourceExpr, Reads (· == .semicolon) anyKind (do
      let _ ← token .semicolon .returnEnd
      return Stmt.ret value?) [";"] (pure (Stmt.ret value?)) := fun _ => .fixed_last (by decide) _
  rw [rule_returnStatement]
  cases value? with
  | none => exact ((hend none).branch_true (.refl _)).mono_left (Within.any _)
  | some e =>
    refine .mono_left (.branch_false (F := startsExpr) ?_ (by decide)) (Within.any _)
    exact (reads_expression (h e rfl)).bind (hend (some e)) (by decide)

theorem reads_expr {e : SourceExpr} (h : e.Written) :
    Reads startsExpr anyKind (rule expressionStatement) (e.words ++ [";"]) (pure (.expr e)) := by
  rw [rule_expressionStatement]
  refine (reads_expression h).bind (G := (· == .semicolon)) ?_ (by decide)
  exact (Reads.fixed_last (by decide) _).branch_false (by decide)

theorem reads_assign {e v : SourceExpr} (he : e.Written) (hv : v.Written) :
    Reads startsExpr anyKind (rule expressionStatement) (e.words ++ "=" :: (v.words ++ [";"]))
      (pure (.assign e v)) := by
  rw [rule_expressionStatement]
  refine (reads_expression he).bind (G := (· == .equal)) ?_ (by decide)
  refine .choose_fixed (G := startsExpr) (g := .equal) (by decide) rfl fun _ _ => ?_
  refine (reads_expression hv).bind (G := (· == .semicolon)) ?_ (by decide)
  exact .fixed_last (by decide) _

/-- A statement is read back from its words wherever it stands in a block. -/
def StmtReadsBack (s : SourceStmt) : Prop :=
  ∀ {ws ss}, Reads startsInner anyKind (rule blockRest) ws (pure ss) →
    Reads startsInner anyKind (rule blockRest) (s.words ++ ws) (pure (s :: ss))

section Stmt

variable {s : SourceStmt}

theorem stmtReadsBack_of_statement (h : Reads startsPlain (fun k => k != .kwElse) (rule statement) s.words (pure s)) :
    StmtReadsBack s := by
  intro ws ss hrest
  have hmore : Reads startsPlain anyKind (do
      let s ← rule statement
      return s :: (← rule blockRest)) (s.words ++ ws) (pure (s :: ss)) := by
    refine h.bind (G := startsInner) ?_ (by decide)
    exact hrest.proceed
  rw [rule_blockRest]
  exact ((hmore.branch_false (by decide)).branch_false (by decide)).mono_left (by decide)

theorem reads_statement {k : Kind} {ws : List String} (hk : startsStatement k = true)
    (h : ∀ t : Token, t.kind = k → Reads anyKind (fun k => k != .kwElse) (statementRest t) ws (pure s)) :
    Reads startsPlain (fun k => k != .kwElse) (rule statement) (k.spelling :: ws) (pure s) := by
  have hkinds : Within startsStatement fun k => !([.number, .string, .eof].contains k) := by decide
  have hfixed : k ∉ [.number, .string, .eof] := by simpa using hkinds k hk
  rw [rule_statement]
  refine .mono_left (.branch_false (F := startsStatement) ?_ (by decide)) (by decide)
  exact .choose_fixed hfixed hk h

theorem reads_plain {ws : List String} (h : Reads startsExpr anyKind (rule expressionStatement) ws (pure s)) :
    Reads startsPlain (fun k => k != .kwElse) (rule statement) ws (pure s) := by
  rw [rule_statement]
  exact ((h.branch_false (by decide)).branch_false (by decide)).mono (by decide) (.any _)

theorem reads_blockRest {ss : List SourceStmt} (h : ∀ s ∈ ss, StmtReadsBack s) :
    Reads startsInner anyKind (rule blockRest) (Stmt.bodyWords ss ++ ["\x7d"]) (pure ss) := by
  induction ss with
  | nil =>
    rw [rule_blockRest]
    refine .mono_left (F := (· == .rightBrace)) ?_ (by decide)
    exact .choose_fixed (g := .rightBrace) (by decide) rfl fun _ _ => .nil (.pure _)
  | cons s ss ih =>
    obtain ⟨hs, hss⟩ := forall_mem_cons.1 h
    rw [Stmt.bodyWords, append_assoc]
    exact hs (ih hss)

theorem reads_block {ss : List SourceStmt} (h : ∀ s ∈ ss, StmtReadsBack s) :
    Reads (· == .leftBrace) anyKind (rule block) (braced (Stmt.bodyWords ss)) (pure ss) := by
  rw [rule_block]
  exact .fixed_bind (by decide) fun _ => reads_blockRest h

theorem stmtReadsBack_decl {x : String} {type? : Option String} {init? : Option SourceExpr} (hx : IsName x)
    (htype : ∀ t ∈ type?, IsType t) (hinit : ∀ e ∈ init?, e.Written) : StmtReadsBack (.decl x type? init?) := by
  intro ws ss hrest
  have hwords : (Stmt.decl x type? init?).words ++ ws =
      "let" :: ((x :: (writtenTypeWords type? ++ (initialValueWords init? ++ [";"]))) ++ ws) := by
    simp only [Stmt.words, cons_append, append_assoc]
  rw [hwords, rule_blockRest]
  refine .mono_left (.branch_false (F := (· == .kwLet)) ?_ (by decide)) (by decide)
  refine .choose_fixed (G := (· == .identifier)) (g := .kwLet) (by decide) rfl fun _ _ => ?_
  exact (reads_declaration hx htype hinit).bind hrest.proceed (.any _)

/-- An `else` is read back if there is one, and the next statement does not start with one. -/
theorem reads_cond {c : SourceExpr} {yes : List SourceStmt} {no? : Option (List SourceStmt)} (hc : c.Written)
    (hyes : ∀ s ∈ yes, StmtReadsBack s) (hno : ∀ no, no? = some no → ∀ s ∈ no, StmtReadsBack s) :
    Reads startsPlain (fun k => k != .kwElse) (rule statement) (Stmt.cond c yes no?).words
      (pure (.cond c yes no?)) := by
  have hif : ∀ {t : Token} {ws : List String}, t.kind = .kwIf → Reads anyKind (fun k => k != .kwElse)
      (choose (· == .kwElse) (fun _ => return Stmt.cond c yes (some (← rule block))) (return .cond c yes none)) ws
      (pure (.cond c yes no?)) → Reads anyKind (fun k => k != .kwElse) (statementRest t)
        (parenthesized c.words ++ (braced (Stmt.bodyWords yes) ++ ws)) (pure (.cond c yes no?)) := by
    intro t ws ht hrest
    rw [statementRest, ht]
    refine .mono_left (F := (· == .leftParen)) ?_ (.any _)
    refine (reads_test hc .ifOpen).bind (G := (· == .leftBrace)) ?_ (.any _)
    exact (reads_block hyes).bind hrest (.any _)
  cases no? with
  | none =>
    refine reads_statement (k := .kwIf) rfl fun t ht => ?_
    rw [← append_nil (braced _)]
    refine hif ht (.nil ?_)
    exact ((Leads.pure _).branch_false (by decide)).mono_left (.any _)
  | some no =>
    rw [Stmt.words, append_assoc]
    refine reads_statement rfl fun t ht => hif ht ?_
    refine .mono (F := (· == .kwElse)) ?_ (.any _) (.any _)
    exact .choose_fixed (g := .kwElse) (by decide) rfl fun _ _ => (reads_block (hno no rfl)).proceed

/-- Every statement that can be read is read back from its words. -/
theorem stmtReadsBack {s : SourceStmt} (h : s.Written) : StmtReadsBack s := by
  have hany : ∀ {F : Kind → Bool} {r : Rule SourceStmt} {ws s}, Reads F anyKind r ws (pure s) →
      Reads anyKind (fun k => k != .kwElse) r ws (pure s) := fun h => h.mono (.any _) (.any _)
  induction h with
  | decl hx htype hinit => exact stmtReadsBack_decl hx htype hinit
  | expr he =>
    apply stmtReadsBack_of_statement
    exact reads_plain (reads_expr he)
  | assign he hv =>
    apply stmtReadsBack_of_statement
    rw [Stmt.words, append_assoc]
    exact reads_plain (reads_assign he hv)
  | @print newline e he =>
    apply stmtReadsBack_of_statement
    cases newline with
    | false =>
      refine reads_statement (k := .kwPrint) rfl fun t ht => ?_
      rw [statementRest, ht]
      exact hany (reads_printStatement he)
    | true =>
      refine reads_statement (k := .kwPrintln) rfl fun t ht => ?_
      rw [statementRest, ht]
      exact hany (reads_printStatement he)
  | @ret value? hvalue =>
    have hread : Reads startsPlain (fun k => k != .kwElse) (rule statement)
        ("return" :: (value?.elim [] Expr.words ++ [";"])) (pure (.ret value?)) := by
      refine reads_statement (k := .kwReturn) rfl fun t ht => ?_
      rw [statementRest, ht]
      exact hany (reads_returnStatement hvalue)
    apply stmtReadsBack_of_statement
    cases value? <;> exact hread
  | asm htext =>
    apply stmtReadsBack_of_statement
    refine reads_statement (k := .kwAsm) rfl fun t ht => ?_
    rw [statementRest, ht]
    exact hany (reads_asmStatement htext)
  | vmAsm hlines =>
    apply stmtReadsBack_of_statement
    rw [rule_statement]
    refine .mono (F := (· == .kwVmAsm)) ?_ (by decide) (.any _)
    refine .choose_fixed (g := .kwVmAsm) (G := (· == .leftBrace)) (by decide) rfl fun _ _ => ?_
    rw [rule_vmAsmStatement]
    exact .fixed_bind (by decide) fun _ => (reads_lines hlines).proceed
  | cond hc _ _ ihyes ihno =>
    apply stmtReadsBack_of_statement
    exact reads_cond hc ihyes ihno
  | loop hc _ ih =>
    apply stmtReadsBack_of_statement
    refine reads_statement (k := .kwWhile) rfl fun t ht => ?_
    rw [statementRest, ht]
    refine hany ((reads_test hc .whileOpen).bind (G := (· == .leftBrace)) ?_ (.any _))
    exact (reads_block ih).proceed

end Stmt

/-! ### Functions -/

theorem reads_parameter {p : Param} (hname : IsName p.name) (htype : IsType p.typeName) {G S : Kind → Bool}
    {k : Rule (List Param)}
    (h : Reads G S (choose (· == .comma) (fun _ => return p :: (← rule parameters)) (return [p])) ws k)
    (hG : Within G stopsType) : Reads (· == .identifier) S (rule parameters) (p.words ++ ws) k := by
  rw [rule_parameters]
  refine .token_bind (G := (· == .colon)) hname fun name ht => ?_
  rw [lexeme_of_content ht]
  refine .fixed_bind (G := startsType) (by decide) fun _ => ?_
  exact (reads_typeName htype).bind h hG

theorem reads_parameters {p : Param} {ps : List Param} (h : WrittenParams (p :: ps)) :
    Reads (· == .identifier) (· == .rightParen) (rule parameters) (commaSeparated ((p :: ps).map Param.words))
      (pure (p :: ps)) := by
  induction ps generalizing p with
  | nil =>
    obtain ⟨hname, htype⟩ := h p (by simp)
    rw [map_singleton, ← append_nil p.words]
    exact reads_parameter hname htype (.nil ((Leads.pure [p]).branch_false (by decide))) (by decide)
  | cons p' ps ih =>
    obtain ⟨⟨hname, htype⟩, hmore⟩ := forall_mem_cons.1 h
    refine reads_parameter (G := (· == .comma)) hname htype ?_ (by decide)
    exact .choose_fixed (g := .comma) (by decide) rfl fun _ _ => (ih hmore).proceed

theorem reads_parameterList {ps : List Param} (h : WrittenParams ps) :
    Reads (fun k => k == .rightParen || k == .identifier) (· == .rightParen) (rule parameterList)
      (commaSeparated (ps.map Param.words)) (pure ps) := by
  rw [rule_parameterList]
  cases ps with
  | nil => exact .nil (((Leads.pure []).branch_true (.refl _)).mono_left (by decide))
  | cons p ps => exact ((reads_parameters h).branch_false (by decide)).mono_left (by decide)

theorem reads_function {f : Function Unit} (h : f.Written) :
    Reads (· == .kwFn) anyKind (rule function) f.words (pure f) := by
  have hwords : f.words = "fn" :: f.name :: "(" :: (commaSeparated (f.params.map Param.words) ++
      ")" :: (writtenTypeWords f.returnType ++ braced (Stmt.bodyWords f.body))) := by
    simp [Function.words, parenthesized]
  rw [hwords, rule_function]
  refine .fixed_bind (G := (· == .identifier)) (by decide) fun _ => ?_
  refine .token_bind (G := (· == .leftParen)) h.name fun name ht => ?_
  rw [lexeme_of_content ht]
  refine .fixed_bind (G := fun k => k == .rightParen || k == .identifier) (by decide) fun _ => ?_
  refine (reads_parameterList h.params).bind ?_ (.refl _)
  refine .fixed_bind (G := startsWritten) (by decide) fun _ => ?_
  refine (reads_writtenType h.result).bind (G := (· == .leftBrace)) ?_ (by decide)
  exact (reads_block fun s hs => stmtReadsBack (h.body s hs)).proceed

/-! ### Programs -/

theorem functions_spelled {fs : List (Function Unit)} (h : ∀ f ∈ fs, f.Written) :
    (∃ c, Spelled (fs.flatMap Function.words) c) ∧
      ∀ {c : List Token} {e : Token}, Spelled (fs.flatMap Function.words) c → e.kind = .eof →
        functions (c ++ [e]) = .ok fs := by
  induction fs with
  | nil =>
    refine ⟨⟨[], .nil⟩, fun {c e} hc he => ?_⟩
    cases hc
    exact functions_eof he []
  | cons f fs ih =>
    obtain ⟨hf, hfs⟩ := forall_mem_cons.1 h
    obtain ⟨⟨d, hd⟩, hread⟩ := ih hfs
    have hfunction := reads_function hf
    constructor
    · obtain ⟨c, hc⟩ := hfunction.spelled
      exact ⟨c ++ d, hc.append hd⟩
    · intro c e hc he
      obtain ⟨a, b, rfl, ha, hb⟩ := hc.split
      rw [append_assoc]
      exact functions_takes (hfunction.leads ha) (hread hb he)

/-- Parsing undoes printing: a program that was read from some text is read again from its words, whatever white space
stands between them, and so from the text that is printed of it. -/
theorem parse_print {source : String} {ts : List Token} {prog : Program Unit} (hts : Token.tokens source = .ok ts)
    (h : parse ts = .ok prog) : Spaced prog.words prog.print.toList ∧
      ∀ text : String, Spaced prog.words text.toList →
        ∃ ts', Token.tokens text = .ok ts' ∧ parse ts' = .ok prog := by
  obtain ⟨⟨c, hc⟩, hread⟩ := functions_spelled (parse_written hts h)
  refine ⟨Token.spaced_intercalate ' ' rfl _, fun text htext => ?_⟩
  obtain ⟨ts', e, hts', he, hcontent⟩ := (htext.lexes hc).spells .start
  refine ⟨ts' ++ [e], hts', ?_⟩
  rw [parse, hread (hc.congr hcontent) (Token.kind_of_content he)]
  rfl

/-- A text with parentheses that are needed and others that are not, an empty `else` and a missing one, and a block of
machine instructions that holds a string and a word without a semicolon. -/
def layeredText : String :=
  "fn f(a:int[0xA])\x7blet x=(1+2)*-3-(4-(5));" ++
    "if(!(a||x))\x7bvm_asm\x7bP \";\x7d\";\x7bQ;R\x7d\x7delse\x7b\x7dif(x)\x7b\x7d(x+1)[&f((x),2)]=- -x;\x7d"

/-- What is printed of `layeredText`. -/
def layeredWords : List String :=
  ["fn", "f", "(", "a", ":", "int", "[", "10", "]", ")", "\x7b", "let", "x", "=", "(", "1", "+", "2", ")", "*", "-",
   "3", "-", "(", "4", "-", "5", ")", ";", "if", "(", "!", "(", "a", "||", "x", ")", ")", "\x7b", "vm_asm", "\x7b",
   "P \";\x7d\" ;\n\x7b Q ;", "\x7d", "\x7d", "else", "\x7b", "\x7d", "if", "(", "x", ")", "\x7b", "\x7d", "(", "x",
   "+", "1", ")", "[", "&", "f", "(", "x", ",", "2", ")", "]", "=", "-", "-", "x", ";", "\x7d"]

theorem layeredText_printed : ∃ ts prog, Token.tokens layeredText = .ok ts ∧ parse ts = .ok prog ∧
    prog.words = layeredWords ∧ ∃ ts', Token.tokens (" ".intercalate layeredWords) = .ok ts' ∧ parse ts' = .ok prog := by
  obtain ⟨ts, hts, prog, hprog, hwords⟩ : ∃ ts, Token.tokens layeredText = .ok ts ∧
      ∃ prog, parse ts = .ok prog ∧ prog.words = layeredWords := by
    rw [show Token.tokens layeredText = _ from Token.tokens_append_ofList _ _]
    decide +kernel
  obtain ⟨hspaced, hagain⟩ := parse_print hts hprog
  rw [Program.print, hwords] at hspaced
  rw [hwords] at hagain
  exact ⟨ts, prog, hts, hprog, hwords, hagain (" ".intercalate layeredWords) hspaced⟩

end Program.Parse

end Workbench
