import Workbench.Proofs.ReadExpr

/-!
# Programs are read one token ahead

The statements and functions that can be read, and what their rules predict. The main statement, `parse_predicts`, is
that the tokens of a text are read to the end, or blamed at the first token with which they stop being the start of a
program.
-/

open List

namespace Workbench

open Token (Kind)

/-- A line of machine instructions as it can be read: the text of whole tokens that ends with the first semicolon. -/
def IsLine (line : String) : Prop :=
  ∃ ts : List Token, (∀ t ∈ ts, t.Whole ∧ t.kind ≠ .semicolon ∧ t.kind ≠ .rightBrace) ∧
    line = Program.Parse.instructionLine (ts.map (·.lexeme) ++ [";"])

/-- The statements that can be read. -/
inductive Stmt.Written : Stmt Unit → Prop
  | expr {e : Expr Unit} (he : e.Written) : Written (.expr e)
  | decl {x : String} {t? : Option String} {init? : Option (Expr Unit)} (hx : Token.IsName x)
      (htype : ∀ t ∈ t?, IsType t) (hinit : ∀ e ∈ init?, e.Written) : Written (.decl x t? init?)
  | assign {e v : Expr Unit} (he : e.Written) (hv : v.Written) : Written (.assign e v)
  | print {newline : Bool} {e : Expr Unit} (he : e.Written) : Written (.print newline e)
  | ret {value? : Option (Expr Unit)} (hvalue : ∀ e ∈ value?, e.Written) : Written (.ret value?)
  | asm {text : String} (htext : '"' ∉ text.toList) : Written (.asm text)
  | vmAsm {lines : List String} (hlines : ∀ l ∈ lines, IsLine l) : Written (.vmAsm ("\n".intercalate lines))
  | cond {c : Expr Unit} {yes : List (Stmt Unit)} {no? : Option (List (Stmt Unit))} (hc : c.Written)
      (hyes : ∀ s ∈ yes, Written s) (hno : ∀ no, no? = some no → ∀ s ∈ no, Written s) : Written (.cond c yes no?)
  | loop {c : Expr Unit} {body : List (Stmt Unit)} (hc : c.Written) (hbody : ∀ s ∈ body, Written s) :
      Written (.loop c body)

/-- The functions that can be read. -/
structure Function.Written (f : Function Unit) : Prop where
  name : Token.IsName f.name
  params : ∀ p ∈ f.params, Token.IsName p.name ∧ IsType p.typeName
  result : ∀ t ∈ f.returnType, IsType t
  body : ∀ s ∈ f.body, s.Written

def Program.Written (p : Program Unit) : Prop := ∀ f ∈ p.functions, f.Written

namespace Program.Parse

/-! ### Machine instructions -/

/-- A line in front of others, unless it is empty. -/
def addLine (text : String) (lines : List String) : List String := if text.isEmpty then lines else text :: lines

section Lines

variable {line : List String} {t : Token} {ts : List Token}

theorem instructionLines_brace (ht : t.kind = .rightBrace) (line : List String) (ts : List Token) :
    rule (instructionLines line) (t :: ts) = .ok ([], ts) := by
  rw [rule_apply, instructionLines, if_pos (by rw [ht]; rfl)]
  rfl

theorem instructionLines_eof (ht : t.kind = .eof) (line : List String) (ts : List Token) :
    rule (instructionLines line) (t :: ts) = .error (.unexpected .vmAsmClose t) := by
  rw [rule_apply, instructionLines, if_neg (by rw [ht]; decide), if_pos (by rw [ht]; rfl)]
  rfl

theorem instructionLines_semicolon (ht : t.kind = .semicolon) (line : List String) (ts : List Token) :
    rule (instructionLines line) (t :: ts) = (do
      let lines ← rule (instructionLines [])
      return addLine (instructionLine (line ++ [t.lexeme])) lines) ts := by
  rw [rule_apply, instructionLines, if_neg (by rw [ht]; decide), if_neg (by rw [ht]; decide), if_pos (by rw [ht]; rfl)]
  generalize instructionLine (line ++ [t.lexeme]) = text
  exact outcome_bind rfl fun p => rfl

theorem instructionLines_other (ht : t.kind ∉ [.rightBrace, .eof, .semicolon]) (line : List String) (ts : List Token) :
    rule (instructionLines line) (t :: ts) = rule (instructionLines (line ++ [t.lexeme])) ts := by
  simp only [mem_cons, not_or] at ht
  rw [rule_apply, instructionLines, if_neg (by simpa using ht.1), if_neg (by simpa using ht.2.1),
    if_neg (by simpa using ht.2.2)]
  exact outcome_last rfl

/-- Lines are read up to the closing brace, whatever follows. -/
theorem instructionLines_reads {lines : List String} {rest : List Token} (hts : Token.Stream ts) (us : List Token)
    (hus : ∀ u ∈ us, u.Whole ∧ u.kind ≠ .semicolon ∧ u.kind ≠ .rightBrace) (hline : line = us.map (·.lexeme))
    (h : rule (instructionLines line) ts = .ok (lines, rest)) :
    (∀ l ∈ lines, IsLine l) ∧ ∃ p, ts = p ++ rest ∧ (∀ t ∈ p, t.kind ≠ .eof) ∧
      ∀ rest', rule (instructionLines line) (p ++ rest') = .ok (lines, rest') := by
  induction ts generalizing line us lines with
  | nil => cases hts
  | cons t ts ih =>
    by_cases hbrace : t.kind = .rightBrace
    · rw [instructionLines_brace hbrace] at h
      cases h
      refine ⟨by simp, [t], rfl, by simp [hbrace], fun rest' => instructionLines_brace hbrace _ _⟩
    by_cases heof : t.kind = .eof
    · rw [instructionLines_eof heof] at h
      cases h
    have hinner : ∀ {p : List Token}, (∀ u ∈ p, u.kind ≠ .eof) → ∀ u ∈ t :: p, u.kind ≠ .eof := by
      intro p hp u hu
      rcases mem_cons.1 hu with rfl | hu
      · exact heof
      · exact hp u hu
    by_cases hsemi : t.kind = .semicolon
    · have hlexeme : t.lexeme = ";" := by
        have hproper := hts.proper heof
        rw [hsemi] at hproper
        exact hproper.1
      rw [instructionLines_semicolon hsemi] at h
      cases hmore : rule (instructionLines []) ts with
      | error e =>
        rw [bind_error hmore] at h
        cases h
      | ok x =>
        obtain ⟨more, rest'⟩ := x
        rw [bind_ok hmore] at h
        obtain ⟨rfl, rfl⟩ : addLine (instructionLine (line ++ [t.lexeme])) more = lines ∧ rest' = rest := by
          simpa only [Except.ok.injEq, Prod.mk.injEq] using (show Except.ok _ = Except.ok _ from h)
        obtain ⟨hlines, p, rfl, hp, hagain⟩ := ih (hts.tail heof) [] (by simp) map_nil.symm hmore
        refine ⟨?_, t :: p, rfl, hinner hp, fun rest' => ?_⟩
        · intro l hl
          unfold addLine at hl
          split at hl
          · exact hlines l hl
          · rcases mem_cons.1 hl with rfl | hl
            · exact ⟨us, hus, by rw [hlexeme, hline]⟩
            · exact hlines l hl
        · rw [cons_append, instructionLines_semicolon hsemi, bind_ok (hagain rest')]
          rfl
    · have hother : t.kind ∉ [.rightBrace, .eof, .semicolon] := by simp [hbrace, heof, hsemi]
      rw [instructionLines_other hother] at h
      have hwhole : t.Whole := by
        cases hts with
        | eof he => exact absurd (congrArg Prod.fst he) heof
        | unclosed _ _ _ he =>
          rw [instructionLines_eof (congrArg Prod.fst he)] at h
          cases h
        | cons hwhole _ => exact hwhole
      have hus' : ∀ u ∈ us ++ [t], u.Whole ∧ u.kind ≠ .semicolon ∧ u.kind ≠ .rightBrace := by
        intro u hu
        rcases mem_append.1 hu with hu | hu
        · exact hus u hu
        · rw [mem_singleton.1 hu]
          exact ⟨hwhole, hsemi, hbrace⟩
      obtain ⟨hlines, p, rfl, hp, hagain⟩ := ih (hts.tail heof) _ hus' (by rw [hline, map_append]; rfl) h
      refine ⟨hlines, t :: p, rfl, hinner hp, fun rest' => ?_⟩
      rw [cons_append, instructionLines_other hother, hagain rest']

theorem instructionLines_isOk (hts : Token.Stream ts) (hbrace : ∃ b ∈ ts, b.kind = .rightBrace) (line : List String) :
    ∃ x, rule (instructionLines line) ts = .ok x := by
  induction ts generalizing line with
  | nil => cases hts
  | cons t ts ih =>
    by_cases ht : t.kind = .rightBrace
    · exact ⟨_, instructionLines_brace ht line ts⟩
    have htail : ∃ b ∈ ts, b.kind = .rightBrace := by
      obtain ⟨b, hb, hkind⟩ := hbrace
      rcases mem_cons.1 hb with rfl | hb
      · exact absurd hkind ht
      · exact ⟨b, hb, hkind⟩
    have heof : t.kind ≠ .eof := by
      intro heof
      cases hts with
      | eof _ => simp at htail
      | unclosed hkind _ _ _ => cases hkind.symm.trans heof
      | cons hwhole _ => exact hwhole.proper.ne_eof heof
    by_cases hsemi : t.kind = .semicolon
    · obtain ⟨x, hx⟩ := ih (hts.tail heof) htail []
      exact ⟨_, by rw [instructionLines_semicolon hsemi, bind_ok hx]; rfl⟩
    · rw [instructionLines_other (by simp [ht, heof, hsemi])]
      exact ih (hts.tail heof) htail _

theorem predicts_lines {D : Prop} (hts : Token.Stream ts) (hend : D → ∃ b ∈ ts, b.kind = .rightBrace) :
    Predicts D anyKind anyKind (fun lines => ∀ l ∈ lines, IsLine l) (rule (instructionLines [])) ts := by
  constructor
  · intro lines rest h
    obtain ⟨hlines, p, hsplit, hinner, hagain⟩ := instructionLines_reads hts [] (by simp) rfl h
    refine ⟨hlines, p, hsplit, hinner, fun rest' hrest' => ⟨?_, hagain rest'⟩, fun rest' _ => hagain rest'⟩
    cases p with
    | nil => exact hrest'
    | cons t p => exact .cons rfl _
  · intro e h hD
    obtain ⟨x, hx⟩ := instructionLines_isOk hts (hend hD) []
    rw [hx] at h
    cases h

/-- After `vm_asm` a block of machine instructions is read to its closing brace. -/
theorem predicts_vmAsm (ht : t.kind = .kwVmAsm) (hts : Token.Stream ts) :
    Predicts (Ended (t :: ts)) anyKind anyKind Stmt.Written (rule vmAsmStatement) ts := by
  have hopen : Good (ts.length + 1) (· == .leftBrace) anyKind _ (token .leftBrace .vmAsmOpen) :=
    .token (by decide) (by decide)
  have hfills : Fills anyKind anyKind Stmt.Written (do
      let lines ← rule (instructionLines [])
      return .vmAsm ("\n".intercalate lines)) :=
    ⟨_, .vmAsm ("\n".intercalate []), .vmAsm (by simp),
      .bind (c := [.sample .rightBrace])
        (fun rest _ => ⟨.cons rfl rest, instructionLines_brace rfl [] rest⟩)
        (.pure _) (.refl _)⟩
  rw [rule_vmAsmStatement]
  refine (hopen.predicts (Nat.lt_succ_self _) hts).mono (.drop (p := [t])) (.any _) (.refl _)
    (fun _ => id) |>.bind (fun {v p rest} hr hv hp => ?_) (fun _ _ => hfills) (.refl _)
  have hend : Ended (t :: ts) → ∃ b ∈ rest, b.kind = .rightBrace := by
    intro hended
    obtain ⟨b, hb, hkind⟩ := hended.1 ht
    obtain ⟨rfl, hv⟩ := take_eq_ok hr
    rcases mem_cons.1 hb with rfl | hb
    · rw [hkind] at hv
      cases hv
    · exact ⟨b, hb, hkind⟩
  exact (predicts_lines (hp.split ▸ hts |>.drop hp.inner) hend).bind
    (fun _ hlines _ => .pure (.vmAsm hlines))
    (fun lines hlines => ⟨[], _, .vmAsm hlines, .pure _⟩) (.refl _)

end Lines

/-! ### Statements -/

/-- What may come after an optional type. -/
def stopsWritten : Kind → Bool := fun k => [.equal, .semicolon, .leftBrace].contains k

def startsWritten : Kind → Bool := fun k => k == .colon || stopsWritten k

theorem good_writtenType (n : Nat) :
    Good n startsWritten stopsWritten (fun t? => ∀ t ∈ t?, IsType t) (rule writtenType) := by
  rw [rule_writtenType]
  refine .weaken (.choose (G := startsType) (fun _ _ _ => ?_) (.pure (by simp)) (by decide) rfl)
    (Nat.le_succ n)
  exact (good_typeName n).bind (fun t ht => .pure (by simpa using ht)) (by decide)

theorem good_expression (n : Nat) : Good n startsExpr (stops tiers) Expr.Written (rule expression) :=
  (exprGood n).expression

theorem good_initialValue (n : Nat) : Good n (fun k => k == .equal || k == .semicolon) (· == .semicolon)
    (fun e? => ∀ e ∈ e?, e.Written) (rule initialValue) := by
  rw [rule_initialValue]
  refine .weaken (.choose (G := startsExpr) (fun _ _ _ => ?_) (.pure (by simp)) (by decide) rfl)
    (Nat.le_succ n)
  exact (good_expression n).bind (fun e he => .pure (by simpa using he)) (by decide)

theorem good_test (n : Nat) {want : Expected} (hwant : want ≠ .vmAsmClose) :
    Good n (· == .leftParen) anyKind Expr.Written (rule (test want)) := by
  rw [rule_test]
  refine .token_bind (G := startsExpr) ⟨by decide, hwant⟩ fun _ _ _ => ?_
  exact (good_expression n).bind (fun e => .token_last (by decide)) (by decide)

theorem good_declaration (n : Nat) : Good n (· == .identifier) anyKind Stmt.Written (rule declaration) := by
  rw [rule_declaration]
  refine .token_bind (G := startsWritten) (by decide) fun name _ hname => ?_
  refine (good_writtenType n).bind (fun type? htype => ?_) (by decide : Within (fun k => k == .equal || k == .semicolon) _)
  refine (good_initialValue n).bind (fun init? hinit => ?_) (.refl _)
  exact .token_last (by decide) (.decl hname.1 htype hinit)

theorem good_printStatement (n : Nat) (newline : Bool) :
    Good n (· == .leftParen) anyKind Stmt.Written (rule (printStatement newline)) := by
  rw [rule_printStatement]
  refine .token_bind (G := startsExpr) (by simp) fun _ _ _ => ?_
  refine (good_expression n).bind (fun e he => ?_) (by decide : Within (· == .rightParen) _)
  exact .token_bind (by simp) fun _ _ _ => .token_last (by simp) (.print he)

theorem good_asmStatement (n : Nat) : Good n (· == .string) anyKind Stmt.Written (rule asmStatement) := by
  rw [rule_asmStatement]
  refine .token_bind (G := (· == .semicolon)) (by decide) fun t _ hproper => ?_
  obtain ⟨s, hs, hvalue⟩ := hproper
  rw [textOf, hvalue]
  exact .token_last (by decide) (.asm hs)

theorem good_returnStatement (n : Nat) :
    Good n (fun k => k == .semicolon || startsExpr k) anyKind Stmt.Written (rule returnStatement) := by
  have hend : ∀ {value? : Option SourceExpr}, (∀ e ∈ value?, e.Written) →
      Good n (· == .semicolon) anyKind Stmt.Written (do
        let _ ← token .semicolon .returnEnd
        return .ret value?) := fun hvalue => .token_last (by decide) (.ret hvalue)
  rw [rule_returnStatement]
  exact .branch (hend (by simp)) ((good_expression n).bind (fun e he => hend (by simpa using he)) (by decide))
    (.refl _) (by decide)

theorem good_expressionStatement (n : Nat) : Good n startsExpr anyKind Stmt.Written (rule expressionStatement) := by
  have hassign : ∀ {e : SourceExpr}, e.Written → Good n startsExpr anyKind Stmt.Written (do
      let v ← rule expression
      let _ ← token .semicolon .assignEnd
      return .assign e v) := fun he =>
    (good_expression n).bind (fun v hv => .token_last (by decide) (.assign he hv)) (by decide)
  have halone : ∀ {e : SourceExpr}, e.Written → Good (n + 1) (· == .semicolon) anyKind Stmt.Written (do
      let _ ← token .semicolon .exprEnd
      return .expr e) := fun he => .token_last (by decide) (.expr he)
  rw [rule_expressionStatement]
  refine (good_expression n).bind (fun e he => ?_) (by decide : Within (fun k => k == .equal || k == .semicolon) _)
  exact .weaken (.choose (fun _ _ _ => hassign he) (halone he) (by decide) rfl) (Nat.le_succ n)

def startsPlain : Kind → Bool := fun k => k == .kwVmAsm || startsStatement k || startsExpr k

/-- The kinds that stand in a block. -/
def startsInner : Kind → Bool := fun k => k == .rightBrace || k == .kwLet || startsPlain k

/-- What the rules of statements predict on fewer than `n` tokens. -/
structure StmtGood (n : Nat) : Prop where
  statement : Good n startsPlain (fun k => k != .kwElse) Stmt.Written (rule statement)
  blockRest : Good n startsInner anyKind (fun ss => ∀ s ∈ ss, s.Written) (rule blockRest)
  block : Good n (· == .leftBrace) anyKind (fun ss => ∀ s ∈ ss, s.Written) (rule block)

/-- Every rule of statements can be filled, as blocks are without statements. -/
theorem stmtGood_zero : StmtGood 0 := by
  have hrest : Takes (· == .rightBrace) anyKind (rule blockRest) [.sample .rightBrace] [] := by
    rw [rule_blockRest]
    exact .choose_true rfl (.pure [])
  constructor
  case statement =>
    obtain ⟨c, s, hs, hc⟩ := (good_expressionStatement 0).fills
    refine .zero ⟨c, s, hs, ?_⟩
    rw [rule_statement]
    exact ((hc.branch_false (by decide)).branch_false (by decide)).mono (by decide) (.any _)
  case blockRest => exact .zero ⟨_, [], by simp, hrest.mono_left (by decide)⟩
  case block =>
    refine .zero ⟨[.sample .leftBrace] ++ [.sample .rightBrace], [], by simp, ?_⟩
    rw [rule_block]
    exact .bind (.token rfl _) hrest (.any _)

section Step

variable {n : Nat} (ih : StmtGood n)

include ih

theorem good_statementRest (t : Token) : Good n anyKind (fun k => k != .kwElse) Stmt.Written (statementRest t) := by
  have hany : ∀ {F : Kind → Bool} {r : Rule SourceStmt}, Good n F anyKind Stmt.Written r →
      Good n anyKind (fun k => k != .kwElse) Stmt.Written r :=
    fun h => h.mono (.any _) (.any _) fun _ => id
  unfold statementRest
  split
  case h_1 => exact hany (good_printStatement n false)
  case h_2 => exact hany (good_printStatement n true)
  case h_3 => exact hany (good_asmStatement n)
  case h_4 => exact hany (good_returnStatement n)
  case h_5 =>
    refine .mono_left (F := (· == .leftParen)) ?_ (.any _)
    refine (good_test n (by decide)).bind (fun c hc => ?_) (.any (· == .leftBrace))
    refine ih.block.bind (fun yes hyes => ?_) (.any anyKind)
    have hwith : Good n (· == .leftBrace) (fun k => k != .kwElse) Stmt.Written
        (do return .cond c yes (some (← rule block))) :=
      ih.block.bind (fun no hno => .pure (.cond hc hyes (by simpa using hno))) (.any _)
    have hwithout : Good (n + 1) (fun k => k != .kwElse) (fun k => k != .kwElse) Stmt.Written
        (pure (.cond c yes none)) :=
      .pure (.cond hc hyes (by simp))
    exact .mono_left (.weaken (.choose (fun _ _ _ => hwith) hwithout (by decide) rfl) (Nat.le_succ n)) (.any _)
  case h_6 =>
    refine hany ((good_test n (by decide)).bind (fun c hc => ?_) (.any (· == .leftBrace)))
    exact ih.block.bind (fun body hbody => .pure (.loop hc hbody)) (.any _)

theorem good_statement : Good (n + 1) startsPlain (fun k => k != .kwElse) Stmt.Written (rule statement) := by
  have hexpression : Good (n + 1) startsExpr (fun k => k != .kwElse) Stmt.Written (rule expressionStatement) :=
    (good_expressionStatement (n + 1)).mono (.refl _) (.any _) fun _ => id
  have hwords : Good (n + 1) _ (fun k => k != .kwElse) Stmt.Written
      (choose startsStatement statementRest (rule expressionStatement)) :=
    .choose (fun t _ _ => good_statementRest ih t) hexpression (by decide) rfl
  rw [rule_statement]
  refine .mono_left (.choose_of (G := anyKind) (fun ht _ _ hts => ?_) hwords (by decide) rfl) (by decide)
  exact (predicts_vmAsm (eq_of_beq ht) hts).mono id (.refl _) (.any _) fun _ => id

theorem good_blockRest : Good (n + 1) startsInner anyKind (fun ss => ∀ s ∈ ss, s.Written) (rule blockRest) := by
  have hmore : ∀ {s : SourceStmt}, s.Written → Good n startsInner anyKind (fun ss => ∀ s ∈ ss, s.Written)
      (do return s :: (← rule blockRest)) := by
    intro s hs
    refine ih.blockRest.bind (fun ss hss => .pure ?_) (.refl _)
    simpa using ⟨hs, hss⟩
  rw [rule_blockRest]
  have hdeclaration := (good_declaration n).bind (fun s => hmore) (.any _)
  have hstatement := (good_statement ih).bind_of_shrinks (shrinks_rule _) (fun s => hmore) (by decide)
  have hinner := Good.choose (fun _ _ _ => hdeclaration) hstatement
    (by decide : Within startsPlain fun k => !(k == .kwLet)) rfl
  exact .mono_left (.choose (fun _ _ _ => .pure (by simp)) hinner (by decide) rfl) (by decide)

end Step

theorem stmtGood (n : Nat) : StmtGood n := by
  induction n with
  | zero => exact stmtGood_zero
  | succ n ih =>
    refine ⟨good_statement ih, good_blockRest ih, ?_⟩
    rw [rule_block]
    exact .token_bind (by decide) fun _ _ _ => good_blockRest ih

/-! ### Functions -/

/-- What parameters have that can be read. -/
def WrittenParams (ps : List Param) : Prop := ∀ p ∈ ps, Token.IsName p.name ∧ IsType p.typeName

theorem good_parameters (n : Nat) : Good n (· == .identifier) (· == .rightParen) WrittenParams (rule parameters) := by
  induction n with
  | zero =>
    let x := Token.sample .identifier
    have hx : Token.IsName x.lexeme := (Token.sample_proper (by decide : Kind.identifier ≠ .eof)).1
    obtain ⟨c, type, htype, hc⟩ := (good_typeName 0).fills
    refine .zero ⟨[x] ++ ([.sample .colon] ++ (c ++ [])), [⟨x.lexeme, type⟩], ?_, ?_⟩
    · simp [WrittenParams, hx, htype]
    rw [rule_parameters]
    exact .bind (.token rfl _) (.bind (.token rfl _)
      (hc.bind ((Leads.pure _).branch_false (by decide)) (by decide)) (.any _))
      (.any _)
  | succ n ih =>
    rw [rule_parameters]
    refine .token_bind (by decide) fun name _ hproper => .token_bind (G := startsType) (by decide) fun _ _ _ => ?_
    refine (good_typeName (n + 1)).bind (fun type htype => ?_)
      (by decide : Within (fun k => k == .comma || k == .rightParen) _)
    have hfirst : WrittenParams [⟨name.lexeme, type⟩] := by
      intro p hp
      rw [mem_singleton.1 hp]
      exact ⟨hproper.1, htype⟩
    refine .choose (G := (· == .identifier)) (fun _ _ _ => ?_) (.pure hfirst) (by decide) rfl
    refine ih.bind (fun ps hps => .pure ?_) (.refl _)
    intro p hp
    rcases mem_cons.1 hp with rfl | hp
    · exact ⟨hproper.1, htype⟩
    · exact hps p hp

theorem good_parameterList (n : Nat) :
    Good n (fun k => k == .rightParen || k == .identifier) (· == .rightParen) WrittenParams (rule parameterList) := by
  rw [rule_parameterList]
  exact .branch (.pure (by simp [WrittenParams])) (good_parameters n) (.refl _) (by decide)

theorem good_function (n : Nat) : Good n (· == .kwFn) anyKind Function.Written (rule function) := by
  rw [rule_function]
  refine .token_bind (by decide) fun _ _ _ => .token_bind (G := (· == .leftParen)) (by decide) fun name _ hname => ?_
  refine .token_bind (G := fun k => k == .rightParen || k == .identifier) (by decide) fun _ _ _ => ?_
  refine (good_parameterList n).bind (fun params hparams => ?_) (.refl _)
  refine .token_bind (G := startsWritten) (by decide) fun _ _ _ => ?_
  refine (good_writtenType n).bind (fun type? htype => ?_) (by decide : Within (· == .leftBrace) _)
  exact (stmtGood n).block.bind (fun body hbody => .pure ⟨hname.1, hparams, htype, hbody⟩) (.any _)

/-! ### Programs -/

/-- The functions `fs`, read one after the other from `ts`, leave `rest`. -/
inductive Consumes : List Token → List (Function Unit) → List Token → Prop
  | nil {ts : List Token} : Consumes ts [] ts
  | cons {ts : List Token} {p : Parsed (Function Unit) ts.length} {fs : List (Function Unit)} {rest : List Token}
      (h : function ts = .ok p) (hrest : Consumes p.rest fs rest) : Consumes ts (p.value :: fs) rest

theorem functions_eof {t : Token} (ht : t.kind = .eof) (ts : List Token) : functions (t :: ts) = .ok [] := by
  rw [functions, if_pos (by rw [ht]; rfl)]

theorem functions_cons {t : Token} {ts : List Token} (hhead : ts.head? = some t) (ht : t.kind ≠ .eof) :
    functions ts = rule function ts >>= fun x => (functions x.2).map (x.1 :: ·) := by
  cases ts with
  | nil => cases hhead
  | cons u ts =>
    cases hhead
    rw [functions, if_neg (by simpa using ht), rule_apply, outcome]
    cases function (t :: ts) with
    | error e => rfl
    | ok p =>
      show functions p.rest >>= _ = Except.map _ (functions p.rest)
      cases functions p.rest <;> rfl

theorem functions_takes {c rest : List Token} {f : Function Unit} {fs : List (Function Unit)}
    (hc : Takes (· == .kwFn) anyKind (rule function) c f) (h : functions rest = .ok fs) :
    functions (c ++ rest) = .ok (f :: fs) := by
  have hrest : Heads anyKind rest := by
    cases rest with
    | nil =>
      rw [functions] at h
      cases h
    | cons t rest => exact .cons rfl rest
  obtain ⟨⟨t, hhead, ht⟩, hr⟩ := hc rest hrest
  have hne : t.kind ≠ .eof := by
    rw [eq_of_beq ht]
    decide
  rw [functions_cons hhead hne, hr]
  show (functions rest).map _ = _
  rw [h]
  rfl

/-- What is read is written, and it is all there is up to the end token. -/
theorem functions_consume {n : Nat} {ts : List Token} (hlen : ts.length < n) (hts : Token.Stream ts)
    {fs : List (Function Unit)} (h : functions ts = .ok fs) :
    (∀ f ∈ fs, f.Written) ∧ ∃ e, e.kind = .eof ∧ Consumes ts fs [e] := by
  induction n generalizing ts fs with
  | zero => cases hlen
  | succ n ih =>
    cases ts with
    | nil => cases hts
    | cons t ts =>
      by_cases ht : t.kind = .eof
      · rw [functions_eof ht] at h
        cases h
        cases hts with
        | eof _ => exact ⟨by simp, t, ht, .nil⟩
        | unclosed hkind _ _ _ => cases hkind.symm.trans ht
        | cons hwhole _ => exact absurd ht hwhole.proper.ne_eof
      · rw [functions_cons rfl ht] at h
        cases hfirst : function (t :: ts) with
        | error e =>
          rw [rule_apply, hfirst] at h
          cases h
        | ok p =>
          have hrule : rule function (t :: ts) = .ok (p.value, p.rest) := by
            rw [rule_apply, hfirst]
            rfl
          obtain ⟨hf, c, hc⟩ := ((good_function (n + 1)).predicts hlen hts).ok hrule
          rw [hrule] at h
          obtain ⟨fs', hmore, rfl⟩ := map_eq_ok.1 h
          have hlt : p.rest.length < n := Nat.lt_of_lt_of_le p.rest_lt (Nat.le_of_lt_succ hlen)
          rw [hc.split] at hts
          obtain ⟨hfs, e, he, hconsumes⟩ := ih hlt (hts.drop hc.inner) hmore
          refine ⟨?_, e, he, .cons hfirst hconsumes⟩
          intro g hg
          rcases mem_cons.1 hg with rfl | hg
          · exact hf
          · exact hfs g hg

/-- What a failure of `functions` on the tokens `ts` tells: at which token it is, and why not at another one. -/
structure FailsAt (ts : List Token) (e : ParseError) (p : List Token) (t : Token) (q : List Token) : Prop where
  split : ts = p ++ t :: q
  token : e.token? = some t
  again : ∀ q', functions (p ++ t :: q') = .error e
  viable : ∃ more fs, functions (p ++ more) = .ok fs
  ends : e ≠ .unexpected .vmAsmClose t

/-- A failure is at a token, depends on nothing after it, and what stands before it can be read on. -/
theorem functions_fails {n : Nat} {ts : List Token} (hlen : ts.length < n) (hts : Token.Stream ts) (hended : Ended ts)
    {e : ParseError} (h : functions ts = .error e) : ∃ p t q, FailsAt ts e p t q := by
  induction n generalizing ts with
  | zero => cases hlen
  | succ n ih =>
    cases ts with
    | nil => cases hts
    | cons u ts =>
      by_cases hu : u.kind = .eof
      · rw [functions_eof hu] at h
        cases h
      have hfunction := (good_function (n + 1)).predicts hlen hts
      rw [functions_cons rfl hu] at h
      cases hfirst : rule function (u :: ts) with
      | error e' =>
        rw [hfirst] at h
        cases h
        obtain ⟨p, t, q, hp⟩ := hfunction.error hfirst hended
        obtain ⟨c, f, -, hc⟩ := hp.viable
        refine ⟨p, t, q, hp.split, hp.token, fun q' => ?_, ⟨c ++ [.sample .eof], [f], ?_⟩, hp.ends⟩
        · rw [functions_cons (hp.head q') hu, hp.again q']
          rfl
        · rw [← append_assoc]
          exact functions_takes hc (functions_eof rfl [])
      | ok x =>
        obtain ⟨f, rest⟩ := x
        obtain ⟨-, p, hp⟩ := hfunction.ok hfirst
        have hlt : rest.length < n := Nat.lt_of_lt_of_le (shrinks_rule _ hfirst) (Nat.le_of_lt_succ hlen)
        have hmore : functions rest = .error e := by
          rw [hfirst] at h
          exact map_eq_error.1 h
        rw [hp.split] at hts hended
        obtain ⟨p', t, q, hp'⟩ := ih hlt (hts.drop hp.inner) hended.drop hmore
        obtain ⟨more, fs, hfs⟩ := hp'.viable
        refine ⟨p ++ p', t, q, ?_, hp'.token, fun q' => ?_, ⟨more, f :: fs, ?_⟩, hp'.ends⟩
        · rw [hp.split, hp'.split, append_assoc]
        · have hhead : (p' ++ t :: q').head? = rest.head? := by
            rw [hp'.split, head?_append, head?_append]
            rfl
          rw [append_assoc, functions_cons (hp.head hhead) hu, hp.again _ hhead]
          show (functions (p' ++ t :: q')).map _ = _
          rw [hp'.again q']
          rfl
        · rw [append_assoc]
          exact functions_takes hp.takes hfs

/-- Reading the tokens of a text, in which every `vm_asm` has a closing brace after it, comes to an end. Either a
program is read from all tokens before the end token, or a token is blamed such that the tokens before it are the start
of some program and the tokens up to it are the start of none. -/
theorem parse_predicts {source : String} {ts : List Token} (hts : Token.tokens source = .ok ts) (hended : Ended ts) :
    (∃ prog e, parse ts = .ok prog ∧ e.kind = .eof ∧ Consumes ts prog.functions [e]) ∨
    ∃ err p t q, parse ts = .error err ∧ err.token? = some t ∧ err ≠ .unexpected .vmAsmClose t ∧ ts = p ++ t :: q ∧
      (∃ more prog, parse (p ++ more) = .ok prog) ∧ ∀ more prog, parse (p ++ t :: more) ≠ .ok prog := by
  have hstream := Token.tokens_stream hts
  cases h : functions ts with
  | ok fs =>
    obtain ⟨-, e, he, hconsumes⟩ := functions_consume (Nat.lt_succ_self _) hstream h
    exact .inl ⟨⟨fs⟩, e, by rw [parse, h]; rfl, he, hconsumes⟩
  | error err =>
    obtain ⟨p, t, q, hp⟩ := functions_fails (Nat.lt_succ_self _) hstream hended h
    obtain ⟨more, fs, hfs⟩ := hp.viable
    have hviable : parse (p ++ more) = .ok ⟨fs⟩ := by rw [parse, hfs]; rfl
    refine .inr ⟨err, p, t, q, by rw [parse, h]; rfl, hp.token, hp.ends, hp.split, ⟨more, ⟨fs⟩, hviable⟩, ?_⟩
    intro more prog hprog
    rw [parse, hp.again more] at hprog
    cases hprog

/-- What is read from a text can be read. -/
theorem parse_written {source : String} {ts : List Token} {prog : Program Unit} (hts : Token.tokens source = .ok ts)
    (h : parse ts = .ok prog) : prog.Written := by
  obtain ⟨fs, hfs, hprog⟩ := bind_eq_ok.1 h
  cases hprog
  exact (functions_consume (Nat.lt_succ_self _) (Token.tokens_stream hts) hfs).1

/-- A text with a block of machine instructions, and with an argument missing in its third line. -/
def brokenText : String :=
  "fn f(a: int[2]): ptr \x7b\n  vm_asm \x7b PUSH 1; \x7d\n  if (!a[0]) \x7b g(-a[1] * 2, ); \x7d else \x7b\x7d\n\x7d"

/-- The token that is blamed in `brokenText` is the parenthesis after the comma. -/
theorem brokenText_blamed : ∃ ts p t q err, Token.tokens brokenText = .ok ts ∧ Ended ts ∧ parse ts = .error err ∧
    err.token? = some t ∧ err ≠ .unexpected .vmAsmClose t ∧ (t.kind, t.line, t.col) = (.rightParen, 3, 29) ∧
    ts = p ++ t :: q ∧ (∃ more prog, parse (p ++ more) = .ok prog) ∧
    ∀ more prog, parse (p ++ t :: more) ≠ .ok prog := by
  obtain ⟨ts, hts, hended, hplace⟩ : ∃ ts, Token.tokens brokenText = .ok ts ∧ Ended ts ∧ (match parse ts with
      | .ok _ => false
      | .error err => err.token?.all fun t => (t.kind, t.line, t.col) == (.rightParen, 3, 29)) = true := by
    rw [show Token.tokens brokenText = _ from Token.tokens_ofList _]
    decide +kernel
  rcases parse_predicts hts hended with
    ⟨prog, e, hprog, -, -⟩ | ⟨err, p, t, q, herr, htoken, hends, hsplit, hviable, hno⟩
  · rw [hprog] at hplace
    cases hplace
  · rw [herr] at hplace
    simp only [htoken, Option.all_some, beq_iff_eq] at hplace
    exact ⟨ts, p, t, q, err, hts, hended, herr, htoken, hends, hplace, hsplit, hviable, hno⟩

end Program.Parse

end Workbench
