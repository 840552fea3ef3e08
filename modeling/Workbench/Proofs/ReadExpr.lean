import Mathlib.Data.List.Infix
import Workbench.Proofs.Grammar

/-!
# Reading expressions

The expressions and type names that can be read (`Expr.Written`, `IsType`), and the rules for them. All rules of
expressions call each other on fewer tokens, so what they predict on fewer than `n` tokens is kept together in
`ExprGood n` and proved by induction on `n`.
-/

open List

namespace Workbench

open Token (Kind)

/-- The names of types that can be read. -/
inductive IsType : String → Prop
  | word {x : String} (h : x ∈ ["int", "str", "void", "ptr"]) : IsType x
  | name {x : String} (h : Token.IsName x) : IsType x
  | sized (n : Nat) : IsType ("int[" ++ n.repr ++ "]")

/-- The expressions that can be read. -/
inductive Expr.Written : Expr Unit → Prop
  | int (n : Nat) : Written (.lit () (.int n))
  | bool (b : Bool) : Written (.lit () (.bool b))
  | str {s : String} (h : '"' ∉ s.toList) : Written (.lit () (.str s))
  | var {x : String} (h : Token.IsName x) : Written (.var () x)
  | unary {op : UnaryOp} {e : Expr Unit} (hop : op = .neg ∨ op = .not) (he : Written e) : Written (.unary () op e)
  | binary {op : BinaryOp} {l r : Expr Unit} (hop : ∀ text, op ≠ .other text) (hl : Written l) (hr : Written r) :
      Written (.binary () op l r)
  | call {f : String} {args : List (Expr Unit)} (hf : Token.IsName f) (hargs : ∀ e ∈ args, Written e) :
      Written (.call () f args)
  | index {a i : Expr Unit} (ha : Written a) (hi : Written i) : Written (.index () a i)
  | addr {e : Expr Unit} (he : Written e) : Written (.addr () e)

namespace Program.Parse

/-! ### Type names -/

variable {t : Token}

theorem isType_baseName (h : startsType t.kind = true) (hproper : Token.Proper t.kind t.lexeme t.value) :
    IsType (baseName t) := by
  have hkind : t.kind = .kwInt ∨ t.kind = .kwStr ∨ t.kind = .kwVoid ∨ t.kind = .kwPtr ∨ t.kind = .identifier := by
    simpa [startsType] using h
  rcases hkind with hk | hk | hk | hk | hk
  case inr.inr.inr.inr =>
    rw [hk] at hproper
    rw [baseName, hk]
    exact .name hproper.1
  all_goals
    rw [baseName, hk]
    exact .word (by simp)

theorem sizedName_eq (hproper : Token.Proper .number t.lexeme t.value) :
    ∃ n : Nat, sizedName t = pure ("int[" ++ n.repr ++ "]") := by
  obtain ⟨n, hn⟩ := hproper
  refine ⟨n, ?_⟩
  funext ts
  rw [sizedName, arraySize, hn]
  rfl

/-- What a type name may stand in front of. -/
def stopsType : Kind → Bool := fun k => k != .leftBracket

theorem good_typeName (n : Nat) : Good n startsType stopsType IsType (rule typeName) := by
  have hfirst : Good n startsType anyKind _ (take startsType (.unexpected .typeName)) :=
    .take rfl ⟨.kwInt, rfl⟩ (fun _ => rfl) fun _ => nofun
  rw [rule_typeName]
  apply Good.bind (G := anyKind) hfirst _ (.any _)
  intro t ht
  have hbase := isType_baseName ht.1 ht.2
  rw [typeRest]
  split
  · exact .mono_left (.pure hbase) (.any _)
  · refine .mono_left (.weaken (.choose (G := (· == .number)) (fun _ _ _ => ?_) (.pure hbase) (by decide) rfl)
      (Nat.le_succ n)) (.any _)
    refine .token_bind (G := (· == .rightBracket)) (by decide) fun size _ hproper => ?_
    obtain ⟨m, hm⟩ := sizedName_eq hproper
    rw [hm]
    exact .token_bind (by decide) fun _ _ _ => .pure (.sized m)

/-! ### Expressions -/

def startsExpr : Kind → Bool := fun k => startsPrimary k || [.amp, .bang, .minus].contains k

/-- The kinds at which an expression stops whose operators are in `ops`. -/
def stops (ops : List (List Kind)) : Kind → Bool := fun k =>
  !ops.flatten.contains k && k != .leftParen && k != .leftBracket

theorem within_stops (loosest : List Kind) (ops : List (List Kind)) : Within (stops (loosest :: ops)) (stops ops) := by
  intro k hk
  simp only [stops, flatten_cons, contains_eq_any_beq, any_append, Bool.not_or, Bool.and_eq_true] at hk ⊢
  exact ⟨⟨hk.1.1.2, hk.1.2⟩, hk.2⟩

/-- The kinds that come after an operand: an operator of its tier, or what stops it. -/
def goesOn (loosest : List Kind) (ops : List (List Kind)) : Kind → Bool := fun k =>
  loosest.contains k || stops (loosest :: ops) k

/-- No tier holds an operator of a tighter one. -/
theorem within_goesOn : ∀ {loosest ops}, loosest :: ops <:+ tiers → Within (goesOn loosest ops) (stops ops) := by
  have hall : ∀ x ∈ tiers.tails, ∀ y ∈ x.head?, ∀ k ∈ y, stops x.tail k = true := by decide
  intro loosest ops hsuffix k hk
  rw [goesOn, Bool.or_eq_true, contains_iff_mem] at hk
  rcases hk with hk | hk
  · exact hall _ ((mem_tails ..).2 hsuffix) loosest rfl k hk
  · exact within_stops loosest ops k hk

theorem within_not_contains (loosest : List Kind) (ops : List (List Kind)) :
    Within (stops (loosest :: ops)) fun k => !loosest.contains k := by
  intro k hk
  simp only [stops, flatten_cons, contains_eq_any_beq, any_append, Bool.not_or, Bool.and_eq_true] at hk ⊢
  exact hk.1.1.1

theorem within_not_opens (e : SourceExpr) : Within (stops []) fun k => !opens e k := by
  intro k hk
  simp only [stops, Bool.and_eq_true, bne_iff_ne] at hk
  simp [opens, hk.1, hk.2]

theorem binary_of_tier {ops : List Kind} (hops : ops ∈ tiers) (ht : ops.contains t.kind = true)
    (hproper : Token.Proper t.kind t.lexeme t.value) (text : String) : BinaryOp.ofText t.lexeme ≠ .other text := by
  have hmem : t.kind ∈ tiers.flatten := mem_flatten.2 ⟨ops, hops, contains_iff_mem.1 ht⟩
  simp only [tiers, flatten_cons, flatten_nil, cons_append, nil_append, mem_cons,
    not_mem_nil, or_false] at hmem
  rcases hmem with hk | hk | hk | hk | hk | hk | hk | hk | hk | hk | hk | hk <;>
  · rw [hk] at hproper
    rw [hproper.1]
    simp [Kind.spelling, BinaryOp.ofText]

theorem unary_of_kind (ht : (t.kind == .bang || t.kind == .minus) = true)
    (hproper : Token.Proper t.kind t.lexeme t.value) :
    UnaryOp.ofText t.lexeme = .neg ∨ UnaryOp.ofText t.lexeme = .not := by
  rw [Bool.or_eq_true, beq_iff_eq, beq_iff_eq] at ht
  rcases ht with hk | hk <;> rw [hk] at hproper <;> rw [hproper.1]
  · exact .inr rfl
  · exact .inl rfl

/-! ### Tokens that the rules take -/

theorem takes_postfixes_nil (e : SourceExpr) : Takes (stops []) (stops []) (rule (postfixes e)) [] e := by
  rw [rule_postfixes]
  exact (Leads.pure e).branch_false (within_not_opens e)

theorem takes_tierRest_nil (loosest : List Kind) (ops : List (List Kind)) (left : SourceExpr) :
    Takes (stops (loosest :: ops)) (stops (loosest :: ops)) (rule (tierRest loosest ops left)) [] left := by
  rw [rule_tierRest]
  exact (Leads.pure left).branch_false (within_not_contains loosest ops)

section Takes

variable {F : Kind → Bool} {c : List Token} {e : SourceExpr}

theorem takes_tier_of_unary (h : Takes F (stops []) (rule unary) c e) (ops : List (List Kind)) :
    Takes F (stops ops) (rule (tier ops)) c e := by
  induction ops with
  | nil =>
    rw [rule_tier_nil]
    exact h
  | cons loosest ops ih =>
    rw [rule_tier_cons, ← append_nil c]
    exact ih.bind (takes_tierRest_nil loosest ops e) (within_stops loosest ops)

theorem leads_unary_of_primary {S : Kind → Bool} {k : Rule SourceExpr}
    (h : Leads startsPrimary S (rule primary >>= fun e => rule (postfixes e)) c k) :
    Leads startsPrimary S (rule unary) c k := by
  rw [rule_unary]
  exact (h.branch_false (by decide)).branch_false (by decide)

theorem takes_name {t : Token} (ht : t.kind = .identifier) :
    Takes startsPrimary anyKind (rule primary) [t] (.var () t.lexeme) := by
  have hrest : primaryRest t = pure (.var () t.lexeme) := by rw [primaryRest, ht]
  rw [rule_primary]
  refine .bind (.take (by rw [ht]; rfl) _) ?_ (.any anyKind)
  rw [hrest]
  exact .pure _

end Takes

/-! ### What the rules predict -/

/-- What the rules of expressions predict on fewer than `n` tokens. -/
structure ExprGood (n : Nat) : Prop where
  tier : ∀ {ops}, ops <:+ tiers → Good n startsExpr (stops ops) Expr.Written (rule (tier ops))
  tierRest : ∀ {loosest ops left}, loosest :: ops <:+ tiers → left.Written →
    Good n (goesOn loosest ops) (stops (loosest :: ops)) Expr.Written (rule (tierRest loosest ops left))
  unary : Good n startsExpr (stops []) Expr.Written (rule unary)
  postfixes : ∀ {e}, e.Written → Good n anyKind (stops []) Expr.Written (rule (postfixes e))
  arguments : Good n startsExpr (fun k => stops tiers k && k != .comma) (fun es => ∀ e ∈ es, e.Written) (rule arguments)

/-- Every rule of expressions can be filled with a name, or with nothing after an operand. -/
theorem exprGood_zero : ExprGood 0 := by
  let x := Token.sample .identifier
  have hx : (Expr.var () x.lexeme).Written := .var (Token.sample_proper (by decide : Kind.identifier ≠ .eof)).1
  have hunary : Takes startsExpr (stops []) (rule unary) [x] (.var () x.lexeme) :=
    (leads_unary_of_primary ((takes_name rfl).bind (takes_postfixes_nil _) (.any _))).mono_left (by decide)
  have htier := takes_tier_of_unary hunary
  constructor
  case tier => exact fun {ops} _ => .zero ⟨[x], _, hx, htier ops⟩
  case tierRest =>
    intro loosest ops left _ hleft
    refine .zero ⟨[], left, hleft, (takes_tierRest_nil loosest ops left).mono_left fun k hk => ?_⟩
    rw [goesOn, hk, Bool.or_true]
  case unary => exact .zero ⟨[x], _, hx, hunary⟩
  case postfixes => exact fun {e} he => .zero ⟨[], e, he, (takes_postfixes_nil e).mono_left (.any _)⟩
  case arguments =>
    refine .zero ⟨[x], [.var () x.lexeme], by simpa using hx, ?_⟩
    rw [rule_arguments]
    exact .bind (htier tiers) ((Leads.pure _).branch_false (by decide)) (by decide)

section Step

variable {n : Nat} (ih : ExprGood n)

theorem ExprGood.expression (h : ExprGood n) : Good n startsExpr (stops tiers) Expr.Written (rule expression) :=
  h.tier suffix_rfl

include ih

theorem good_primary : Good (n + 1) startsPrimary anyKind Expr.Written (rule primary) := by
  have hfirst : Good (n + 1) startsPrimary anyKind _ (take startsPrimary .noExpression) :=
    .take rfl ⟨.identifier, rfl⟩ (fun _ => rfl) fun _ => nofun
  rw [rule_primary]
  apply Good.bind_of_shrinks hfirst (shrinks_take _ _) _ (.any anyKind)
  rintro t ⟨ht, hproper⟩
  unfold primaryRest
  split
  case h_1 => exact .pure (.bool false)
  case h_2 => exact .pure (.bool true)
  case h_3 hk =>
    rw [hk] at hproper
    obtain ⟨m, hm⟩ := hproper
    rw [literalOf, hm]
    exact .pure (.int m)
  case h_4 hk =>
    rw [hk] at hproper
    obtain ⟨s, hs, hvalue⟩ := hproper
    rw [literalOf, hvalue]
    exact .pure (.str hs)
  case h_5 hk =>
    rw [hk] at hproper
    exact .pure (.var hproper.1)
  case h_6 =>
    exact (ih.expression.mono_left (.any _)).bind (fun e => .token_last (by decide)) (by decide)

theorem good_postfixes {e : SourceExpr} (he : e.Written) :
    Good (n + 1) anyKind (stops []) Expr.Written (rule (postfixes e)) := by
  rw [rule_postfixes]
  have hend : Good (n + 1) (stops []) (stops []) Expr.Written (pure e) := .pure he
  refine .mono_left (.choose (G := anyKind) (fun t ht hproper => ?_) hend (within_not_opens e) rfl) (.any _)
  split
  case isTrue =>
    refine (ih.expression.mono_left (.any _)).bind (fun i hi => ?_) (by decide : Within (· == .rightBracket) _)
    exact .token_bind (by decide) fun _ _ _ => ih.postfixes (.index he hi)
  case isFalse hbracket =>
    -- only a name is followed by a parenthesis here
    obtain ⟨f, rfl⟩ : ∃ f, e = .var () f := by
      have hvar : e.varName?.isSome = true := by
        rw [opens, Bool.or_eq_true, Bool.and_eq_true] at ht
        exact (ht.resolve_left hbracket).2
      cases e with
      | var _ f => exact ⟨f, rfl⟩
      | _ => cases hvar
    have hcall : ∀ {args : List SourceExpr}, (∀ e ∈ args, e.Written) →
        Good n (· == .rightParen) (stops []) Expr.Written (do
          let _ ← token .rightParen .argsClose
          rule (postfixes (.call () f args))) := by
      intro args hargs
      cases he with
      | var hf => exact .token_bind (by decide) fun _ _ _ => ih.postfixes (.call hf hargs)
    have harguments := ih.arguments.bind (fun args => hcall) (by decide)
    exact .mono_left (.branch (hcall (by simp)) harguments (.refl _) (by decide)) (.any _)

theorem good_unary : Good (n + 1) startsExpr (stops []) Expr.Written (rule unary) := by
  have hoperand : Good (n + 1) startsPrimary (stops []) Expr.Written (rule primary >>= fun e => rule (postfixes e)) :=
    (good_primary ih).bind (fun e => good_postfixes ih) (.any _)
  have hop : ∀ t : Token, (t.kind == .bang || t.kind == .minus) = true → Token.Proper t.kind t.lexeme t.value →
      Good n startsExpr (stops []) Expr.Written (do return .unary () (.ofText t.lexeme) (← rule unary)) :=
    fun t ht hproper => ih.unary.bind (fun e he => .pure (.unary (unary_of_kind ht hproper) he)) (.refl _)
  rw [rule_unary]
  refine .mono_left (.choose (G := startsExpr) (fun _ _ _ => ?_) (.choose hop hoperand (by decide) rfl) (by decide) rfl)
    (by decide)
  exact ih.unary.bind (fun e he => .pure (.addr he)) (.refl _)

theorem good_tierRest {loosest : List Kind} {ops : List (List Kind)} {left : SourceExpr}
    (hsuffix : loosest :: ops <:+ tiers) (hleft : left.Written) :
    Good (n + 1) (goesOn loosest ops) (stops (loosest :: ops)) Expr.Written (rule (tierRest loosest ops left)) := by
  rw [rule_tierRest]
  have hmem : loosest ∈ tiers := hsuffix.subset (by simp)
  have heof : ∀ ops ∈ tiers, ops.contains .eof = false := by decide
  refine .choose (G := startsExpr) (fun t ht hproper => ?_) (.pure hleft)
    (within_not_contains loosest ops) (heof loosest hmem)
  apply Good.bind (ih.tier ((suffix_cons loosest ops).trans hsuffix)) _ (within_goesOn hsuffix)
  intro right hright
  exact ih.tierRest hsuffix (.binary (binary_of_tier hmem ht hproper) hleft hright)

theorem good_tier {ops : List (List Kind)} (hsuffix : ops <:+ tiers) :
    Good (n + 1) startsExpr (stops ops) Expr.Written (rule (tier ops)) := by
  induction ops with
  | nil =>
    rw [rule_tier_nil]
    exact good_unary ih
  | cons loosest ops ih' =>
    rw [rule_tier_cons]
    exact (ih' ((suffix_cons loosest ops).trans hsuffix)).bind
      (fun left => good_tierRest ih hsuffix) (within_goesOn hsuffix)

theorem good_arguments : Good (n + 1) startsExpr (fun k => stops tiers k && k != .comma) (fun es => ∀ e ∈ es, e.Written)
    (rule arguments) := by
  rw [rule_arguments]
  apply Good.bind (good_tier ih suffix_rfl) _
    (by decide : Within (fun k => k == .comma || (stops tiers k && k != .comma)) _)
  intro e he
  refine .choose (G := startsExpr) (fun _ _ _ => ?_) (.pure (by simpa using he)) (by decide) rfl
  refine ih.arguments.bind (fun es hes => .pure ?_) (.refl _)
  simpa using ⟨he, hes⟩

end Step

theorem exprGood (n : Nat) : ExprGood n := by
  induction n with
  | zero => exact exprGood_zero
  | succ n ih =>
    exact ⟨good_tier ih, good_tierRest ih, good_unary ih, good_postfixes ih, good_arguments ih⟩

end Program.Parse

end Workbench
