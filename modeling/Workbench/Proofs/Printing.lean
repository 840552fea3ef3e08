import Workbench.Proofs.Prediction
import Workbench.Ty

/-!
# Programs as text

A program is written as a list of words (`Program.words`): one word for every token, and one for all the instructions of
a block of machine instructions. Parentheses stand only around an operand that binds more loosely than its place asks
for. Any white space may stand between the words (`Spaced`); `Program.print` takes single spaces.

`Reads` says of words what `Leads` says of tokens: a rule takes their tokens and goes on. It is carried through the
combinators of rules, so a rule is followed word by word.
-/

namespace Workbench

open Token (Kind)

/-! ### Words -/

/-- Words between parentheses. -/
def parenthesized (ws : List String) : List String := "(" :: ws ++ [")"]

/-- Words between parentheses, where these are needed. -/
def enclose (needed : Bool) (ws : List String) : List String := if needed then parenthesized ws else ws

/-- Words between braces. -/
def braced (ws : List String) : List String := "\x7b" :: ws ++ ["\x7d"]

/-- Parts with commas between them. -/
def commaSeparated : List (List String) → List String
  | [] => []
  | [ws] => ws
  | ws :: more => ws ++ "," :: commaSeparated more

def Literal.word : Literal → String
  | int n => toString n
  | bool true => "true"
  | bool false => "false"
  | str s => "\"" ++ s ++ "\""
  | none => ""

/-- How tightly an operator with two operands binds. -/
def BinaryOp.level : BinaryOp → Nat
  | or => 0
  | and => 1
  | eq | ne => 2
  | lt | le | gt | ge => 3
  | add | sub => 4
  | mul | div | other _ => 5

namespace Expr

variable {α : Type}

/-- How tightly an expression holds together: the level of its operator, then the operators with one operand, then
calls, indices and what has no operator. -/
def level : Expr α → Nat
  | binary _ op _ _ => op.level
  | unary _ _ _ | addr _ _ => 6
  | _ => 7

mutual

/-- The words of an expression. The right operand is wanted one level tighter than the left one. -/
def words : Expr α → List String
  | lit _ v => [v.word]
  | var _ x => [x]
  | unary _ op e => op.text :: enclose (e.level < 6) e.words
  | binary _ op l r => enclose (l.level < op.level) l.words ++ op.text :: enclose (r.level < op.level + 1) r.words
  | call _ f args => f :: parenthesized (commaSeparated (wordsEach args))
  | index _ a i => enclose (a.level < 7) a.words ++ "[" :: i.words ++ ["]"]
  | addr _ e => "&" :: enclose (e.level < 6) e.words
  | hole _ => []

def wordsEach : List (Expr α) → List (List String)
  | [] => []
  | e :: es => e.words :: wordsEach es

end

end Expr

def typeWords (name : String) : List String :=
  match Ty.bracketed? name with
  | some size => ["int", "[", size, "]"]
  | none => [name]

/-- The words of a type that may be left out. -/
def writtenTypeWords : Option String → List String
  | none => []
  | some name => ":" :: typeWords name

def initialValueWords {α : Type} : Option (Expr α) → List String
  | none => []
  | some e => "=" :: e.words

namespace Stmt

variable {α : Type}

mutual

def words : Stmt α → List String
  | expr e => e.words ++ [";"]
  | decl x type? init? => "let" :: x :: writtenTypeWords type? ++ initialValueWords init? ++ [";"]
  | assign e v => e.words ++ "=" :: v.words ++ [";"]
  | print newline e => (if newline then "println" else "print") :: parenthesized e.words ++ [";"]
  | ret none => ["return", ";"]
  | ret (some e) => "return" :: e.words ++ [";"]
  | asm text => ["asm", (Literal.str text).word, ";"]
  | vmAsm code => "vm_asm" :: braced [code]
  | cond c yes none => "if" :: parenthesized c.words ++ braced (bodyWords yes)
  | cond c yes (some no) => "if" :: parenthesized c.words ++ braced (bodyWords yes) ++ "else" :: braced (bodyWords no)
  | loop c body => "while" :: parenthesized c.words ++ braced (bodyWords body)
  | block body => braced (bodyWords body)

/-- The words of statements one after the other. -/
def bodyWords : List (Stmt α) → List String
  | [] => []
  | s :: ss => s.words ++ bodyWords ss

end

end Stmt

def Param.words (p : Param) : List String := p.name :: ":" :: typeWords p.typeName

def Function.words {α : Type} (f : Function α) : List String :=
  "fn" :: f.name :: parenthesized (commaSeparated (f.params.map Param.words)) ++ writtenTypeWords f.returnType ++
    braced (Stmt.bodyWords f.body)

namespace Program

variable {α : Type}

def words (p : Program α) : List String := p.functions.flatMap Function.words

def print (p : Program α) : String := " ".intercalate p.words

end Program

/-! ### Words in a text -/

namespace Token

section Content

variable {t : Token} {k : Kind} {w : String} {v : Option Value}

theorem kind_of_content (h : t.content = (k, w, v)) : t.kind = k := congrArg Prod.fst h

theorem lexeme_of_content (h : t.content = (k, w, v)) : t.lexeme = w := congrArg (·.2.1) h

theorem value_of_content (h : t.content = (k, w, v)) : t.value = v := congrArg (·.2.2) h

end Content

theorem Lexes.unique {w : List Char} {js ks : List (Kind × String × Option Value)} (hj : Lexes w js)
    (hk : Lexes w ks) : js = ks := by
  obtain ⟨ts, e, hts, -, rfl⟩ := hj.spells .start
  obtain ⟨ts', e', hts', -, rfl⟩ := hk.spells .start
  rw [hts, Except.ok.injEq] at hts'
  rw [(List.append_inj_left' hts' rfl)]

theorem lexes_fixed {k : Kind} (h : k ∉ [.number, .string, .eof]) :
    Lexes k.spelling.toList [(k, k.spelling, none)] := by
  apply lexes_spelling
  cases k with
  | number | string | eof => simp at h
  | _ => decide +kernel

/-- The words stand in the text one after the other, with white space between them. -/
inductive Spaced : List String → List Char → Prop
  | nil : Spaced [] []
  | white {c : Char} {ws : List String} {text : List Char} (hc : isWhite c = true) (h : Spaced ws text) :
      Spaced ws (c :: text)
  | word {w : String} {ws : List String} {text : List Char} (h : Spaced ws text) (hapart : Apart text) :
      Spaced (w :: ws) (w.toList ++ text)

theorem spaced_intercalate (sep : Char) (hsep : isWhite sep = true) (ws : List String) :
    Spaced ws ((String.singleton sep).intercalate ws).toList := by
  induction ws with
  | nil => exact .nil
  | cons w ws ih =>
    cases ws with
    | nil =>
      rw [String.intercalate_singleton, ← List.append_nil w.toList]
      exact .word .nil .nil
    | cons w' ws =>
      rw [String.intercalate_cons_cons, String.toList_append, String.toList_append, List.append_assoc,
        String.toList_singleton]
      exact .word (.white hsep ih) (.cons hsep)

/-- The tokens `c` are those of the words. -/
inductive Spelled : List String → List Token → Prop
  | nil : Spelled [] []
  | cons {w : String} {ws : List String} {c cs : List Token} (hw : Lexes w.toList (c.map content))
      (hws : Spelled ws cs) : Spelled (w :: ws) (c ++ cs)

namespace Spelled

variable {ws us : List String} {c d : List Token}

theorem append (h : Spelled ws c) (h' : Spelled us d) : Spelled (ws ++ us) (c ++ d) := by
  induction h with
  | nil => exact h'
  | cons hw _ ih =>
    rw [List.append_assoc]
    exact .cons hw ih

theorem split (h : Spelled (ws ++ us) c) : ∃ a b, c = a ++ b ∧ Spelled ws a ∧ Spelled us b := by
  induction ws generalizing c with
  | nil => exact ⟨[], c, rfl, .nil, h⟩
  | cons w ws ih =>
    cases h with
    | cons hw hws =>
      obtain ⟨a, b, rfl, ha, hb⟩ := ih hws
      exact ⟨_ ++ a, b, by rw [List.append_assoc], .cons hw ha, hb⟩

/-- The places of the tokens do not matter. -/
theorem congr (h : Spelled ws c) (hd : d.map content = c.map content) : Spelled ws d := by
  induction h generalizing d with
  | nil =>
    rw [List.map_nil, List.map_eq_nil_iff] at hd
    rw [hd]
    exact .nil
  | cons hw _ ih =>
    rw [List.map_append, List.map_eq_append_iff] at hd
    obtain ⟨a, b, rfl, ha, hb⟩ := hd
    exact .cons (by rwa [ha]) (ih hb)

theorem uncons {w : String} {x : Kind × String × Option Value} (hw : Lexes w.toList [x]) (h : Spelled (w :: ws) c) :
    ∃ t d, c = t :: d ∧ t.content = x ∧ Spelled ws d := by
  cases h with
  | cons hw' hws =>
    obtain ⟨t, ht, hx⟩ := List.map_eq_singleton_iff.1 (hw'.unique hw)
    rw [ht]
    exact ⟨t, _, rfl, hx, hws⟩

theorem exists_cons {w : String} {x : Kind × String × Option Value} (hw : Lexes w.toList [x]) :
    ∃ t : Token, t.content = x ∧ ∀ {ws c}, Spelled ws c → Spelled (w :: ws) (t :: c) :=
  ⟨⟨x.1, x.2.1, 0, 0, x.2.2⟩, rfl, .cons (c := [_]) hw⟩

end Spelled

theorem Spaced.lexes {ws : List String} {text : List Char} (h : Spaced ws text) {c : List Token} (hc : Spelled ws c) :
    Lexes text (c.map content) := by
  induction h generalizing c with
  | nil =>
    cases hc
    exact .nil
  | white hwhite _ ih => exact .white hwhite (ih hc)
  | word _ hapart ih =>
    cases hc with
    | cons hw hws =>
      rw [List.map_append]
      exact hw.append (ih hws) hapart

end Token

/-! ### Rules on words -/

namespace Program.Parse

variable {α β : Type} {F F' G S S' T : Kind → Bool} {r : Rule α} {k k' : Rule α} {ws us : List String}

/-- The words have tokens, and in front of a token of a kind in `S`, the rule `r` takes these tokens and goes on as
`k`. -/
structure Reads (F S : Kind → Bool) (r : Rule α) (ws : List String) (k : Rule α) : Prop where
  spelled : ∃ c, Token.Spelled ws c
  leads : ∀ {c}, Token.Spelled ws c → Leads F S r c k

namespace Reads

/-- What holds of the tokens holds of the words. -/
theorem imp {r' : Rule β} {k' : Rule β} (h : Reads F S r ws k) (himp : ∀ {c}, Leads F S r c k → Leads G T r' c k') :
    Reads G T r' ws k' :=
  ⟨h.spelled, fun hc => himp (h.leads hc)⟩

theorem mono (h : Reads F S r ws k) (hF : Within F F') (hS : Within S' S) : Reads F' S' r ws k :=
  h.imp fun hc => hc.mono hF hS

theorem mono_left (h : Reads F S r ws k) (hF : Within F F') : Reads F' S r ws k := h.mono hF (.refl S)

theorem branch_true {test : Kind → Bool} {no : Rule α} (h : Reads F S r ws k) (hF : Within F test) :
    Reads F S (branch test r no) ws k :=
  h.imp fun hc => hc.branch_true hF

theorem branch_false {test : Kind → Bool} {yes : Rule α} (h : Reads F S r ws k) (hF : Within F fun k => !test k) :
    Reads F S (branch test yes r) ws k :=
  h.imp fun hc => hc.branch_false hF

theorem nil (h : Leads F S r [] k) : Reads F S r [] k := by
  refine ⟨⟨[], .nil⟩, fun hc => ?_⟩
  cases hc
  exact h

theorem trans (h : Reads F T r ws k) (h' : Reads G S k us k') (hwithin : Within G T) : Reads F S r (ws ++ us) k' := by
  constructor
  · obtain ⟨c, hc⟩ := h.spelled
    obtain ⟨d, hd⟩ := h'.spelled
    exact ⟨c ++ d, hc.append hd⟩
  · intro c hc
    obtain ⟨a, b, rfl, ha, hb⟩ := hc.split
    exact (h.leads ha).trans (h'.leads hb) hwithin

/-- After its words, a rule is followed by what comes next. -/
theorem proceed {f : α → Rule β} {v : α} (h : Reads F S r ws (pure v)) : Reads F S (r >>= f) ws (f v) :=
  h.imp Leads.proceed

theorem bind {f : α → Rule β} {k : Rule β} {v : α} (h : Reads F T r ws (pure v)) (h' : Reads G S (f v) us k)
    (hwithin : Within G T) : Reads F S (r >>= f) (ws ++ us) k :=
  h.proceed.trans h' hwithin

/-- What comes next takes no more words. -/
theorem finish (h : Reads F T r ws k) (h' : Leads G S k [] k') (hwithin : Within G T) : Reads F S r ws k' := by
  rw [← List.append_nil ws]
  exact h.trans (nil h') hwithin

section Word

variable {w : String} {x : Kind × String × Option Token.Value} {f : Token → Rule α}

theorem word (hw : Token.Lexes w.toList [x]) (h : ∀ t, t.content = x → Reads G S (f t) ws k)
    (hlead : ∀ {t c}, t.content = x → Leads G S (f t) c k → Leads F S r (t :: c) k) : Reads F S r (w :: ws) k := by
  constructor
  · obtain ⟨t, ht, hcons⟩ := Token.Spelled.exists_cons hw
    obtain ⟨c, hc⟩ := (h t ht).spelled
    exact ⟨t :: c, hcons hc⟩
  · intro c hc
    obtain ⟨t, d, rfl, ht, hd⟩ := hc.uncons hw
    exact hlead ht ((h t ht).leads hd)

variable {test : Kind → Bool} {want : Expected} {g : Kind} {no : Rule α}

/-- A word that is chosen leads on as what is chosen by it. -/
theorem choose_true (hw : Token.Lexes w.toList [x]) (hx : test x.1 = true)
    (h : ∀ t, t.content = x → Reads G S (f t) ws k) : Reads test S (choose test f no) (w :: ws) k := by
  refine word hw h ?_
  rintro t c rfl hc
  exact .choose_true hx hc

theorem choose_fixed (hkind : g ∉ [.number, .string, .eof]) (htest : test g = true)
    (h : ∀ t, t.kind = g → Reads G S (f t) ws k) : Reads test S (choose test f no) (g.spelling :: ws) k :=
  choose_true (Token.lexes_fixed hkind) htest fun t ht => h t (Token.kind_of_content ht)

theorem take_bind {err : Token → ParseError} (hw : Token.Lexes w.toList [x]) (hx : test x.1 = true)
    (h : ∀ t, t.content = x → Reads G S (f t) ws k) : Reads test S (take test err >>= f) (w :: ws) k := by
  refine word hw h ?_
  rintro t c rfl hc
  exact .bind (.take hx err) hc (.any G)

theorem token_bind (hw : Token.Lexes w.toList [x]) (h : ∀ t, t.content = x → Reads G S (f t) ws k) :
    Reads (· == x.1) S (token x.1 want >>= f) (w :: ws) k :=
  take_bind hw (beq_self_eq_true _) h

theorem fixed_bind (hkind : g ∉ [.number, .string, .eof]) (h : ∀ t, Reads G S (f t) ws k) :
    Reads (· == g) S (token g want >>= f) (g.spelling :: ws) k :=
  token_bind (Token.lexes_fixed hkind) fun t _ => h t

theorem fixed_last (hkind : g ∉ [.number, .string, .eof]) (v : α) : Reads (· == g) anyKind (do
      let _ ← token g want
      return v) [g.spelling] (pure v) :=
  fixed_bind hkind fun _ => nil (Leads.pure v)

end Word

end Reads

end Program.Parse

end Workbench
