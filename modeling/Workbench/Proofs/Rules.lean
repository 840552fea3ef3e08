import Workbench.Program.Parse
import Workbench.Proofs.Lexemes

/-!
# Rules that look one token ahead

The functions that read a program decide what to do by the kind of the next token. Here they are taken as computations
on the list of tokens (`Rule`), put together from `next`, `branch` and sequences, and two properties of rules are
carried through these combinators.

`Leads` says what a rule does with tokens of a certain form, whatever comes after them, as long as the next token is of
a kind in `S`; `Takes` is the case in which it has then read a value. `Predicts` says of the tokens at hand that a
success depends only on the tokens that were taken and the next one, and a failure only on the tokens up to the one
that is blamed; the tokens before the one that is blamed are the start of something that the rule takes.
-/

namespace Workbench.Token

theorem Kind.mem_names (k : Kind) : k ∈ Kind.names.map Prod.fst := by
  cases k <;> decide

def sample (k : Kind) : Token :=
  { kind := k, lexeme := k.spelling, line := 0, col := 0
    value := match k with
      | .number => some (.number 0)
      | .string => some (.text "")
      | _ => none }

theorem sample_proper {k : Kind} (h : k ≠ .eof) : Proper (sample k).kind (sample k).lexeme (sample k).value := by
  have hname : IsName Kind.identifier.spelling := lexes_spelling (by decide +kernel)
  cases k with
  | eof => exact absurd rfl h
  | identifier => exact ⟨hname, rfl⟩
  | number => exact ⟨0, rfl⟩
  | string => exact ⟨"", by simp, rfl⟩
  | _ => exact ⟨rfl, rfl⟩

end Workbench.Token

namespace Workbench.Program.Parse

open Token (Kind)

/-- Reads a value from the front of a list of tokens and leaves the others. -/
abbrev Rule := StateT (List Token) (Except ParseError)

variable {α β : Type}

/-- A function that reads, as a rule. -/
def rule {n : List Token → Nat} (f : ∀ ts, Result α (n ts)) : Rule α := fun ts => (f ts).map fun p => (p.value, p.rest)

def next : Rule Token
  | [] => .error .outOfTokens
  | t :: ts => .ok (t, ts)

def fail (err : Token → ParseError) : Rule α
  | [] => .error .outOfTokens
  | t :: _ => .error (err t)

/-- Goes on by the kind of the next token. -/
def branch (test : Kind → Bool) (yes no : Rule α) : Rule α
  | [] => .error .outOfTokens
  | t :: ts => if test t.kind then yes (t :: ts) else no (t :: ts)

def take (test : Kind → Bool) (err : Token → ParseError) : Rule Token := branch test next (fail err)

def token (k : Kind) (want : Expected) : Rule Token := take (· == k) (.unexpected want)

/-- Takes the next token and goes on with `yes` if it passes the test, and leaves it to `no` otherwise. -/
def choose (test : Kind → Bool) (yes : Token → Rule α) (no : Rule α) : Rule α := branch test (next >>= yes) no

/-! ### Rules on given tokens -/

theorem bind_apply (r : Rule α) (k : α → Rule β) (ts : List Token) :
    (r >>= k) ts = r ts >>= fun x => k x.1 x.2 := rfl

theorem bind_ok {r : Rule α} {k : α → Rule β} {ts rest : List Token} {v : α} (h : r ts = .ok (v, rest)) :
    (r >>= k) ts = k v rest := by
  rw [bind_apply, h]
  rfl

theorem bind_error {r : Rule α} {k : α → Rule β} {ts : List Token} {e : ParseError} (h : r ts = .error e) :
    (r >>= k) ts = .error e := by
  rw [bind_apply, h]
  rfl

variable {t : Token} {test : Kind → Bool} {err : Token → ParseError} {yes : Token → Rule α} {no : Rule α}

theorem branch_true {yes no : Rule α} {ts : List Token} (hhead : ts.head? = some t) (h : test t.kind = true) :
    branch test yes no ts = yes ts := by
  cases ts with
  | nil => cases hhead
  | cons u ts =>
    cases hhead
    exact if_pos h

theorem branch_false {yes no : Rule α} {ts : List Token} (hhead : ts.head? = some t) (h : test t.kind = false) :
    branch test yes no ts = no ts := by
  cases ts with
  | nil => cases hhead
  | cons u ts =>
    cases hhead
    exact if_neg (by rw [h]; exact Bool.false_ne_true)

theorem choose_pos (h : test t.kind = true) (ts : List Token) : choose test yes no (t :: ts) = yes t ts :=
  branch_true rfl h

theorem choose_neg (h : test t.kind = false) (ts : List Token) : choose test yes no (t :: ts) = no (t :: ts) :=
  branch_false rfl h

theorem take_pos (h : test t.kind = true) (ts : List Token) : take test err (t :: ts) = .ok (t, ts) :=
  branch_true rfl h

theorem take_neg (h : test t.kind = false) (ts : List Token) : take test err (t :: ts) = .error (err t) :=
  branch_false rfl h

theorem take_eq_ok {ts rest : List Token} (h : take test err ts = .ok (t, rest)) :
    ts = t :: rest ∧ test t.kind = true := by
  cases ts with
  | nil => cases h
  | cons u ts =>
    cases hu : test u.kind with
    | true =>
      rw [take_pos hu] at h
      cases h
      exact ⟨rfl, hu⟩
    | false =>
      rw [take_neg hu] at h
      cases h

/-! ### What a rule does with given tokens -/

def Heads (K : Kind → Bool) (ts : List Token) : Prop := ∃ t, ts.head? = some t ∧ K t.kind = true

def Within (F S : Kind → Bool) : Prop := ∀ k, F k = true → S k = true

instance (F S : Kind → Bool) : Decidable (Within F S) :=
  decidable_of_iff (∀ k ∈ Kind.names.map Prod.fst, F k = true → S k = true)
    ⟨fun h k => h k k.mem_names, fun h k _ => h k⟩

def anyKind : Kind → Bool := fun _ => true

theorem Within.refl (F : Kind → Bool) : Within F F := fun _ h => h

theorem Within.any (F : Kind → Bool) : Within F anyKind := fun _ _ => rfl

theorem Within.or_left (F G : Kind → Bool) : Within F fun k => F k || G k := fun k hk => by simp [hk]

theorem Within.or_right (F G : Kind → Bool) : Within G fun k => F k || G k := fun k hk => by simp [hk]

theorem Heads.mono {F S : Kind → Bool} {ts : List Token} (h : Heads F ts) (hFS : Within F S) : Heads S ts :=
  have ⟨t, ht, hk⟩ := h
  ⟨t, ht, hFS _ hk⟩

theorem Heads.cons {K : Kind → Bool} (h : K t.kind = true) (ts : List Token) : Heads K (t :: ts) :=
  ⟨t, rfl, h⟩

/-- In front of a token of a kind in `S`, the rule `r` takes the tokens `c` and goes on as `k`; the tokens start with a
kind in `F`. -/
def Leads (F S : Kind → Bool) (r : Rule α) (c : List Token) (k : Rule α) : Prop :=
  ∀ rest, Heads S rest → Heads F (c ++ rest) ∧ r (c ++ rest) = k rest

/-- In front of a token of a kind in `S`, the rule `r` takes the tokens `c` and reads `v`. -/
abbrev Takes (F S : Kind → Bool) (r : Rule α) (c : List Token) (v : α) : Prop := Leads F S r c (pure v)

section Leads

variable {F F' S S' : Kind → Bool} {r : Rule α} {c c' : List Token} {v : α} {k : Rule α}

theorem Leads.mono (h : Leads F S r c k) (hF : Within F F') (hS : Within S' S) : Leads F' S' r c k := by
  intro rest hrest
  obtain ⟨hhead, hr⟩ := h rest (hrest.mono hS)
  exact ⟨hhead.mono hF, hr⟩

theorem Leads.mono_left (h : Leads F S r c k) (hF : Within F F') : Leads F' S r c k := h.mono hF (.refl S)

theorem Leads.refl (S : Kind → Bool) (k : Rule α) : Leads S S k [] k := fun _ hrest => ⟨hrest, rfl⟩

theorem Leads.trans {k' : Rule α} (h : Leads F S' r c k) (h' : Leads F' S k c' k') (hwithin : Within F' S') :
    Leads F S r (c ++ c') k' := by
  intro rest hrest
  obtain ⟨hhead', hk⟩ := h' rest hrest
  obtain ⟨hhead, hr⟩ := h (c' ++ rest) (hhead'.mono hwithin)
  rw [List.append_assoc]
  exact ⟨hhead, by rw [hr, hk]⟩

theorem Leads.pure (v : α) : Takes S S (Pure.pure v) [] v := .refl S _

variable {test : Kind → Bool} {t : Token} {f : α → Rule β} {no : Rule α}

theorem Leads.proceed (h : Takes F S r c v) : Leads F S (r >>= f) c (f v) := by
  intro rest hrest
  obtain ⟨hhead, hr⟩ := h rest hrest
  exact ⟨hhead, bind_ok hr⟩

theorem Leads.bind {k : Rule β} (h : Takes F S' r c v) (h' : Leads F' S (f v) c' k) (hwithin : Within F' S') :
    Leads F S (r >>= f) (c ++ c') k :=
  h.proceed.trans h' hwithin

theorem Leads.branch_true (h : Leads F S r c k) (hF : Within F test) : Leads F S (branch test r no) c k := by
  intro rest hrest
  obtain ⟨⟨t, hhead, ht⟩, hr⟩ := h rest hrest
  exact ⟨⟨t, hhead, ht⟩, by rw [Parse.branch_true hhead (hF _ ht), hr]⟩

theorem Leads.branch_false {yes : Rule α} (h : Leads F S r c k) (hF : Within F fun k => !test k) :
    Leads F S (branch test yes r) c k := by
  intro rest hrest
  obtain ⟨⟨t, hhead, ht⟩, hr⟩ := h rest hrest
  exact ⟨⟨t, hhead, ht⟩, by rw [Parse.branch_false hhead (by simpa using hF _ ht), hr]⟩

theorem Leads.next (h : F t.kind = true) : Takes F anyKind next [t] t :=
  fun rest _ => ⟨.cons h rest, rfl⟩

theorem Leads.take (h : test t.kind = true) (err : Token → ParseError) : Takes test anyKind (take test err) [t] t :=
  (Leads.next h).branch_true (.refl _)

theorem Leads.token {k : Kind} (h : t.kind = k) (want : Expected) : Takes (· == k) anyKind (token k want) [t] t :=
  .take (by rw [h]; exact beq_self_eq_true k) _

theorem Leads.choose_true {yes : Token → Rule α} (ht : test t.kind = true) (h : Leads F S (yes t) c k) :
    Leads test S (choose test yes no) (t :: c) k :=
  .branch_true (.bind (.next ht) h (.any F)) (.refl _)

end Leads

/-! ### Looking one token ahead -/

/-- Some tokens are taken by the rule, as a value with the property `P`. -/
def Fills (F S : Kind → Bool) (P : α → Prop) (r : Rule α) : Prop := ∃ c v, P v ∧ Takes F S r c v

/-- The rule took the tokens `p` of `ts` and read `v`, by looking at no more than the next token. -/
structure ReadsOf (F S : Kind → Bool) (r : Rule α) (ts : List Token) (v : α) (p rest : List Token) : Prop where
  split : ts = p ++ rest
  inner : ∀ t ∈ p, t.kind ≠ .eof
  takes : Takes F S r p v
  again : ∀ rest', rest'.head? = rest.head? → r (p ++ rest') = .ok (v, rest')

/-- The rule fails at the token `t` of `ts` by looking at no more tokens, and not without need: the tokens `p` before it
can be completed. No block of machine instructions is without its end. -/
structure StopsAt (F S : Kind → Bool) (P : α → Prop) (r : Rule α) (ts : List Token) (e : ParseError) (p : List Token)
    (t : Token) (q : List Token) : Prop where
  split : ts = p ++ t :: q
  token : e.token? = some t
  again : ∀ q', r (p ++ t :: q') = .error e
  viable : ∃ c v, P v ∧ Takes F S r (p ++ c) v
  ends : e ≠ .unexpected .vmAsmClose t

/-- On the tokens `ts` the rule reads a value with the property `P` and looks one token ahead; it fails, if at all, at
the first token that cannot go on as what the rule reads. What is said of failures is said under the condition `D`. -/
structure Predicts (D : Prop) (F S : Kind → Bool) (P : α → Prop) (r : Rule α) (ts : List Token) : Prop where
  ok : ∀ {v rest}, r ts = .ok (v, rest) → P v ∧ ∃ p, ReadsOf F S r ts v p rest
  error : ∀ {e}, r ts = .error e → D → ∃ p t q, StopsAt F S P r ts e p t q

section Predicts

theorem ReadsOf.head {F S : Kind → Bool} {r : Rule α} {ts p rest rest' : List Token} {v : α}
    (h : ReadsOf F S r ts v p rest) (hrest : rest'.head? = rest.head?) : (p ++ rest').head? = ts.head? := by
  rw [h.split, List.head?_append, List.head?_append, hrest]

theorem StopsAt.head {F S : Kind → Bool} {P : α → Prop} {r : Rule α} {ts p q : List Token} {e : ParseError} {t : Token}
    (h : StopsAt F S P r ts e p t q) (q' : List Token) : (p ++ t :: q').head? = ts.head? := by
  rw [h.split, List.head?_append, List.head?_append]
  rfl

variable {D D' : Prop} {F F' S S' : Kind → Bool} {P Q : α → Prop} {r : Rule α} {ts : List Token}

theorem Fills.mono (h : Fills F S P r) (hF : Within F F') (hS : Within S' S) (hP : ∀ v, P v → Q v) : Fills F' S' Q r :=
  have ⟨c, v, hv, htakes⟩ := h
  ⟨c, v, hP v hv, htakes.mono hF hS⟩

theorem Predicts.mono (h : Predicts D F S P r ts) (hD : D' → D) (hF : Within F F') (hS : Within S' S)
    (hP : ∀ v, P v → Q v) : Predicts D' F' S' Q r ts := by
  constructor
  · intro v rest hr
    obtain ⟨hv, p, hp⟩ := h.ok hr
    exact ⟨hP v hv, p, { hp with takes := hp.takes.mono hF hS }⟩
  · intro e hr hD'
    obtain ⟨p, t, q, hp⟩ := h.error hr (hD hD')
    obtain ⟨c, v, hv, htakes⟩ := hp.viable
    exact ⟨p, t, q, { hp with viable := ⟨c, v, hP v hv, htakes.mono hF hS⟩ }⟩

theorem Predicts.mono_left (h : Predicts D F S P r ts) (hF : Within F F') : Predicts D F' S P r ts :=
  h.mono id hF (.refl S) fun _ => id

theorem Predicts.pure {v : α} (hv : P v) : Predicts D S S P (Pure.pure v) ts := by
  constructor
  · intro w rest hr
    cases hr
    exact ⟨hv, [], rfl, by simp, Leads.pure v, fun _ _ => rfl⟩
  · intro e hr
    cases hr

theorem Predicts.of_head {r' : Rule α} {t : Token} (h : Predicts D F S P r ts) (hts : ts.head? = some t)
    (hhead : ∀ ts', ts'.head? = some t → r' ts' = r ts') (hF : ∀ ts', Heads F ts' → r' ts' = r ts') :
    Predicts D F S P r' ts := by
  have htakes : ∀ {c v}, Takes F S r c v → Takes F S r' c v := by
    intro c v hc rest hrest
    obtain ⟨hF', hr⟩ := hc rest hrest
    exact ⟨hF', by rw [hF _ hF', hr]⟩
  constructor
  · intro v rest hr
    rw [hhead ts hts] at hr
    obtain ⟨hv, p, hp⟩ := h.ok hr
    refine ⟨hv, p, hp.split, hp.inner, htakes hp.takes, fun rest' hrest' => ?_⟩
    rw [hhead _ ((hp.head hrest').trans hts), hp.again rest' hrest']
  · intro e hr hD
    rw [hhead ts hts] at hr
    obtain ⟨p, u, q, hp⟩ := h.error hr hD
    obtain ⟨c, v, hv, hc⟩ := hp.viable
    refine ⟨p, u, q, hp.split, hp.token, fun q' => ?_, ⟨c, v, hv, htakes hc⟩, hp.ends⟩
    rw [hhead _ ((hp.head q').trans hts), hp.again q']

theorem Predicts.branch {test : Kind → Bool} {yes no : Rule α} {t : Token} (hF : Within F test)
    (hF' : Within F' fun k => !test k) (hyes : test t.kind = true → Predicts D F S P yes (t :: ts))
    (hno : test t.kind = false → Predicts D F' S P no (t :: ts)) :
    Predicts D (fun k => F k || F' k) S P (branch test yes no) (t :: ts) := by
  cases ht : test t.kind with
  | true =>
    refine ((hyes ht).of_head rfl (fun ts' hhead => branch_true hhead ht) ?_).mono_left (.or_left F F')
    rintro ts' ⟨u, hu, hFu⟩
    exact branch_true hu (hF _ hFu)
  | false =>
    refine ((hno ht).of_head rfl (fun ts' hhead => branch_false hhead ht) ?_).mono_left (.or_right F F')
    rintro ts' ⟨u, hu, hFu⟩
    exact branch_false hu (by simpa using hF' _ hFu)

/-- A rule after another one: what the second one does is said of the tokens that the first one leaves. -/
theorem Predicts.bind {Q : α → Prop} {P : β → Prop} {T G : Kind → Bool} {k : α → Rule β}
    (h : Predicts D F T Q r ts)
    (hk : ∀ {v p rest}, r ts = .ok (v, rest) → Q v → ReadsOf F T r ts v p rest → Predicts D G S P (k v) rest)
    (hfills : ∀ v, Q v → Fills G S P (k v)) (hwithin : Within G T) : Predicts D F S P (r >>= k) ts := by
  constructor
  · intro w rest' hr
    cases hfirst : r ts with
    | error e =>
      rw [bind_error hfirst] at hr
      cases hr
    | ok x =>
      obtain ⟨hv, p, hp⟩ := h.ok hfirst
      rw [bind_ok hfirst] at hr
      obtain ⟨hw, p', hp'⟩ := (hk hfirst hv hp).ok hr
      refine ⟨hw, p ++ p', ?_, ?_, hp.takes.bind hp'.takes hwithin, fun rest'' hrest'' => ?_⟩
      · rw [List.append_assoc, ← hp'.split, hp.split]
      · intro t ht
        exact (List.mem_append.1 ht).elim (hp.inner t) (hp'.inner t)
      · rw [List.append_assoc, bind_ok (hp.again _ (hp'.head hrest'')), hp'.again rest'' hrest'']
  · intro e hr hD
    cases hfirst : r ts with
    | error e' =>
      -- what is missing of the first rule can be completed, and then the second one can be filled
      rw [bind_error hfirst] at hr
      cases hr
      obtain ⟨p, t, q, hp⟩ := h.error hfirst hD
      obtain ⟨c, v, hv, hc⟩ := hp.viable
      obtain ⟨c', w, hw, hc'⟩ := hfills v hv
      refine ⟨p, t, q, hp.split, hp.token, fun q' => bind_error (hp.again q'), ⟨c ++ c', w, hw, ?_⟩, hp.ends⟩
      rw [← List.append_assoc]
      exact hc.bind hc' hwithin
    | ok x =>
      obtain ⟨hv, p, hp⟩ := h.ok hfirst
      rw [bind_ok hfirst] at hr
      obtain ⟨p', t, q, hp'⟩ := (hk hfirst hv hp).error hr hD
      obtain ⟨c, w, hw, hc⟩ := hp'.viable
      refine ⟨p ++ p', t, q, ?_, hp'.token, fun q' => ?_, ⟨c, w, hw, ?_⟩, hp'.ends⟩
      · rw [List.append_assoc, ← hp'.split, hp.split]
      · rw [List.append_assoc, bind_ok (hp.again _ (hp'.head q')), hp'.again q']
      · rw [List.append_assoc]
        exact hp.takes.bind hc hwithin

theorem Predicts.next_bind {G : Kind → Bool} {yes : Token → Rule α} {t : Token} (hF : F t.kind = true)
    (ht : t.kind ≠ .eof) (h : Predicts D G S P (yes t) ts) : Predicts D F S P (next >>= yes) (t :: ts) := by
  have htakes : ∀ {c v}, Takes G S (yes t) c v → Takes F S (next >>= yes) (t :: c) v := fun hc =>
    .bind (.next hF) hc (.any G)
  constructor
  · intro v rest hr
    obtain ⟨hv, p, hp⟩ := h.ok hr
    refine ⟨hv, t :: p, by rw [hp.split]; rfl, ?_, htakes hp.takes, hp.again⟩
    intro u hu
    rcases List.mem_cons.1 hu with rfl | hu
    · exact ht
    · exact hp.inner u hu
  · intro e hr hD
    obtain ⟨p, u, q, hp⟩ := h.error hr hD
    obtain ⟨c, v, hv, hc⟩ := hp.viable
    exact ⟨t :: p, u, q, by rw [hp.split]; rfl, hp.token, hp.again, ⟨c, v, hv, htakes hc⟩, hp.ends⟩

end Predicts

/-! ### Rules on the tokens of a text -/

/-- After every `vm_asm` in the tokens comes a closing brace. -/
def Ended : List Token → Prop
  | [] => True
  | t :: ts => (t.kind = .kwVmAsm → ∃ b ∈ ts, b.kind = .rightBrace) ∧ Ended ts

instance Ended.decidable : ∀ ts, Decidable (Ended ts)
  | [] => isTrue trivial
  | t :: ts =>
    have := Ended.decidable ts
    inferInstanceAs (Decidable ((t.kind = .kwVmAsm → ∃ b ∈ ts, b.kind = .rightBrace) ∧ Ended ts))

theorem Ended.drop {p rest : List Token} (h : Ended (p ++ rest)) : Ended rest := by
  induction p with
  | nil => exact h
  | cons t p ih => exact ih h.2

/-- The rule can be filled, and it predicts what it does on fewer than `n` tokens of a text. -/
structure Good (n : Nat) (F S : Kind → Bool) (P : α → Prop) (r : Rule α) : Prop where
  fills : Fills F S P r
  predicts : ∀ {ts}, ts.length < n → Token.Stream ts → Predicts (Ended ts) F S P r ts

/-- The rule takes at least one token. -/
def Shrinks (r : Rule α) : Prop := ∀ {ts v rest}, r ts = .ok (v, rest) → rest.length < ts.length

section Good

variable {n m : Nat} {F F' S S' : Kind → Bool} {P Q : α → Prop} {r : Rule α}

theorem Good.mono (h : Good n F S P r) (hF : Within F F') (hS : Within S' S) (hP : ∀ v, P v → Q v) : Good n F' S' Q r :=
  ⟨h.fills.mono hF hS hP, fun hlen hts => (h.predicts hlen hts).mono id hF hS hP⟩

theorem Good.weaken (h : Good n F S P r) (hmn : m ≤ n) : Good m F S P r :=
  ⟨h.fills, fun hlen hts => h.predicts (hlen.trans_le hmn) hts⟩

theorem Good.zero (h : Fills F S P r) : Good 0 F S P r :=
  ⟨h, fun hlen => absurd hlen (Nat.not_lt_zero _)⟩

theorem Good.mono_left (h : Good n F S P r) (hF : Within F F') : Good n F' S P r :=
  h.mono hF (.refl S) fun _ => id

theorem Good.pure {v : α} (hv : P v) : Good n S S P (Pure.pure v) :=
  ⟨⟨[], v, hv, Leads.pure v⟩, fun _ _ => .pure hv⟩

variable {test T G : Kind → Bool} {yes : Token → Rule α} {no : Rule α}

theorem Good.bind_of_lt {Q : α → Prop} {P : β → Prop} {k : α → Rule β} (h : Good n F T Q r)
    (hk : ∀ v, Q v → Good m G S P (k v)) (hwithin : Within G T)
    (hlt : ∀ {ts v rest}, ts.length < n → r ts = .ok (v, rest) → rest.length ≤ ts.length → rest.length < m) :
    Good n F S P (r >>= k) := by
  constructor
  · obtain ⟨c, v, hv, hc⟩ := h.fills
    obtain ⟨c', w, hw, hc'⟩ := (hk v hv).fills
    exact ⟨c ++ c', w, hw, hc.bind hc' hwithin⟩
  · intro ts hlen hts
    refine (h.predicts hlen hts).bind (fun {v p rest} hr hv hp => ?_) (fun v hv => (hk v hv).fills) hwithin
    obtain rfl := hp.split
    refine ((hk v hv).predicts ?_ (hts.drop hp.inner)).mono .drop (.refl _) (.refl _) fun _ => id
    exact hlt hlen hr (by simp)

theorem Good.bind {Q : α → Prop} {P : β → Prop} {k : α → Rule β} (h : Good n F T Q r)
    (hk : ∀ v, Q v → Good n G S P (k v)) (hwithin : Within G T) : Good n F S P (r >>= k) :=
  h.bind_of_lt hk hwithin fun hlen _ hle => hle.trans_lt hlen

/-- After a rule that takes a token, there are fewer tokens. -/
theorem Good.bind_of_shrinks {Q : α → Prop} {P : β → Prop} {k : α → Rule β} (h : Good (n + 1) F T Q r)
    (hr : Shrinks r) (hk : ∀ v, Q v → Good n G S P (k v)) (hwithin : Within G T) : Good (n + 1) F S P (r >>= k) :=
  h.bind_of_lt hk hwithin fun hlen hok _ => Nat.lt_of_lt_of_le (hr hok) (Nat.le_of_lt_succ hlen)

theorem Good.branch {yes no : Rule α} (hyes : Good n F S P yes) (hno : Good n F' S P no) (hF : Within F test)
    (hF' : Within F' fun k => !test k) : Good n (fun k => F k || F' k) S P (branch test yes no) := by
  constructor
  · obtain ⟨c, v, hv, hc⟩ := hyes.fills
    exact ⟨c, v, hv, (hc.branch_true hF).mono_left (.or_left F F')⟩
  · intro ts hlen hts
    cases ts with
    | nil => cases hts
    | cons t ts => exact .branch hF hF' (fun _ => hyes.predicts hlen hts) fun _ => hno.predicts hlen hts

theorem Good.choose_of {G : Kind → Bool}
    (hyes : ∀ {t ts}, test t.kind = true → ts.length < n → Token.Proper t.kind t.lexeme t.value → Token.Stream ts →
      Predicts (Ended (t :: ts)) G S P (yes t) ts) (hno : Good (n + 1) F S P no) (hF : Within F fun k => !test k)
    (heof : test .eof = false) : Good (n + 1) (fun k => test k || F k) S P (choose test yes no) := by
  constructor
  · obtain ⟨c, v, hv, hc⟩ := hno.fills
    exact ⟨c, v, hv, (hc.branch_false hF).mono_left (.or_right test F)⟩
  · intro ts hlen hts
    cases ts with
    | nil => cases hts
    | cons t ts =>
      refine .branch (.refl _) hF (fun ht => ?_) fun _ => hno.predicts hlen hts
      have hne : t.kind ≠ .eof := by
        intro heq
        rw [heq, heof] at ht
        cases ht
      exact .next_bind ht hne (hyes ht (Nat.lt_of_succ_lt_succ hlen) (hts.proper hne) (hts.tail hne))

theorem Good.choose {G : Kind → Bool}
    (hyes : ∀ t, test t.kind = true → Token.Proper t.kind t.lexeme t.value → Good n G S P (yes t))
    (hno : Good (n + 1) F S P no) (hF : Within F fun k => !test k) (heof : test .eof = false) :
    Good (n + 1) (fun k => test k || F k) S P (choose test yes no) := by
  refine .choose_of (G := G) (fun {t ts} ht hlen hproper hts => ?_) hno hF heof
  exact ((hyes t ht hproper).predicts hlen hts).mono (.drop (p := [t])) (.refl _) (.refl _) fun _ => id

theorem Good.take {err : Token → ParseError} (heof : test .eof = false) (hsome : ∃ k, test k = true)
    (herr : ∀ t, (err t).token? = some t) (hends : ∀ t, err t ≠ .unexpected .vmAsmClose t) :
    Good n test anyKind (fun t => test t.kind = true ∧ Token.Proper t.kind t.lexeme t.value) (take test err) := by
  have hne : ∀ {k}, test k = true → k ≠ .eof := by
    rintro k hk rfl
    rw [heof] at hk
    cases hk
  have hfills : Fills test anyKind (fun t => test t.kind = true ∧ Token.Proper t.kind t.lexeme t.value)
      (Parse.take test err) := by
    obtain ⟨k, hk⟩ := hsome
    exact ⟨[.sample k], .sample k, ⟨hk, Token.sample_proper (hne hk)⟩, Leads.take hk err⟩
  refine ⟨hfills, fun {ts} hlen hts => ?_⟩
  constructor
  · intro t rest hr
    obtain ⟨rfl, ht⟩ := take_eq_ok hr
    refine ⟨⟨ht, hts.proper (hne ht)⟩, [t], rfl, ?_, Leads.take ht err, fun rest' _ => take_pos ht rest'⟩
    simpa using hne ht
  · intro e hr hended
    cases ts with
    | nil => cases hts
    | cons t ts =>
      cases ht : test t.kind with
      | true =>
        rw [take_pos ht] at hr
        cases hr
      | false =>
        rw [take_neg ht] at hr
        cases hr
        exact ⟨[], t, ts, rfl, herr t, take_neg ht, hfills, hends t⟩

theorem Good.token {k : Kind} {want : Expected} (heof : k ≠ .eof) (hends : want ≠ .vmAsmClose) :
    Good n (· == k) anyKind (fun t => t.kind = k ∧ Token.Proper t.kind t.lexeme t.value) (token k want) := by
  have herr : ∀ t, ParseError.unexpected want t ≠ .unexpected .vmAsmClose t := by
    intro t heq
    cases heq
    exact hends rfl
  have htake : Good n (· == k) anyKind _ (Parse.take (· == k) (.unexpected want)) :=
    .take (by simpa using heof.symm) ⟨k, beq_self_eq_true k⟩ (fun _ => rfl) herr
  exact htake.mono (.refl _) (.refl _) fun t ht => ⟨eq_of_beq ht.1, ht.2⟩

theorem Good.token_bind {k : Kind} {want : Expected} (h : k ≠ .eof ∧ want ≠ .vmAsmClose)
    (hyes : ∀ t, t.kind = k → Token.Proper k t.lexeme t.value → Good n G S P (yes t)) :
    Good n (· == k) S P (Parse.token k want >>= yes) := by
  refine (Good.token h.1 h.2).bind (fun t ht => ?_) (.any G)
  obtain ⟨rfl, hproper⟩ := ht
  exact hyes t rfl hproper

theorem Good.token_last {k : Kind} {want : Expected} {v : α} (h : k ≠ .eof ∧ want ≠ .vmAsmClose) (hv : P v) :
    Good n (· == k) anyKind P (do
      let _ ← Parse.token k want
      return v) :=
  .token_bind h fun _ _ _ => .pure hv

end Good

theorem shrinks_rule (f : ∀ ts : List Token, Result α ts.length) : Shrinks (rule f) := by
  intro ts v rest h
  cases hf : f ts with
  | error e =>
    rw [rule, hf] at h
    cases h
  | ok p =>
    rw [rule, hf] at h
    cases h
    exact p.rest_lt

theorem shrinks_take (test : Kind → Bool) (err : Token → ParseError) : Shrinks (take test err) := by
  intro ts t rest h
  obtain ⟨rfl, -⟩ := take_eq_ok h
  exact Nat.lt_succ_self _

end Workbench.Program.Parse
