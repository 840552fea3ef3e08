import Workbench.Compile
import Workbench.Proofs.Link
import Workbench.Proofs.Slots

/-!
# Code generation fails only over machine instructions

Generating code can go wrong: a type may be missing, and machine instructions in the program may not be
understood. For a program that was read and checked, what goes wrong first is worked out here statement by statement,
for the listing and for the code: everything else is passed over, and of the texts of machine instructions
(`Stmt.inlines`), in order, the first one that is complained about counts.

What the code generator complains about is said without it, by `Bytecode.IsInstruction` and `Bytecode.Flaw`.
Bare blocks, which no generator enters, cannot be read (`Stmt.AllRead.not_block`).
-/

open List

namespace Workbench

namespace Stmt

variable {α : Type}

mutual

/-- The texts of machine instructions in a statement. -/
def inlinesOf : Stmt α → List String
  | .vmAsm text => [text]
  | .cond _ yes none => inlines yes
  | .cond _ yes (some no) => inlines yes ++ inlines no
  | .loop _ body | .block body => inlines body
  | _ => []
termination_by structural s => s

/-- The texts of machine instructions in statements, in order. -/
def inlines : List (Stmt α) → List String
  | [] => []
  | s :: ss => inlinesOf s ++ inlines ss
termination_by structural ss => ss

end

theorem allInlineFree_iff (ss : List (Stmt α)) : allInlineFree ss = true ↔ inlines ss = [] := by
  induction ss using Stmt.parts_induction (P := fun s => inlineFree s = true ↔ inlinesOf s = []) with
  | nil => simp [allInlineFree, inlines]
  | cons s ss ihs ih => simp [allInlineFree, inlines, ihs, ih]
  | cond c yes b ihy ihn => simp [inlineFree, inlinesOf, ihy, ihn]
  | condThen c body ihb | loop c body ihb | block body ihb => simp [inlineFree, inlinesOf, ihb]
  | _ => simp [inlineFree, inlinesOf]

/-- Statements that were read, whatever is noted on them. -/
def AllRead (ss : List (Stmt α)) : Prop := ∀ s ∈ annotateAll () ss, s.Written

namespace AllRead

variable {s : Stmt α} {c : Expr α} {b b' ss : List (Stmt α)} {o : Option (List (Stmt α))}

theorem head (h : AllRead (s :: ss)) : (s.annotate ()).Written := h _ mem_cons_self

theorem tail (h : AllRead (s :: ss)) : AllRead ss := fun s hs => h s (mem_cons_of_mem _ hs)

theorem yes (h : AllRead (.cond c b o :: ss)) : AllRead b := by
  cases o <;> cases h.head with
  | cond _ hyes _ => exact hyes

theorem no (h : AllRead (.cond c b (some b') :: ss)) : AllRead b' := by
  cases h.head with
  | cond _ _ hno => exact hno _ rfl

theorem body (h : AllRead (.loop c b :: ss)) : AllRead b := by
  cases h.head with
  | loop _ hbody => exact hbody

theorem not_block : ¬AllRead (.block b :: ss) := fun h => nomatch h.head

end AllRead

end Stmt

namespace Assembly

open Typing (Note)

/-- Whatever it draws from, the generation goes wrong in this way. -/
def Gen.Fails {α : Type} (g : Gen α) (e? : Option EmitError) : Prop := ∀ p, failure? (g p) = e?

namespace Gen.Fails

variable {α β : Type} {g : Gen α} {f : α → Gen β} {a b : Option EmitError}

theorem pure (x : α) : Gen.Fails (Pure.pure x) none := fun _ => rfl

theorem bind (hg : g.Fails a) (hf : ∀ x, (f x).Fails b) : (g >>= f).Fails (a.or b) := by
  intro p
  have hrest : ∀ r : α × Pool, failure? (f r.1 r.2) = b := fun r => hf r.1 r.2
  have hbind : (g >>= f) p = g p >>= fun r => f r.1 r.2 := rfl
  rw [hbind, failure?_bind hrest, hg p]

theorem next (hg : g.Fails none) (hf : ∀ x, (f x).Fails b) : (g >>= f).Fails b := hg.bind hf

theorem map {h : α → β} (hg : g.Fails a) : Gen.Fails (g >>= fun x => Pure.pure (h x)) a := by
  have hbind := hg.bind fun x => .pure (h x)
  rwa [Option.or_none] at hbind

theorem fresh (base : String) : Gen.Fails (Assembly.fresh base) none := fun _ => rfl

theorem intern (s : String) : Gen.Fails (Assembly.intern s) none := fun _ => rfl

theorem mapM {g : α → Gen β} {c : α → Option EmitError} {as : List α} (h : ∀ a ∈ as, (g a).Fails (c a)) :
    (as.mapM g).Fails (as.findSome? c) := by
  induction as with
  | nil => exact .pure _
  | cons a as ih =>
    have hrest := ih fun b hb => h b (mem_cons_of_mem a hb)
    have hbind : (as.findSome? c |> (c a).or) = (a :: as).findSome? c := by
      rw [findSome?_cons]
      cases c a <;> rfl
    rw [mapM_cons, ← hbind]
    exact (h a mem_cons_self).bind fun _ => hrest.map

end Gen.Fails

open Gen

theorem truthLines_succeeds (j : Jump) : Fails (truthLines j) none :=
  .bind (.fresh _) fun _ => .bind (.fresh _) .pure

theorem unaryLines_succeeds (op : UnaryOp) : Fails (unaryLines op) none := by
  cases op with
  | neg => exact .pure _
  | not => exact .bind (truthLines_succeeds .e) .pure
  | other => exact .pure _

theorem arithmeticLines_succeeds (op : BinaryOp) : Fails (arithmeticLines op) none := by
  unfold arithmeticLines
  split
  case h_5 =>
    split
    · exact .bind (truthLines_succeeds _) .pure
    · exact .pure _
  all_goals exact .pure _

theorem literalLines_succeeds (v : Literal) : Fails (literalLines v) none := by
  cases v with
  | str s => exact .bind (.intern s) .pure
  | int | bool | none => exact .pure _

section Binary

variable {left right : Gen (List Line)} (hl : Fails left none) (hr : Fails right none)

include hl hr

theorem binaryLines_succeeds (op : BinaryOp) (lt rt : Ty) : Fails (binaryLines op lt rt left right) none := by
  have hcircuit : ∀ {base base' : String} {lines : String → String → List Line → List Line → List Line},
      Fails (do
        let done ← Assembly.fresh base
        let out ← Assembly.fresh base'
        let l ← left
        let r ← right
        return lines done out l r) none :=
    .bind (.fresh _) fun _ => .bind (.fresh _) fun _ => .bind hl fun _ => .bind hr .pure
  have hword : Fails (wordLines op left right) none :=
    .bind hl fun _ => .bind hr fun _ => .bind (arithmeticLines_succeeds op) .pure
  unfold binaryLines
  split
  · exact hcircuit
  · exact hcircuit
  · split
    · split
      · exact .bind hl fun _ => .bind hr fun _ => .bind (truthLines_succeeds _) .pure
      · exact hword
    · exact hword

end Binary

theorem typeOf_succeeds {e : Expr Note} {t : Ty} (h : e.note = some t) : Fails (typeOf e) none := by
  rw [typeOf, h]
  exact .pure t

theorem placed_succeeds {f : Frame} {a : Expr Note} {g : Nat → Gen (List Line)} {lines : List Line}
    (hg : ∀ k, Fails (g k) none) : Fails (match f.varOffset? a with
      | some k => g k
      | none => pure lines) none := by
  split
  · exact hg _
  · exact .pure _

theorem callLines_succeeds {f : Frame} {n : Note} {name : String} {args : List (Expr Note)}
    (h : ∀ a ∈ args, Fails (exprLines f a) none) : Fails (exprLines f (.call n name args)) none := by
  have hcopy : Fails copyLines none := .bind (.fresh _) fun _ => .bind (.fresh _) .pure
  have hfill : Fails fillLines none := .bind (.fresh _) fun _ => .bind (.fresh _) .pure
  unfold exprLines
  -- The first eight equations are not about calls.
  split <;> rename_i heq <;> cases heq
  case h_9 =>
    -- `load16`
    exact .bind (h _ (by simp)) .pure
  case h_10 | h_13 =>
    -- `store16` and `ct_eq`
    exact .bind (h _ (by simp)) fun _ => .bind (h _ (by simp)) .pure
  case h_11 =>
    -- `memcpy`
    exact .bind (h _ (by simp)) fun _ => .bind (h _ (by simp)) fun _ => .bind (h _ (by simp)) fun _ =>
      .bind hcopy .pure
  case h_12 =>
    -- `memset`
    exact .bind (h _ (by simp)) fun _ => .bind (h _ (by simp)) fun _ => .bind (h _ (by simp)) fun _ =>
      .bind hfill .pure
  case h_14 =>
    -- `ct_select`
    exact .bind (h _ (by simp)) fun _ => .bind (h _ (by simp)) fun _ => .bind (h _ (by simp)) .pure
  case h_15 =>
    -- `array_push`
    exact placed_succeeds fun k => .bind (h _ (by simp)) fun _ => .bind (h _ (by simp)) .pure
  case h_16 =>
    -- `array_pop`
    exact placed_succeeds fun k => .bind (h _ (by simp)) .pure
  case h_17 =>
    -- The arguments of other functions are left out.
    exact .pure _

theorem exprLines_succeeds {table : Typing.Signatures} {scope : Typing.Scope} (f : Frame) {e : Expr Note} {t : Ty}
    (h : Typing.HasType table scope e t) : Fails (exprLines f e) none := by
  induction h with
  | lit v => exact literalLines_succeeds v
  | var | addrVar => exact .pure _
  | unary _ _ ih => exact .bind ih fun _ => .bind (unaryLines_succeeds _) .pure
  | binary hl hr _ ihl ihr =>
    exact .bind (typeOf_succeeds hl.note_eq) fun lt => .bind (typeOf_succeeds hr.note_eq) fun rt =>
      binaryLines_succeeds ihl ihr _ lt rt
  | index _ _ _ _ ihi | addrIndex _ _ _ _ ihi => exact placed_succeeds fun k => .bind ihi .pure
  | push _ _ _ _ iha ihn ihv => exact callLines_succeeds (by simp [iha, ihn, ihv])
  | pop _ _ _ iha ihn => exact callLines_succeeds (by simp [iha, ihn])
  | call _ _ _ hlen _ ih =>
    refine callLines_succeeds fun a ha => ?_
    obtain ⟨t, hat⟩ := exists_mem_zip hlen ha
    exact ih a t hat

/-- The complaint about statements with machine instructions in them. -/
def complaint? (texts : List String) : Option EmitError := texts.findSome? fun _ => some .machineCode

theorem complaint?_append (a b : List String) : complaint? (a ++ b) = (complaint? a).or (complaint? b) :=
  findSome?_append

section Stmts

variable {table : Typing.Signatures} {f : Frame}

theorem stmtsLines_cons {s : Stmt Note} {ss : List (Stmt Note)}
    (hs : Fails (stmtLines f s) (complaint? (Stmt.inlinesOf s)))
    (hss : Fails (stmtsLines f ss) (complaint? (Stmt.inlines ss))) :
    Fails (stmtsLines f (s :: ss)) (complaint? (Stmt.inlines (s :: ss))) := by
  rw [Stmt.inlines, complaint?_append]
  exact hs.bind fun _ => hss.map

/-- Statements that were read and checked have lines, unless there are machine instructions in them. -/
theorem stmtsLines_fails {scope : Typing.Scope} {ss : List (Stmt Note)} (h : Typing.Checked table scope ss) :
    Stmt.AllRead ss → Fails (stmtsLines f ss) (complaint? (Stmt.inlines ss)) := by
  induction h with
  | nil => exact fun _ => .pure _
  | expr he _ ih => exact fun hread => stmtsLines_cons (exprLines_succeeds f he) (ih hread.tail)
  | @decl _ _ _ _ init _ _ ht _ _ ih =>
    refine fun hread => stmtsLines_cons ?_ (ih hread.tail)
    cases init with
    | none => exact .pure _
    | some e => exact (exprLines_succeeds f (ht.1 e rfl)).map
  | assignVar _ he _ ih => exact fun hread => stmtsLines_cons (exprLines_succeeds f he).map (ih hread.tail)
  | assignIndex _ _ hi he _ ih =>
    refine fun hread => stmtsLines_cons (placed_succeeds fun k => ?_) (ih hread.tail)
    exact .next (exprLines_succeeds f he) fun _ => (exprLines_succeeds f hi).map
  | print he _ _ ih =>
    refine fun hread => stmtsLines_cons ?_ (ih hread.tail)
    exact .next (exprLines_succeeds f he) fun _ => (typeOf_succeeds he.note_eq).map
  | @ret _ value _ he _ ih =>
    refine fun hread => stmtsLines_cons ?_ (ih hread.tail)
    cases value with
    | none => exact .pure _
    | some e =>
      obtain ⟨t, ht⟩ := he e rfl
      exact (exprLines_succeeds f ht).map
  | asm _ ih => exact fun hread => stmtsLines_cons (.pure _) (ih hread.tail)
  | vmAsm _ ih => exact fun hread => stmtsLines_cons (fun _ => rfl) (ih hread.tail)
  | @cond _ _ _ no _ _ he _ _ _ ihy ihn ih =>
    refine fun hread => stmtsLines_cons ?_ (ih hread.tail)
    have hthen := ihy hread.yes
    cases no with
    | none =>
      exact .next (.fresh _) fun _ => .next (.fresh _) fun _ => .next (exprLines_succeeds f he) fun _ => hthen.map
    | some b =>
      rw [Stmt.inlinesOf, complaint?_append]
      exact .next (.fresh _) fun _ => .next (.fresh _) fun _ => .next (exprLines_succeeds f he) fun _ =>
        hthen.bind fun _ => (ihn b rfl hread.no).map
  | loop he _ _ ihb ih =>
    refine fun hread => stmtsLines_cons ?_ (ih hread.tail)
    exact .next (.fresh _) fun _ => .next (.fresh _) fun _ => .next (exprLines_succeeds f he) fun _ =>
      (ihb hread.body).map
  | block => exact fun hread => absurd hread Stmt.AllRead.not_block

end Stmts

/-- Of a program that was read and checked, the first function with machine instructions is complained about. -/
theorem emit_failure {prog : Program Note} (hacc : Typing.Accepted prog)
    (hread : ∀ f ∈ prog.functions, Stmt.AllRead f.body) :
    failure? (emit prog) = prog.functions.findSome? fun f => complaint? (Stmt.inlines f.body) := by
  have hlines : ∀ f ∈ prog.functions, Fails (functionLines f) (complaint? (Stmt.inlines f.body)) := by
    intro f hf
    obtain ⟨scope, -, hbody⟩ := (hacc.checked f hf).body
    exact (stmtsLines_fails hbody (hread f hf)).map
  rw [← Gen.Fails.mapM hlines {}]
  unfold emit
  rw [failure?_bind (o := none) fun _ => rfl, Option.or_none]
  rfl

theorem complaint?_eq_some {texts : List String} {e : EmitError} (h : complaint? texts = some e) : e = .machineCode := by
  obtain ⟨_, _, he⟩ := exists_of_findSome?_eq_some h
  cases he
  rfl

theorem complaint?_eq_none {texts : List String} : complaint? texts = none ↔ texts = [] := by
  cases texts <;> simp [complaint?]

end Assembly

namespace Bytecode

open Typing (Note)

/-! ### Machine instructions in a program -/

/-- The variables that machine instructions of a function can name: its parameters and what it declares. -/
def localNames {α : Type} (f : Function α) : List String := (Slots.declsOf f).map (·.1)

def writtenLines (text : String) : List String := (Text.lines text).filter fun line => !(inlineWords line).isEmpty

/-- The words of machine instructions. `xs` are the variables that can be named. -/
inductive IsInstruction (xs : List String) : List String → Prop
  | plain {word : String} (h : word ∈ plainInstructions.map (·.1)) : IsInstruction xs [word]
  | pushInt {arg : String} (h : (Text.readMarkedInt? arg).isSome = true) : IsInstruction xs ["push_int", arg]
  | loadLocal {x : String} (h : x ∈ xs) : IsInstruction xs ["load_local", x]
  | storeLocal {x : String} (h : x ∈ xs) : IsInstruction xs ["store_local", x]

/-- What is wrong with the words of a line. -/
inductive Flaw (xs : List String) (line : String) : List String → EmitError → Prop
  | operand {arg : String} (h : Text.readMarkedInt? arg = none) : Flaw xs line ["push_int", arg] (.badOperand arg)
  | load {x : String} (h : x ∉ xs) : Flaw xs line ["load_local", x] (.loadUnknown x)
  | store {x : String} (h : x ∉ xs) : Flaw xs line ["store_local", x] (.storeUnknown x)
  | word {word : String} (h : word ∉ plainInstructions.map (·.1)) : Flaw xs line [word] (.malformed line)
  | pair {word arg : String} (h : word ∉ ["push_int", "load_local", "store_local"]) :
      Flaw xs line [word, arg] (.malformed line)
  | long {a b c : String} {rest : List String} : Flaw xs line (a :: b :: c :: rest) (.malformed line)

theorem Flaw.ne_untyped {xs ws : List String} {line : String} {e : EmitError} (h : Flaw xs line ws e) : e ≠ .untyped := by
  cases h <;> exact nofun

theorem Flaw.not_isInstruction {xs ws : List String} {line : String} {e : EmitError} (h : Flaw xs line ws e) :
    ¬IsInstruction xs ws := by
  intro hinstr
  cases h with
  | operand h =>
    generalize hws : ["push_int", _] = ws at hinstr
    cases hinstr <;> simp_all
  | load h =>
    generalize hws : ["load_local", _] = ws at hinstr
    cases hinstr <;> simp_all
  | store h =>
    generalize hws : ["store_local", _] = ws at hinstr
    cases hinstr <;> simp_all
  | word h =>
    cases hinstr with
    | plain h' => exact h h'
  | pair h =>
    cases hinstr <;> simp at h
  | long => cases hinstr

theorem isSome_lookup_iff (word : String) :
    (plainInstructions.lookup word).isSome = true ↔ word ∈ plainInstructions.map (·.1) := by
  rw [lookup_isSome_iff, mem_map]
  constructor
  · rintro ⟨d, hd, heq⟩
    exact ⟨d, hd, (beq_iff_eq.1 heq).symm⟩
  · rintro ⟨d, hd, rfl⟩
    exact ⟨d, hd, beq_self_eq_true _⟩

section Instr

variable {slots : Slots} {xs : List String} (hxs : ∀ x, (slots.cell? x).isSome = true ↔ x ∈ xs) (line : String)

include hxs

variable {ws : List String}

/-- Words either denote an instruction or have the flaw that is reported. -/
theorem inlineInstr_cases (hws : ws ≠ []) : (∃ i, inlineInstr slots line ws = .ok i) ∧ IsInstruction xs ws ∨
      ∃ e, inlineInstr slots line ws = .error e ∧ Flaw xs line ws e := by
  match ws, hws with
  | [word], _ =>
    have hplain := isSome_lookup_iff word
    rw [inlineInstr]
    cases hword : plainInstructions.lookup word with
    | some op =>
      rw [hword] at hplain
      exact .inl ⟨⟨_, rfl⟩, .plain (hplain.1 rfl)⟩
    | none =>
      rw [hword] at hplain
      exact .inr ⟨_, rfl, .word fun h => nomatch hplain.2 h⟩
  | [word, arg], _ =>
    have hcell := hxs arg
    unfold inlineInstr
    dsimp only
    split
    case isTrue hword =>
      obtain rfl := beq_iff_eq.1 hword
      cases harg : Text.readMarkedInt? arg with
      | some n => exact .inl ⟨⟨_, rfl⟩, .pushInt (by simp [harg])⟩
      | none => exact .inr ⟨_, rfl, .operand harg⟩
    case isFalse hpush =>
      split
      case isTrue hword =>
        obtain rfl := beq_iff_eq.1 hword
        cases harg : slots.cell? arg with
        | some k =>
          rw [harg] at hcell
          exact .inl ⟨⟨_, rfl⟩, .loadLocal (hcell.1 rfl)⟩
        | none =>
          rw [harg] at hcell
          exact .inr ⟨_, rfl, .load fun h => nomatch hcell.2 h⟩
      case isFalse hload =>
        split
        case isTrue hword =>
          obtain rfl := beq_iff_eq.1 hword
          cases harg : slots.cell? arg with
          | some k =>
            rw [harg] at hcell
            exact .inl ⟨⟨_, rfl⟩, .storeLocal (hcell.1 rfl)⟩
          | none =>
            rw [harg] at hcell
            exact .inr ⟨_, rfl, .store fun h => nomatch hcell.2 h⟩
        case isFalse hstore =>
          refine .inr ⟨_, rfl, .pair fun h => ?_⟩
          simp_all
  | a :: b :: c :: rest, _ => exact .inr ⟨_, rfl, .long⟩

theorem failure?_inlineInstr_eq_none (hws : ws ≠ []) :
    failure? (inlineInstr slots line ws) = none ↔ IsInstruction xs ws := by
  rcases inlineInstr_cases hxs line hws with ⟨⟨i, hi⟩, hinstr⟩ | ⟨e, he, hflaw⟩
  · rw [hi]
    exact ⟨fun _ => hinstr, fun _ => rfl⟩
  · rw [he]
    exact ⟨nofun, fun hinstr => absurd hinstr hflaw.not_isInstruction⟩

theorem flaw_of_failure {e : EmitError} (hws : ws ≠ []) (h : failure? (inlineInstr slots line ws) = some e) :
    Flaw xs line ws e := by
  rcases inlineInstr_cases hxs line hws with ⟨⟨i, hi⟩, -⟩ | ⟨e', he, hflaw⟩
  · rw [hi] at h
    cases h
  · rw [he] at h
    cases h
    exact hflaw

end Instr

theorem inlineWords_ne_nil {text line : String} (h : line ∈ writtenLines text) : inlineWords line ≠ [] := by
  intro hnil
  have hwords := (mem_filter.1 h).2
  rw [hnil] at hwords
  cases hwords

theorem failure?_inlineCode (slots : Slots) (text : String) : failure? (inlineCode slots text) =
    (writtenLines text).findSome? fun line => failure? (inlineInstr slots line (inlineWords line)) := failure?_mapM _ _

section Stmts

variable {table : Typing.Signatures}

/-- The first complaint about texts of machine instructions. -/
def complaint? (slots : Slots) (texts : List String) : Option EmitError :=
  texts.findSome? fun text => failure? (inlineCode slots text)

theorem complaint?_append (slots : Slots) (a b : List String) :
    complaint? slots (a ++ b) = (complaint? slots a).or (complaint? slots b) := findSome?_append

/-- Statements that were read and checked have code, unless something is wrong with machine instructions in them. -/
theorem obstacle?_eq_complaint? {slots : Slots} {scope : Typing.Scope} {ss : List (Stmt Note)}
    (h : Typing.Checked table scope ss) : Stmt.AllRead ss → obstacle? slots ss = complaint? slots (Stmt.inlines ss) := by
  induction h with
  | nil => exact fun _ => rfl
  | expr _ _ ih | decl _ _ _ ih | assignVar _ _ _ ih | assignIndex _ _ _ _ _ ih | ret _ _ ih | asm _ ih =>
    exact fun hread => ih hread.tail
  | print he _ _ ih =>
    intro hread
    rw [obstacle?, obstacleOf?, he.note_eq]
    exact ih hread.tail
  | vmAsm _ ih =>
    intro hread
    rw [obstacle?, obstacleOf?, Stmt.inlines, complaint?_append, ih hread.tail, Stmt.inlinesOf]
    simp only [complaint?, findSome?_singleton]
  | @cond _ _ _ no _ _ _ _ _ _ ihy ihn ih =>
    intro hread
    rw [obstacle?, Stmt.inlines, complaint?_append, ih hread.tail]
    cases no with
    | none => rw [obstacleOf?, Stmt.inlinesOf, ihy hread.yes]
    | some no => rw [obstacleOf?, Stmt.inlinesOf, complaint?_append, ihy hread.yes, ihn no rfl hread.no]
  | loop _ _ _ ihb ih =>
    intro hread
    rw [obstacle?, Stmt.inlines, complaint?_append, ih hread.tail, obstacleOf?, Stmt.inlinesOf, ihb hread.body]
  | block => exact fun hread => absurd hread Stmt.AllRead.not_block

end Stmts

/-- Of a program that was read and checked, the first line that is no machine instruction is complained about. -/
theorem emit_failure {prog : Program Note} (hacc : Typing.Accepted prog)
    (hread : ∀ f ∈ prog.functions, Stmt.AllRead f.body) :
    failure? (emit prog) =
      prog.functions.findSome? fun f => complaint? (Slots.ofFunction f) (Stmt.inlines f.body) := by
  have hcomplaint : ∀ f ∈ prog.functions,
      obstacle? (.ofFunction f) f.body = complaint? (.ofFunction f) (Stmt.inlines f.body) := by
    intro f hf
    obtain ⟨scope, -, hbody⟩ := (hacc.checked f hf).body
    exact obstacle?_eq_complaint? hbody (hread f hf)
  rw [failure?_emit, ← head?_filterMap, ← head?_filterMap, filterMap_congr hcomplaint]

section Complaints

variable {f : Function Note} {texts : List String}

theorem complaint?_eq_none : complaint? (Slots.ofFunction f) texts = none ↔
    ∀ text ∈ texts, ∀ line ∈ writtenLines text, IsInstruction (localNames f) (inlineWords line) := by
  simp only [complaint?, findSome?_eq_none_iff, failure?_inlineCode]
  refine forall₂_congr fun text _ => forall₂_congr fun line hline => ?_
  exact failure?_inlineInstr_eq_none (Slots.isSome_cell?_iff f) line (inlineWords_ne_nil hline)

end Complaints

end Bytecode

/-! ### Accepted source texts -/

section Source

variable {source : String} {prog : Program Typing.Note}

theorem allRead_of_source (h : checkedProgram source = .ok prog) : ∀ f ∈ prog.functions, Stmt.AllRead f.body := by
  simp only [checkedProgram, bind_eq_ok, mapError_eq_ok] at h
  obtain ⟨ts, hts, p, hp, hcheck⟩ := h
  have hwritten := Program.Parse.parse_written hts hp
  rw [← (Typing.check_iff.1 hcheck).1] at hwritten
  intro f hf
  exact (hwritten _ (mem_map_of_mem hf)).body

/-- Code generation goes wrong over an accepted source text only because of machine instructions in it. There is a
listing if and only if there are none; there is code if and only if each line of them is an instruction, and what is
reported otherwise is wrong with one of the lines. -/
theorem accepted_generates (h : checkedProgram source = .ok prog) :
    ((∃ listing, Assembly.emit prog = .ok listing) ↔ prog.inlineFree = true) ∧
    (∀ e, Assembly.emit prog = .error e → e = .machineCode) ∧
    ((∃ obj, Bytecode.emit prog = .ok obj) ↔
      ∀ f ∈ prog.functions, ∀ text ∈ Stmt.inlines f.body, ∀ line ∈ Bytecode.writtenLines text,
        Bytecode.IsInstruction (Bytecode.localNames f) (Bytecode.inlineWords line)) ∧
    (∀ e, Bytecode.emit prog = .error e → e ≠ .untyped ∧
      ∃ f ∈ prog.functions, ∃ text ∈ Stmt.inlines f.body, ∃ line ∈ Bytecode.writtenLines text,
        Bytecode.Flaw (Bytecode.localNames f) line (Bytecode.inlineWords line) e) ∧
    ∀ f ∈ prog.functions,
      (∀ d ∈ Stmt.decls f.body, ((Bytecode.Slots.ofFunction f).cell? d.1).isSome = true) ∧
      ∀ x, ((Bytecode.Slots.ofFunction f).length? x).isSome = true →
        ((Bytecode.Slots.ofFunction f).cell? x).isSome = true := by
  have hacc := Bytecode.accepted_of_source h
  have hread := allRead_of_source h
  have hlisting := Assembly.emit_failure hacc hread
  have hcode := Bytecode.emit_failure hacc hread
  refine ⟨?_, fun e he => ?_, ?_, fun e he => ?_, fun f hf => ⟨fun d hd => ?_, fun x hx => ?_⟩⟩
  · rw [← failure?_eq_none, hlisting, List.findSome?_eq_none_iff]
    simp only [Program.inlineFree, List.all_eq_true, Assembly.complaint?_eq_none, Stmt.allInlineFree_iff]
  · rw [← failure?_eq_some, hlisting] at he
    obtain ⟨f, -, hf⟩ := List.exists_of_findSome?_eq_some he
    exact Assembly.complaint?_eq_some hf
  · rw [← failure?_eq_none, hcode, List.findSome?_eq_none_iff]
    simp only [Bytecode.complaint?_eq_none]
  · rw [← failure?_eq_some, hcode] at he
    obtain ⟨f, hf, hcomplaint⟩ := List.exists_of_findSome?_eq_some he
    obtain ⟨text, htext, he⟩ := List.exists_of_findSome?_eq_some hcomplaint
    rw [Bytecode.failure?_inlineCode] at he
    obtain ⟨line, hline, he⟩ := List.exists_of_findSome?_eq_some he
    have hflaw := Bytecode.flaw_of_failure (Bytecode.Slots.isSome_cell?_iff f) line (Bytecode.inlineWords_ne_nil hline) he
    exact ⟨hflaw.ne_untyped, f, hf, text, htext, line, hline, hflaw⟩
  · rw [Bytecode.Slots.isSome_cell?_iff]
    exact List.mem_map_of_mem (List.mem_append_right _ hd)
  · cases hcell : (Bytecode.Slots.ofFunction f).cell? x with
    | some k => rfl
    | none =>
      rw [(Bytecode.Slots.sound_ofFunction f).arrays x hcell] at hx
      cases hx

/-- Machine instructions in a loop that name a variable of another function. -/
def strayStore : String :=
  "fn id(j: int): int \x7b return j; \x7d fn main(): int \x7b let i: int = 2; " ++
  "while (0 < i) \x7b vm_asm \x7b load_local i; push_int 0x1; sub; store_local j; \x7d \x7d return i; \x7d"

theorem strayStore_generates : ∃ prog, checkedProgram strayStore = .ok prog ∧
    (¬∃ listing, Assembly.emit prog = .ok listing) ∧ Bytecode.emit prog = .error (.storeUnknown "j") ∧
    ∃ f ∈ prog.functions, ∃ text ∈ Stmt.inlines f.body, ∃ line ∈ Bytecode.writtenLines text,
      Bytecode.Flaw (Bytecode.localNames f) line (Bytecode.inlineWords line) (.storeUnknown "j") := by
  obtain ⟨prog, hprog, hfree, h⟩ : ∃ prog, checkedProgram strayStore = .ok prog ∧ prog.inlineFree = false ∧
      failure? (Bytecode.emit prog) = some (.storeUnknown "j") := by decide +kernel
  rw [failure?_eq_some] at h
  obtain ⟨hlisting, -, -, hcode, -⟩ := accepted_generates hprog
  refine ⟨prog, hprog, fun hex => ?_, h, (hcode _ h).2⟩
  exact absurd ((hlisting.1 hex).symm.trans hfree) nofun

end Source

end Workbench
