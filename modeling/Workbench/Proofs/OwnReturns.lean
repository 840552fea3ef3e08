import Workbench.Proofs.CallFree
import Workbench.Proofs.Isolation
import Workbench.Proofs.StatementSites

/-!
# Functions with a result end by their own returns

A function with a result has a return among the statements of its body, not only inside them. The jumps of the
statements before it lead at most to its value, and the values of returns have no jumps past their end
(`exists_front`). So control of the function never gets past that return (`Image.Confined.frames`), and the code that
ends the function after its body is never fetched. Returns that are carried out are those of return statements
(`exists_return`), since nothing else in the body is a return.
-/

open List

namespace Workbench.Machine

/-- Control of the function with the number `k` stays at the places of `P`. -/
structure Image.Confined (img : Image) (k : Nat) (P : Int → Prop) : Prop where
  entry : ∀ f, img.functions[k]? = some f → P f.entry
  jump : ∀ pc i target, P pc → img.fetch pc = .ok i → i.op = .jmp ∨ i.op = .jz ∨ i.op = .jnz →
    i.arg = some target → P target
  next : ∀ pc i, P pc → img.fetch pc = .ok i → i.op ≠ .jmp → i.op ≠ .ret → P (pc + 1)

/-- In a run, every frame of a function is where control of the function stays. -/
theorem Image.Confined.frames {img : Image} {k : Nat} {P : Int → Prop} (h : img.Confined k P) {s : State}
    {ks : List Nat} (ha : img.Active s ks) : List.Forall₂ (fun j fr => j = k → P fr.pc) ks s.frames := by
  induction ha with
  | start hm hk =>
    refine .cons ?_ .nil
    rintro rfl
    exact h.entry _ hk
  | call _ hi hop harg hk hs ih =>
    obtain ⟨n, j, f, cells, harg', hj, hf, -, hframes⟩ := frames_call hi hs hop
    obtain rfl : _ = n := by simpa using harg.symm.trans harg'
    obtain rfl : _ = j := by simpa using hk.symm.trans hj
    rw [hframes]
    cases ih with
    | cons hcaller hcallers =>
      refine .cons ?_ (.cons (fun heq => h.next _ _ (hcaller heq) hi (by simp [hop]) (by simp [hop])) hcallers)
      rintro rfl
      exact h.entry f hf
  | ret _ hi hop hs ih =>
    rw [frames_ret hi hs hop]
    cases ih with
    | cons _ hcallers => exact hcallers
  | other _ hi hcall hret hs ih =>
    obtain ⟨⟨pc, cells⟩, hframes, -, hpc⟩ := frames_other hi hs hcall hret
    rw [hframes]
    cases ih with
    | cons hcurrent hcallers =>
      refine .cons (fun heq => ?_) hcallers
      rcases hpc with ⟨hpc, hjmp⟩ | ⟨harg, hop⟩
      · cases hpc
        exact h.next _ _ (hcurrent heq) hi hjmp hret
      · exact h.jump _ _ _ (hcurrent heq) hi hop harg

/-- The functions of a sealed image stand in the order of their numbers. -/
theorem Image.Sealed.entryOf_le {img : Image} (h : img.Sealed) {a b : Nat} (hab : a ≤ b)
    (hb : b ≤ img.functions.size) : img.entryOf a ≤ img.entryOf b := by
  induction b, hab using Nat.le_induction with
  | base => exact Int.le_refl _
  | succ b _ ih =>
    have hf := Array.getElem?_eq_getElem (show b < img.functions.size by omega)
    have hentry : img.entryOf b = img.functions[b].entry := by rw [Image.entryOf, hf]; rfl
    have hle := ih (by omega)
    have hlt := (h.entry b _ hf).1
    omega

end Workbench.Machine

namespace Workbench.Bytecode

open Machine (Instr Op Image)
open Typing (Note Signatures)

/-! ### Returns in the code of statements -/

def Piece.Stays (c : Piece) : Prop := ∀ i ∈ c.code, i.op ≠ .ret

namespace Piece.Stays

variable {a b : Piece}

theorem append (ha : a.Stays) (hb : b.Stays) : (a ++ b).Stays := forall_mem_append.2 ⟨ha, hb⟩

theorem arg {o : Op} (ho : o ≠ .ret) (n : Int) : (Piece.arg o n).Stays := forall_mem_singleton.2 ho

theorem ofPlain {is : List Instr} (h : ∀ i ∈ is, i.op.isPlain = true) : (Piece.ofCode is).Stays := by
  intro i hi hret
  have hplain := h i hi
  rw [hret] at hplain
  cases hplain

theorem expr {α : Type} (env : Env) (p : Place) (e : Expr α) : (exprCode env p e).Stays := by
  have hclosed : env.view.Closed (fun i => i.op.isPlain = true) fun s => ∀ p, (s.code env.number p).Stays :=
    { skip := fun _ => ofPlain (by simp)
      instr := fun i hi _ => ofPlain (by simpa using hi)
      call := fun f _ p => .arg (by simp) _
      seq := fun ha hb p => (ha p).append (hb _)
      circuit := fun {d _} ha p => by
        have hjump : Shape.jumpOn d ≠ .ret := by cases d <;> simp [Shape.jumpOn]
        exact .append (.append (.append (.append (.append (.arg hjump _) (ha _)) (.arg hjump _)) (.arg (by simp) _))
          (.arg (by simp) _)) (.arg (by simp) _) }
  rw [exprCode_eq env.numbered]
  exact hclosed.expr_of_plain (fun _ _ => forall_mem_singleton.2 (by simp)) e p

theorem test {α : Type} (env : Env) (p : Place) (e : Expr α) (target : Int) :
    (exprCode env p e ++ .arg .jz target).Stays :=
  .append (.expr env p e) (.arg (by simp) target)

theorem decl (env : Env) (p : Place) (x : String) (init : Option (Expr Note)) : (declCode env p x init).Stays := by
  unfold declCode
  dsimp only
  split
  · refine ofPlain fun i hi => ?_
    obtain ⟨k, -, hk⟩ := mem_flatMap.1 hi
    rcases mem_cons.1 hk with rfl | hk
    · rfl
    · rw [mem_singleton.1 hk]
      rfl
  · cases init with
    | none => exact .append (.arg (by simp) _) (.arg (by simp) _)
    | some e => exact .append (.expr env p e) (.arg (by simp) _)

theorem assign (env : Env) (p : Place) (target value : Expr Note) : (assignCode env p target value).Stays := by
  have hnone : (Piece.ofCode []).Stays := ofPlain (by simp)
  unfold assignCode
  split
  · split
    · exact .append (.expr env p value) (.arg (by simp) _)
    · exact hnone
  · split
    · exact .append (.append (.expr env p value) (.expr env _ _)) (.arg (by simp) _)
    · exact hnone
  · exact hnone

theorem print {env : Env} {p : Place} {newline : Bool} {e : Expr Note} {c : Piece}
    (h : stmtCode env p (.print newline e) = .ok c) : c.Stays := by
  rw [stmtCode] at h
  split at h
  · rename_i t _
    cases h
    refine .append (.expr env p e) (forall_mem_singleton.2 ?_)
    cases newline <;> by_cases ht : t = .str <;> simp [printOp, ht]
  · cases h

theorem inline {env : Env} {p : Place} {text : String} {c : Piece} (h : stmtCode env p (.vmAsm text) = .ok c) :
    c.Stays := by
  simp only [stmtCode, bind_eq_ok, pure_eq_ok] at h
  obtain ⟨is, his, rfl⟩ := h
  refine ofPlain fun i hi => ?_
  obtain ⟨line, -, hline⟩ := exists_of_mapM_ok his i hi
  have hemits : env.slots.Emits True (inlineTarget? line).toList [] i :=
    emits_inlineInstr trivial (List.Subset.refl _) hline
  exact hemits.isPlain

end Piece.Stays

theorem Place.after_arg (p : Place) (o : Op) (n : Int) : p.after (.arg o n) = p.skip 1 := rfl

/-- The instruction before `pc` is the return of one of the return statements among `xs`. -/
def ReturnsBefore (env : Env) (xs : List (Place × Stmt Note)) (pc : Nat) : Prop :=
  ∃ q value c, (q, Stmt.ret value) ∈ xs ∧ stmtCode env q (.ret value) = .ok c ∧ pc = (q.after c).pc

/-- The returns in the code at `p` are those of the return statements among `xs`. -/
def ReturnsOf (env : Env) (xs : List (Place × Stmt Note)) (p : Place) (c : Piece) : Prop :=
  ∀ d i, c.code[d]? = some i → i.op = .ret → ReturnsBefore env xs (p.pc + d + 1)

section Returns

variable {env : Env} {p : Place} {a b c : Piece} {xs ys : List (Place × Stmt Note)} {s : Stmt Note}
  {ss : List (Stmt Note)}

theorem ReturnsOf.mono (h : ReturnsOf env xs p c) (hsub : xs ⊆ ys) : ReturnsOf env ys p c := by
  intro d i hi hop
  obtain ⟨q, value, cs, hmem, hcs, heq⟩ := h d i hi hop
  exact ⟨q, value, cs, hsub hmem, hcs, heq⟩

theorem Piece.Stays.returnsOf (h : c.Stays) : ReturnsOf env xs p c :=
  fun _ i hi hop => absurd hop (h i (mem_of_getElem? hi))

theorem ReturnsOf.append (ha : ReturnsOf env xs p a) (hb : ReturnsOf env xs (p.after a) b) :
    ReturnsOf env xs p (a ++ b) := by
  intro d i hi hop
  rw [Piece.code_append] at hi
  rcases Nat.lt_or_ge d a.code.length with hd | hd
  · rw [getElem?_append_left hd] at hi
    exact ha d i hi hop
  · rw [getElem?_append_right hd] at hi
    have hreturns := hb _ i hi hop
    rwa [Place.after_pc, show p.pc + a.code.length + (d - a.code.length) + 1 = p.pc + d + 1 by omega] at hreturns

theorem returnsOf_ret {value : Option (Expr Note)} (h : stmtCode env p (.ret value) = .ok c) :
    ReturnsOf env [(p, .ret value)] p c := by
  obtain ⟨front, hfront, rfl⟩ : ∃ front : Piece, front.Stays ∧ c = front ++ .op .ret := by
    cases value with
    | none => exact ⟨.push 0, .arg (by simp) 0, by cases h; rfl⟩
    | some e => exact ⟨exprCode env p e, .expr env p e, by cases h; rfl⟩
  intro d i hi hop
  refine ⟨p, value, _, mem_singleton.2 rfl, h, ?_⟩
  have hlast : d = front.code.length := by
    rcases Nat.lt_trichotomy d front.code.length with hd | hd | hd
    · rw [Piece.code_append, getElem?_append_left hd] at hi
      exact absurd hop (hfront i (mem_of_getElem? hi))
    · exact hd
    · have hlt := (List.getElem?_eq_some_iff.1 hi).1
      simp at hlt
      omega
  simp [hlast, Nat.add_assoc]

/-- All returns in the code of statements are those of return statements among them or inside them. -/
theorem exists_return (ss : List (Stmt Note)) :
    ∀ p c, stmtsCode env p ss = .ok c → ReturnsOf env (sites env p ss) p c := by
  induction ss using Stmt.parts_induction (P := fun s => ∀ p c, stmtCode env p s = .ok c →
      ReturnsOf env (sitesOf env p s) p c) with
  | nil =>
    intro p c h
    cases h
    exact (Piece.Stays.ofPlain (by simp)).returnsOf
  | cons s ss ihs ih =>
    intro p c h
    simp only [stmtsCode, bind_eq_ok, pure_eq_ok] at h
    obtain ⟨cs, hs, css, hss, rfl⟩ := h
    rw [sites, codeOf_eq hs]
    exact ((ihs p cs hs).mono (subset_append_left _ _)).append
      ((ih _ css hss).mono (subset_append_right _ _))
  | expr e p c h =>
    cases h
    exact (Piece.Stays.expr env p e).returnsOf
  | decl x t init p c h =>
    cases h
    exact (Piece.Stays.decl env p x init).returnsOf
  | assign t v p c h =>
    cases h
    exact (Piece.Stays.assign env p t v).returnsOf
  | print nl e p c h => exact (Piece.Stays.print h).returnsOf
  | asm _ p c h | block _ _ p c h =>
    cases h
    exact (Piece.Stays.ofPlain (by simp)).returnsOf
  | vmAsm text p c h => exact (Piece.Stays.inline h).returnsOf
  | ret value p c h => exact returnsOf_ret h
  | condThen test yes ihy p c h =>
    simp only [stmtCode, bind_eq_ok, pure_eq_ok] at h
    obtain ⟨cy, hy, cn, rfl, rfl⟩ := h
    rw [sitesOf]
    refine .append (.append (.append (Piece.Stays.test env p test _).returnsOf ?_)
      (Piece.Stays.arg (by simp) _).returnsOf) (Piece.Stays.ofPlain (by simp)).returnsOf
    rw [Place.after_append, Place.after_arg]
    exact (ihy _ cy hy).mono (subset_cons_self _ _)
  | cond test yes no ihy ihn p c h =>
    simp only [stmtCode, bind_eq_ok, pure_eq_ok] at h
    obtain ⟨cy, hy, cn, hn, rfl⟩ := h
    rw [sitesOf, codeOfAll_eq hy]
    refine .append (.append (.append (Piece.Stays.test env p test _).returnsOf ?_)
      (Piece.Stays.arg (by simp) _).returnsOf) ?_
    · rw [Place.after_append, Place.after_arg]
      exact (ihy _ cy hy).mono fun x hx => by simp [hx]
    · simp only [Place.after_append]
      exact (ihn _ cn hn).mono fun x hx => by simp [hx]
  | loop test body ihb p c h =>
    simp only [stmtCode, bind_eq_ok, pure_eq_ok] at h
    obtain ⟨cb, hb, rfl⟩ := h
    rw [sitesOf]
    refine .append (.append (Piece.Stays.test env p test _).returnsOf ?_) (Piece.Stays.arg (by simp) _).returnsOf
    rw [Place.after_append, Place.after_arg]
    exact (ihb _ cb hb).mono (subset_cons_self _ _)

end Returns

/-! ### Code before a return -/

def JumpsWithin (lo hi : Nat) (code : List Instr) : Prop :=
  ∀ i ∈ code, i.op = .jmp ∨ i.op = .jz ∨ i.op = .jnz →
    ∃ target : Nat, i.arg = some (target : Int) ∧ lo ≤ target ∧ target ≤ hi

section Front

variable {env : Env} {p : Place} {c : Piece} {lo hi lo' hi' : Nat} {code code' : List Instr}

theorem JumpsWithin.mono (h : JumpsWithin lo hi code) (hlo : lo' ≤ lo) (hhi : hi ≤ hi') : JumpsWithin lo' hi' code := by
  intro i hi hop
  obtain ⟨target, harg, hle, hge⟩ := h i hi hop
  exact ⟨target, harg, hlo.trans hle, hge.trans hhi⟩

theorem Shape.all_true (s : Shape) : s.All fun _ => True := by
  induction s with
  | skip | instr | text | say | call | ret => trivial
  | seq _ _ iha ihb | branch _ _ iha ihb | loop _ _ iha ihb => exact ⟨iha, ihb⟩
  | circuit _ _ ih | drop _ ih => exact ih

/-- The jumps in the code of a shape lead at most to its end. -/
theorem Shape.jumpsWithin (number : String → Nat) {s : Shape} (hfits : s.Fits fun _ => True) (p : Place) :
    JumpsWithin p.pc (p.after (s.code number p)).pc (s.code number p).code := by
  intro i hi hop
  cases Shape.written number s.all_true hfits p.pc p.string i hi with
  | plain hplain => rcases hop with hop | hop | hop <;> simp [hop, Op.isPlain] at hplain
  | jump _ hlo hhi => exact ⟨_, rfl, hlo, hhi⟩
  | print newline => cases newline <;> simp [printOp] at hop
  | push | call | ret => simp at hop

theorem jumpsWithin_stmt {s : Stmt Note} (h : stmtCode env p s = .ok c) : JumpsWithin p.pc (p.after c).pc c.code := by
  have hcode : stmtsCode env p [s] = .ok (c ++ .ofCode []) := by
    simp only [stmtsCode, bind_eq_ok]
    exact ⟨c, h, _, rfl, rfl⟩
  have hfits : (env.view.stmts [s]).Fits fun _ => True := View.stmts_fits (fun _ _ => trivial) _
  have hjumps := Shape.jumpsWithin env.number hfits p
  rw [← stmtsCode_eq env.numbered _ _ _ hcode] at hjumps
  simpa using hjumps

/-- Where one of the statements is a return, the jumps before it lead at most to it. -/
theorem exists_front {ss : List (Stmt Note)} (hret : ss.any Stmt.isReturn = true) :
    ∀ {p c}, stmtsCode env p ss = .ok c → ∃ front back, c.code = front ++ ⟨.ret, none⟩ :: back ∧
      JumpsWithin p.pc (p.pc + front.length) front := by
  induction ss with
  | nil => cases hret
  | cons s ss ih =>
    intro p c h
    simp only [stmtsCode, bind_eq_ok, pure_eq_ok] at h
    obtain ⟨cs, hs, css, hss, rfl⟩ := h
    by_cases hhere : s.isReturn = true
    · cases s with
      | ret value =>
        cases value with
        | none =>
          cases hs
          refine ⟨[⟨.pushInt, some 0⟩], css.code, rfl, ?_⟩
          simp [JumpsWithin]
        | some e =>
          cases hs
          refine ⟨(exprCode env p e).code, css.code, by simp, ?_⟩
          rw [exprCode_eq env.numbered]
          exact Shape.jumpsWithin env.number (View.expr_fits (fun _ _ => trivial) e) p
      | _ => cases hhere
    · rw [any_cons, Bool.eq_false_iff.2 hhere, Bool.false_or] at hret
      obtain ⟨front, back, hcode, hjumps⟩ := ih hret hss
      refine ⟨cs.code ++ front, back, by simp [hcode], ?_⟩
      rw [Place.after_pc] at hjumps
      rw [length_append, ← Nat.add_assoc]
      exact forall_mem_append.2 ⟨(jumpsWithin_stmt hs).mono le_rfl (Nat.le_add_right _ _),
        hjumps.mono (Nat.le_add_right _ _) le_rfl⟩

end Front

/-- Control of a function stays before the first return among the statements of its body. -/
theorem Stands.confined {img : Image} {k : Nat} {f : Function Note} {env : Env} {p : Place} {body : Piece}
    (h : Stands img k f env p body) (hret : f.body.any Stmt.isReturn = true) :
    ∃ n < body.code.length, img.Confined k fun pc => (p.pc : Int) ≤ pc ∧ pc ≤ (p.pc + n : Nat) := by
  obtain ⟨front, back, hcode, hjumps⟩ := exists_front hret h.code
  have hhas : img.Has p.pc (front ++ ⟨.ret, none⟩ :: back) := hcode ▸ h.has.left
  -- an instruction that is fetched there is one of those before the return, or the return itself
  have hfetch : ∀ pc i, (p.pc : Int) ≤ pc ∧ pc ≤ (p.pc + front.length) → img.fetch pc = .ok i →
      (pc < (p.pc + front.length) ∧ i ∈ front) ∨ i.op = .ret := by
    rintro pc i ⟨hle, hge⟩ hi
    obtain ⟨d, rfl⟩ : ∃ d : Nat, pc = (p.pc + d : Nat) := ⟨(pc - p.pc).toNat, by omega⟩
    have hget := hhas d (by simp; omega)
    rcases Nat.lt_or_ge d front.length with hd | hd
    · rw [getElem?_append_left hd, getElem?_eq_getElem hd] at hget
      rw [Image.fetch_of_code hget] at hi
      cases hi
      exact .inl ⟨by omega, getElem_mem hd⟩
    · obtain rfl : d = front.length := by omega
      rw [getElem?_append_right le_rfl, Nat.sub_self] at hget
      rw [Image.fetch_of_code hget] at hi
      cases hi
      exact .inr rfl
  refine ⟨front.length, by simp [hcode], fun info hinfo => ?_, ?_, ?_⟩
  · have hentry := h.entry
    rw [Image.entryOf, hinfo] at hentry
    have hpc : info.entry = p.pc := hentry
    omega
  · intro pc i target hpc hi hop harg
    rcases hfetch pc i hpc hi with ⟨-, hmem⟩ | hret
    · obtain ⟨n, hn, hlo, hhi⟩ := hjumps i hmem hop
      obtain rfl : target = n := by simpa using harg.symm.trans hn
      omega
    · simp [hret] at hop
  · intro pc i hpc hi _ hne
    rcases hfetch pc i hpc hi with ⟨hlt, -⟩ | hret
    · omega
    · exact absurd hret hne

/-- **Functions with a result end by their own returns.** In no state of a run is the program counter in the code that
ends such a function after its body. While the function runs it is in the code of the body, and a return that comes next
is the last instruction of one of its return statements. -/
theorem ends_by_own_return {source : String} {prog : Program Note} {obj : Object}
    (hprog : checkedProgram source = .ok prog) (hobj : emit prog = .ok obj) {k : Nat} {f : Function Note}
    (hf : prog.functions[k]? = some f) (hresult : (Signatures.ofFunction f).result ≠ .void) :
    ∃ env p body, Stands obj.image k f env p body ∧
      (∀ s, obj.image.Reaches s → s.pc < (p.after body).pc ∨ obj.image.entryOf (k + 1) ≤ s.pc) ∧
      ∀ s ks, obj.image.Active s (k :: ks) → p.pc ≤ s.pc ∧ s.pc < (p.after body).pc ∧
        (obj.image.opAt s = some .ret →
          ∃ q value c, (q, .ret value) ∈ sites env p f.body ∧ stmtCode env q (.ret value) = .ok c ∧
            s.pc + 1 = (q.after c).pc) := by
  have hacc := accepted_of_source hprog
  have hsealed := sealed_of_emit hacc.entered.nodup (valued_of_source hprog) hobj
  have hret : f.body.any Stmt.isReturn = true :=
    (hacc.checked f (List.mem_of_getElem? hf)).returns.resolve_left hresult
  obtain ⟨p, body, hstands, -⟩ := exists_stands hacc.entered.nodup hobj hf
  obtain ⟨n, hn, hconfined⟩ := hstands.confined hret
  have hksize : k < obj.image.functions.size := by
    have hnames := congrArg length (names_image hobj)
    simp only [names, length_map, Array.length_toList] at hnames
    exact hnames ▸ (List.getElem?_eq_some_iff.1 hf).1
  have hown : ∀ s ks, obj.image.Active s (k :: ks) → p.pc ≤ s.pc ∧ s.pc < (p.after body).pc := by
    intro s ks ha
    cases hconfined.frames ha with
    | cons hcurrent _ =>
      obtain ⟨hle, hge⟩ := hcurrent rfl
      rw [Place.after_pc]
      exact ⟨hle, by dsimp only at hge; omega⟩
  refine ⟨_, p, body, hstands, fun s hs => ?_, fun s ks ha => ⟨(hown s ks ha).1, (hown s ks ha).2, fun hop => ?_⟩⟩
  · obtain ⟨ks, ha⟩ := Image.reaches_iff_active.1 hs
    cases hsealed.within ha with
    | @cons j fr js frs hcurrent _ =>
      obtain ⟨g, hg, hle, hlt, -⟩ := hcurrent
      have hjsize : j < obj.image.functions.size := (Array.getElem?_eq_some_iff.1 hg).1
      have hgentry : g.entry = obj.image.entryOf j := by rw [Image.entryOf, hg]; rfl
      have hentry := hstands.entry
      dsimp only at hle hlt
      rcases Nat.lt_trichotomy j k with hj | rfl | hj
      · have horder := hsealed.entryOf_le (show j + 1 ≤ k by omega) hksize.le
        exact .inl (by rw [Place.after_pc]; omega)
      · exact .inl (hown s js ha).2
      · have horder := hsealed.entryOf_le (show k + 1 ≤ j by omega) hjsize.le
        exact .inr (by omega)
  · obtain ⟨i, hi, hiret⟩ := Image.opAt_eq_some hop
    obtain ⟨hle, hlt⟩ := hown s ks ha
    obtain ⟨d, hd⟩ : ∃ d : Nat, s.pc = (p.pc + d : Nat) := ⟨(s.pc - p.pc).toNat, by omega⟩
    rw [Place.after_pc] at hlt
    have hbody : d < body.code.length := by omega
    have hget := hstands.has.left d hbody
    rw [List.getElem?_eq_getElem hbody] at hget
    rw [hd, Image.fetch_of_code hget] at hi
    cases hi
    obtain ⟨q, value, c, hmem, hc, heq⟩ :=
      exists_return f.body p body hstands.code d _ (List.getElem?_eq_getElem hbody) hiret
    exact ⟨q, value, c, hmem, hc, by omega⟩

/-- A function with a return in a branch and one before its last statement. -/
def pickText : String :=
  "fn pick(n: int): int \x7b if (n) \x7b return 7; \x7d vm_asm \x7b push_int 3; \x7d return n; println(n); \x7d " ++
    "fn main(): int \x7b return pick(0); \x7d"

def pickCode : List Instr :=
  [⟨.loadLocal, some 0⟩, ⟨.jz, some 5⟩, ⟨.pushInt, some 7⟩, ⟨.ret, none⟩, ⟨.jmp, some 5⟩, ⟨.pushInt, some 3⟩,
   ⟨.loadLocal, some 0⟩, ⟨.ret, none⟩, ⟨.loadLocal, some 0⟩, ⟨.printlnInt, none⟩, ⟨.pushInt, some 0⟩, ⟨.ret, none⟩,
   ⟨.pushInt, some 0⟩, ⟨.call, some 0⟩, ⟨.ret, none⟩, ⟨.pushInt, some 0⟩, ⟨.ret, none⟩]

/-- In a run of `pickText` the two instructions after the body of `pick` are not fetched. -/
theorem pick_ends_by_own_return : ∃ prog obj f, checkedProgram pickText = .ok prog ∧ emit prog = .ok obj ∧
    prog.functions[0]? = some f ∧ (Signatures.ofFunction f).result ≠ .void ∧ obj.code = pickCode ∧
    ∀ s, obj.image.Reaches s → s.pc < 10 ∨ 12 ≤ s.pc := by
  obtain ⟨prog, hprog, f, hf, htype, hresult, obj, hobj, hcode, hone⟩ : ∃ prog, checkedProgram pickText = .ok prog ∧
      ∃ f, prog.functions[0]? = some f ∧ f.returnType = some "int" ∧ (Signatures.ofFunction f).result ≠ .void ∧
        ∃ obj, emit prog = .ok obj ∧ obj.code = pickCode ∧ obj.image.entryOf 1 = 12 := by
    rw [checkedProgram, show Token.tokens pickText = _ from Token.tokens_append_ofList _ _]
    decide +kernel
  obtain ⟨env, p, body, hstands, hreaches, -⟩ := ends_by_own_return hprog hobj hf hresult
  refine ⟨prog, obj, f, hprog, hobj, hf, hresult, hcode, fun s hs => ?_⟩
  have hnext := hstands.next
  have hpast := hreaches s hs
  rw [Nat.zero_add, hone] at hnext hpast
  rw [htype, Place.after_append, Place.after_pc, show (closingCode (some "int")).code.length = 2 from rfl] at hnext
  omega

end Workbench.Bytecode
