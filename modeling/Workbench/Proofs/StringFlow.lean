import Workbench.Proofs.Elements
import Workbench.Proofs.LiteralSites
import Workbench.Proofs.Provenance

/-!
# Strings in the code of a function

What a piece of code does with strings, said of its shape. The code of an expression puts a value on the operands that
are there (`Body.Work`), and the code of statements runs on to its end or returns (`Body.Flow`). Both are statements
about safety: if what may come after the code is safe, so is the code. `good` says which values, from which origins, are
strings. It holds of what is printed as a string, and of the cells of the variables of `G`.

The operands of a call lie on those of its callers, which stay as they are. A call may leave more than its value: with
`exact` it does not, and arguments after a string have to be exact, so that the string comes to its own parameter.
-/

open List

namespace Workbench.Bytecode

open Machine (Instr Op Image State Frame FunctionInfo Origin Origins Trail ofBool execute callCells)
open Typing (Note)

/-- An element that is stored next is one of an array of the function that runs. -/
def StoresInside (img : Image) (prog : Program Note) (s : State) (g : Origins) : Prop :=
  ∀ base i v rest, img.fetch s.pc = .ok ⟨.storeLocalIdx, some base⟩ → s.stack = i :: v :: rest →
    ∃ f a n, ∃ b : Nat, prog.functions[g.call.function]? = some f ∧ (Slots.ofFunction f).Holds a b n ∧
      base = b ∧ 0 ≤ i ∧ i < n

/-- The image of a program, and which values are taken for strings. -/
structure Setting where
  img : Image
  prog : Program Note
  good : Int → Origin → Prop

namespace Setting

variable (W : Setting)

def number (f : String) : Nat := (names W.prog).idxOf f

/-- A string that is printed next is good. -/
def Fine (s : State) (g : Origins) : Prop :=
  ∀ i, W.img.fetch s.pc = .ok i → i.op = .printStr ∨ i.op = .printlnStr →
    ∃ v rest o os, s.stack = v :: rest ∧ g.stack = o :: os ∧ W.good v o

/-- For `n` steps strings that are printed are good, as long as elements are stored inside arrays. -/
def Safe (n : Nat) (s : State) (g : Origins) : Prop := Machine.Safe W.img (StoresInside W.img W.prog) W.Fine n s g

/-- The code of a shape stands at `pc`, with its first string being the `k`-th, and its literals are good. -/
structure At (s : Shape) (pc k : Nat) : Prop where
  code : W.img.Has pc (s.codeAt W.number pc k)
  literals : ∀ l ∈ s.literals W.number ⟨pc, k⟩, W.good l.1.string (some (l.1.pc : Int))

def stop (s : Shape) (pc k : Nat) : Nat := pc + (s.codeAt W.number pc k).length

end Setting

/-- What stays as it is while a call runs: its function, the operands of the callers, and the callers. -/
structure Activation where
  function : Nat
  low : List (Int × Origin)
  waiting : List (Frame × Trail)

/-- The code of a function at work. -/
structure Body extends Setting where
  act : Activation
  slots : Slots

namespace Body

variable (c : Body)

/-- The state of the machine, with the operands `S` of the call. -/
def state (pc : Nat) (S : List (Int × Origin)) (L : Array Int) : State :=
  ⟨pc, (S ++ c.act.low).map (·.1), L, c.act.waiting.map (·.1)⟩

def origins (S : List (Int × Origin)) (C : Nat → Origin) : Origins :=
  ⟨(S ++ c.act.low).map (·.2), ⟨c.act.function, C⟩, c.act.waiting.map (·.2)⟩

/-- It is safe to go on at `pc`. -/
def Runs (n pc : Nat) (S : List (Int × Origin)) (L : Array Int) (C : Nat → Origin) : Prop :=
  c.Safe n (c.state pc S L) (c.origins S C)

/-- It is safe to return with operands for which `post` holds. -/
def Returns (n : Nat) (post : List (Int × Origin) → Prop) : Prop :=
  ∀ R fr w ws, post R → c.act.waiting = (fr, w) :: ws →
    c.Safe n ⟨fr.pc, (R ++ c.act.low).map (·.1), fr.locals, ws.map (·.1)⟩
      ⟨(R ++ c.act.low).map (·.2), w, ws.map (·.2)⟩

/-- The cells of the variables of `G` hold strings. -/
def Held (G : String → Prop) (L : Array Int) (C : Nat → Origin) : Prop :=
  ∀ x k v, G x → c.slots.cell? x = some k → L[k]? = some v → c.good v (C k)

/-- At least `q` operands, no more if `exact`; the last one is a string if `b`. -/
structure Gives (exact : Prop) (q : Nat) (b : Prop) (R : List (Int × Origin)) : Prop where
  least : q ≤ R.length
  exact : exact → R.length = q
  string : b → ∃ x xs, R = x :: xs ∧ c.good x.1 x.2

/-- The code of the shape takes `p` operands and leaves `q`, the last one a string if `b`; it keeps strings in the cells
of the variables of `G`. Without `exact` it may leave more. -/
def Work (n : Nat) (G : String → Prop) (exact : Prop) (p q : Nat) (b : Prop) (s : Shape) : Prop :=
  ∀ pc k X S L C, c.At s pc k → c.Gives exact p False X → c.Held G L C →
    (∀ R L' C', c.Gives exact q b R → c.Held G L' C' → c.Runs n (c.stop s pc k) (R ++ S) L' C') →
    c.Runs n pc (X ++ S) L C

end Body

/-! ### Instructions -/

variable {j : Nat}

namespace Body

variable {c : Body} {n m pc k : Nat} {S X : List (Int × Origin)} {L : Array Int} {C : Nat → Origin} {v : Int}
  {o : Origin}

theorem Runs.mono (h : c.Runs n pc S L C) (hm : m ≤ n) : c.Runs m pc S L C := Machine.Safe.mono h hm

theorem runs_of_code {i : Instr} (hi : c.img.code[pc]? = some i) (hprint : i.op ≠ .printStr ∧ i.op ≠ .printlnStr)
    (h : StoresInside c.img c.prog (c.state pc S L) (c.origins S C) →
      ∀ t out, execute c.img i (c.state (pc + 1) S L) = .next t out →
      ∀ m < n, c.Safe m t ((c.origins S C).after c.img i (c.state pc S L))) : c.Runs n pc S L C := by
  refine .of_code hi rfl (fun j hj hop => ?_) h
  rw [state, Image.fetch_of_code hi] at hj
  cases hj
  exact absurd hop (not_or.2 hprint)

theorem push (hi : c.img.code[pc]? = some ⟨.pushInt, some v⟩) (h : c.Runs n (pc + 1) ((v, some (pc : Int)) :: S) L C) :
    c.Runs n pc S L C := by
  refine runs_of_code hi (by simp) fun _ t out ht m hm => ?_
  cases ht
  exact h.mono hm.le

theorem cell_eq {s : State} (h : Machine.cellAt s.locals.size (k : Int) = .ok j) :
    j = k ∧ s.cell (k : Int) = k ∧ k < s.locals.size := by
  obtain rfl : j = k := by
    rcases cellAt_eq h with h | h <;> omega
  exact ⟨rfl, by rw [State.cell, h]; rfl, Machine.cellAt_lt h⟩

theorem loadLocal (hi : c.img.code[pc]? = some ⟨.loadLocal, some (k : Int)⟩)
    (h : ∀ v, L[k]? = some v → c.Runs n (pc + 1) ((v, C k) :: S) L C) : c.Runs n pc S L C := by
  refine runs_of_code hi (by simp) fun _ t out ht m hm => ?_
  simp only [execute, Machine.withArg, State.load] at ht
  split at ht
  · cases ht
  · rename_i j hj
    obtain ⟨rfl, hcell, hlt⟩ := cell_eq hj
    cases ht
    have hnext := h (L.getD j 0) (by simp [show j < L.size from hlt])
    have horigin : (c.origins S C).after c.img ⟨.loadLocal, some j⟩ (c.state pc S L) =
        c.origins ((L.getD j 0, C j) :: S) C := by
      simp only [Origins.after, Option.getD_some]
      rw [show (c.state pc S L).cell j = j from hcell]
      rfl
    rw [horigin]
    exact hnext.mono hm.le

theorem storeLocal (hi : c.img.code[pc]? = some ⟨.storeLocal, some (k : Int)⟩)
    (h : c.Runs n (pc + 1) S (L.setIfInBounds k v) fun j => if j = k then o else C j) :
    c.Runs n pc ((v, o) :: S) L C := by
  refine runs_of_code hi (by simp) fun _ t out ht m hm => ?_
  simp only [execute, State.pop₁, Machine.withArg, State.store, state, cons_append, map_cons] at ht
  split at ht
  · cases ht
  · rename_i j hj
    obtain ⟨rfl, hcell, -⟩ := cell_eq (s := c.state pc ((v, o) :: S) L) hj
    cases ht
    have horigin : (c.origins ((v, o) :: S) C).after c.img ⟨.storeLocal, some j⟩ (c.state pc ((v, o) :: S) L) =
        c.origins S fun i => if i = j then o else C i := by
      simp only [Origins.after, Option.getD_some]
      rw [hcell]
      rfl
    rw [horigin]
    exact h.mono hm.le

variable {x : Int × Origin} {arg : Option Int} {target : Nat} {op : Op}

theorem storeElement {f : Function Note} {base : Nat} (hf : c.prog.functions[c.act.function]? = some f)
    (hslots : c.slots = Slots.ofFunction f) (hi : c.img.code[pc]? = some ⟨.storeLocalIdx, some (base : Int)⟩)
    (h : ∀ a b len j, c.slots.Holds a b len → b ≤ j → j < b + len →
      c.Runs n (pc + 1) S (L.setIfInBounds j v) fun i => if i = j then o else C i) :
    c.Runs n pc (x :: (v, o) :: S) L C := by
  obtain ⟨i, oi⟩ := x
  refine runs_of_code hi (by simp) fun hinside t out ht m hm => ?_
  obtain ⟨f', a, len, b, hf', hholds, hbase, hnonneg, hlt⟩ := hinside base i v _ (Image.fetch_of_code hi) rfl
  obtain rfl : f = f' := Option.some.inj (hf.symm.trans hf')
  obtain rfl : base = b := Int.ofNat.inj hbase
  simp only [execute, State.pop₂, Machine.withArg, State.hasCell, state, cons_append, map_cons] at ht
  split at ht
  · rename_i hcell
    simp only [Bool.and_eq_true, decide_eq_true_eq] at hcell
    cases ht
    have hat : Machine.cellAt L.size (base + i) = .ok (base + i).toNat := by rw [Machine.cellAt, if_pos hcell]
    have hnext := h a base len (base + i).toNat (hslots ▸ hholds) (by omega) (by omega)
    have horigin : (c.origins ((i, oi) :: (v, o) :: S) C).after c.img ⟨.storeLocalIdx, some base⟩
        (c.state pc ((i, oi) :: (v, o) :: S) L) = c.origins S fun j => if j = (base + i).toNat then o else C j := by
      have hindex : (c.state pc ((i, oi) :: (v, o) :: S) L).cell
          (base + (c.state pc ((i, oi) :: (v, o) :: S) L).stack.headD 0) = (base + i).toNat :=
        congrArg (fun e => Option.getD (Except.toOption e) 0) hat
      simp only [Origins.after, Option.getD_some]
      rw [hindex]
      rfl
    rw [horigin]
    exact hnext.mono hm.le
  · cases ht

theorem compute {i : Instr} (hi : c.img.code[pc]? = some i) (hop : i.op.computes = true) (hX : X.length = i.op.effect.1)
    (h : ∀ v o, c.Runs n (pc + 1) ((v, o) :: S) L C) : c.Runs n pc (X ++ S) L C := by
  have hprint : i.op ≠ .printStr ∧ i.op ≠ .printlnStr := by
    constructor <;>
    · intro heq
      rw [heq] at hop
      cases hop
  refine runs_of_code hi hprint fun _ t out ht m hm => ?_
  obtain ⟨-, v, rfl⟩ := Machine.execute_computes hop ht
  obtain ⟨o, horigins⟩ := Origins.after_computes c.img (c.state pc (X ++ S) L) (c.origins (X ++ S) C) hop
  have hstack : ((X ++ S ++ c.act.low).map (·.1)).drop i.op.effect.1 = (S ++ c.act.low).map (·.1) := by
    rw [append_assoc, map_append, ← hX, drop_left' (by simp)]
  have hstack' : ((X ++ S ++ c.act.low).map (·.2)).drop i.op.effect.1 = (S ++ c.act.low).map (·.2) := by
    rw [append_assoc, map_append, ← hX, drop_left' (by simp)]
  rw [horigins]
  simp only [state, origins, hstack, hstack']
  exact (h v o).mono hm.le

theorem printInt (hi : c.img.code[pc]? = some ⟨op, arg⟩) (hop : op = .printInt ∨ op = .printlnInt)
    (h : c.Runs n (pc + 1) S L C) : c.Runs n pc (x :: S) L C := by
  rcases hop with rfl | rfl <;>
  · refine runs_of_code hi (by simp) fun _ t out ht m hm => ?_
    cases ht
    exact h.mono hm.le

theorem printStr (hi : c.img.code[pc]? = some ⟨op, arg⟩) (hop : op = .printStr ∨ op = .printlnStr)
    (hgood : c.good v o) (h : c.Runs n (pc + 1) S L C) : c.Runs n pc ((v, o) :: S) L C := by
  refine .of_code hi rfl (fun _ _ _ => ⟨v, _, o, _, rfl, rfl, hgood⟩) fun _ t out ht m hm => ?_
  rcases hop with rfl | rfl <;>
  · cases ht
    exact h.mono hm.le

theorem jump (hi : c.img.code[pc]? = some ⟨.jmp, some (target : Int)⟩) (h : ∀ m < n, c.Runs m target S L C) :
    c.Runs n pc S L C := by
  refine runs_of_code hi (by simp) fun _ t out ht m hm => ?_
  cases ht
  exact h m hm

theorem jumpOn {d : Bool} (hi : c.img.code[pc]? = some ⟨Shape.jumpOn d, some (target : Int)⟩)
    (h : c.Runs n target S L C) (h' : c.Runs n (pc + 1) S L C) : c.Runs n pc (x :: S) L C := by
  cases d <;>
  · refine runs_of_code hi (by simp [Shape.jumpOn]) fun _ t out ht m hm => ?_
    simp only [Shape.jumpOn, execute, State.pop₁, state, cons_append, map_cons,
      Bool.false_eq_true, if_false, if_true] at ht
    split at ht
    · cases ht
      exact h.mono hm.le
    · cases ht
      exact h'.mono hm.le

/-- A return leaves the operands as they are, but for a zero where there were none. -/
theorem ret {post : List (Int × Origin) → Prop} (hi : c.img.code[pc]? = some ⟨.ret, none⟩) (hret : c.Returns n post)
    (hS : post S) (hzero : S = [] → post [(0, none)]) : c.Runs n pc S L C := by
  refine runs_of_code hi (by simp) fun _ t out ht m hm => ?_
  simp only [execute, Machine.leave, state] at ht
  split at ht
  · cases ht
  · rename_i fr frs hcalls
    cases ht
    obtain ⟨⟨fr', w⟩, ws, hwaiting, rfl, rfl⟩ := map_eq_cons_iff.1 hcalls
    have horigins : (c.origins S C).after c.img ⟨.ret, none⟩ (c.state pc S L) =
        ⟨((S ++ c.act.low).map (·.2)).headD none :: ((S ++ c.act.low).map (·.2)).tail, w, ws.map (·.2)⟩ := by
      simp [Origins.after, origins, hwaiting]
    rw [horigins]
    cases hall : S ++ c.act.low with
    | nil =>
      obtain ⟨rfl, hlow⟩ := append_eq_nil_iff.1 hall
      have hback := hret _ _ _ _ (hzero rfl) hwaiting
      rw [hlow] at hback
      exact hback.mono hm.le
    | cons x xs =>
      have hback := hret _ _ _ _ hS hwaiting
      rw [hall] at hback
      exact hback.mono hm.le

theorem zip_parts (xs : List (Int × Origin)) : (xs.map (·.1)).zip (xs.map (·.2)) = xs := by
  rw [zip_map']
  exact map_id xs

theorem call {f entry : Nat} {info : FunctionInfo} (hi : c.img.code[pc]? = some ⟨.call, some (f : Int)⟩)
    (hinfo : c.img.functions[f]? = some info) (hentry : info.entry = (entry : Int)) (harity : info.numParams = X.length)
    (h : ∀ m < n, c.Safe m
      ⟨entry, (S ++ c.act.low).map (·.1), callCells info (X.map (·.1)).reverse,
        ⟨(pc + 1 : Nat), L⟩ :: c.act.waiting.map (·.1)⟩
      ⟨(S ++ c.act.low).map (·.2), .enter f X.reverse, ⟨c.act.function, C⟩ :: c.act.waiting.map (·.2)⟩) :
    c.Runs n pc (X ++ S) L C := by
  refine runs_of_code hi (by simp) fun _ t out ht m hm => ?_
  have hlen : info.numParams.toNat = X.length := by rw [harity, Int.toNat_natCast]
  have hlt : f < c.img.functions.size := (Array.getElem?_eq_some_iff.1 hinfo).1
  have horigins : (c.origins (X ++ S) C).after c.img ⟨.call, some f⟩ (c.state pc (X ++ S) L) =
      ⟨(S ++ c.act.low).map (·.2), .enter f X.reverse, ⟨c.act.function, C⟩ :: c.act.waiting.map (·.2)⟩ := by
    simp only [Origins.after, Option.getD_some, Machine.cellAt_ofNat hlt, Except.toOption, hinfo, Option.map_some, hlen,
      state, origins, zip_parts, append_assoc, take_left]
    rw [map_append, drop_left' (by simp)]
  simp only [execute, Machine.withArg, Image.function_of_get hinfo, Machine.enter, hlen, state, append_assoc] at ht
  rw [if_neg (by simp), map_append, drop_left' (by simp), take_left' (by simp)] at ht
  cases ht
  rw [horigins, hentry]
  exact h m hm

end Body

/-! ### Places -/

namespace Setting

variable {W : Setting} {a b : Shape} {pc k : Nat}

theorem stop_seq : W.stop (.seq a b) pc k = W.stop b (W.stop a pc k) (k + a.strings.length) := by
  simp [stop, Shape.codeAt_seq, Nat.add_assoc]

theorem after_code : (⟨pc, k⟩ : Place).after (a.code W.number ⟨pc, k⟩) = ⟨W.stop a pc k, k + a.strings.length⟩ := by
  simp [Place.after, stop, Shape.codeAt]

theorem At.left (h : W.At (.seq a b) pc k) : W.At a pc k := by
  have hcode := h.code
  exact ⟨hcode.left, fun l hl => h.literals l (mem_append_left _ hl)⟩

theorem At.right (h : W.At (.seq a b) pc k) : W.At b (W.stop a pc k) (k + a.strings.length) := by
  have hcode := h.code
  rw [Shape.codeAt_seq] at hcode
  refine ⟨hcode.right, fun l hl => h.literals l (mem_append_right _ ?_)⟩
  rwa [after_code]

theorem At.branch (h : W.At (.branch a b) pc k) :
    W.img.code[pc]? = some ⟨Shape.jumpOn false, some ((W.stop a (pc + 1) k + 1 : Nat) : Int)⟩ ∧ W.At a (pc + 1) k ∧
      W.img.code[W.stop a (pc + 1) k]? = some ⟨.jmp, some ((W.stop (.branch a b) pc k : Nat) : Int)⟩ ∧
      W.At b (W.stop a (pc + 1) k + 1) (k + a.strings.length) ∧
      W.stop b (W.stop a (pc + 1) k + 1) (k + a.strings.length) = W.stop (.branch a b) pc k := by
  have hcode := h.code
  have hstop : W.stop b (W.stop a (pc + 1) k + 1) (k + a.strings.length) = W.stop (.branch a b) pc k := by
    simp only [stop, Shape.codeAt_branch, length_cons, length_append]
    omega
  rw [Shape.codeAt_branch] at hcode
  refine ⟨hcode.head, ⟨hcode.tail.left, fun l hl => h.literals l (mem_append_left _ hl)⟩, ?_,
    ⟨hcode.tail.right.tail, fun l hl => h.literals l (mem_append_right _ ?_)⟩, hstop⟩
  · rw [← hstop]
    exact hcode.tail.right.head
  · rw [after_code]
    exact hl

theorem At.loop (h : W.At (.loop a b) pc k) : W.At a pc k ∧
    W.img.code[W.stop a pc k]? = some ⟨Shape.jumpOn false, some ((W.stop (.loop a b) pc k : Nat) : Int)⟩ ∧
      W.At b (W.stop a pc k + 1) (k + a.strings.length) ∧
      W.img.code[W.stop b (W.stop a pc k + 1) (k + a.strings.length)]? = some ⟨.jmp, some (pc : Int)⟩ := by
  have hcode := h.code
  have hstop : W.stop b (W.stop a pc k + 1) (k + a.strings.length) + 1 = W.stop (.loop a b) pc k := by
    simp only [stop, Shape.codeAt_loop, length_cons, length_append, length_nil]
    omega
  rw [Shape.codeAt_loop] at hcode
  refine ⟨⟨hcode.left, fun l hl => h.literals l (mem_append_left _ hl)⟩, ?_,
    ⟨hcode.right.tail.left, fun l hl => h.literals l (mem_append_right _ ?_)⟩, hcode.right.tail.right.head⟩
  · rw [← hstop]
    exact hcode.right.head
  · rw [after_code]
    exact hl

end Setting

/-! ### Expressions -/

namespace Body

variable {c : Body} {n : Nat} {G : String → Prop} {exact b b' : Prop} {p q r t : Nat} {a s : Shape}
  {R X : List (Int × Origin)} {i : Instr}

theorem Gives.nil : c.Gives exact 0 False [] := ⟨Nat.le_refl 0, fun _ => rfl, False.elim⟩

theorem Gives.value {x : Int × Origin} (h : c.Gives exact 0 False X) (hb : b → c.good x.1 x.2) :
    c.Gives exact 1 b (x :: X) :=
  ⟨Nat.succ_pos _, fun he => congrArg (· + 1) (h.exact he), fun hx => ⟨x, X, rfl, hb hx⟩⟩

theorem Gives.mono {exact' : Prop} (h : c.Gives exact q b R) (hexact : exact' → exact) (hb : b' → b) :
    c.Gives exact' q b' R := ⟨h.least, fun he => h.exact (hexact he), fun hb' => h.string (hb hb')⟩

theorem Gives.weaken (h : c.Gives exact q b R) : c.Gives exact q False R := h.mono id False.elim

theorem Gives.append (h : c.Gives exact p False X) (h' : c.Gives exact q b' R) :
    c.Gives exact (p + q) False (X ++ R) := by
  refine ⟨?_, fun he => ?_, False.elim⟩
  · rw [length_append]
    exact Nat.add_le_add h.least h'.least
  · rw [length_append, h.exact he, h'.exact he]

theorem Gives.above (h : c.Gives exact q b R) (h' : c.Gives exact 0 False X) : c.Gives exact q b (R ++ X) := by
  refine ⟨(h.weaken.append h').least, (h.weaken.append h').exact, fun hb => ?_⟩
  obtain ⟨x, xs, rfl, hgood⟩ := h.string hb
  exact ⟨x, xs ++ X, rfl, hgood⟩

variable {S : List (Int × Origin)}

theorem Gives.of_exact (h : exact → S = []) : c.Gives exact 0 False S :=
  ⟨Nat.zero_le _, fun he => by rw [h he]; rfl, False.elim⟩

theorem Gives.split (h : c.Gives exact (p + r) False X) :
    ∃ Y Z, X = Y ++ Z ∧ c.Gives exact p False Y ∧ c.Gives exact r False Z := by
  have hle := h.least
  refine ⟨X.take (X.length - r), X.drop (X.length - r), (take_append_drop _ _).symm,
    ⟨?_, fun he => ?_, False.elim⟩, ⟨?_, fun he => ?_, False.elim⟩⟩
  · rw [length_take]
    omega
  · rw [length_take, h.exact he]
    omega
  · rw [length_drop]
    omega
  · rw [length_drop]
    omega

theorem Gives.top (h : c.Gives exact r False X) : ∃ Y Z, X = Y ++ Z ∧ Y.length = r ∧ c.Gives exact 0 False Z := by
  refine ⟨X.take r, X.drop r, (take_append_drop _ _).symm, ?_, .of_exact fun he => ?_⟩
  · rw [length_take, Nat.min_eq_left h.least]
  · rw [← h.exact he, drop_length]

theorem Work.mono (h : c.Work n G exact p q b s) (hb : b' → b) : c.Work n G exact p q b' s :=
  fun pc k X S L C hat hX hheld hnext => h pc k X S L C hat hX hheld fun R L' C' hR => hnext R L' C' (hR.mono id hb)

theorem Work.skip : c.Work n G exact q q False .skip :=
  fun _ _ X _ L C _ hX hheld hnext => hnext X L C hX hheld

theorem Work.value {pc k : Nat} {L : Array Int} {C : Nat → Origin}
    (h : c.Work n G exact 0 1 b s) (hat : c.At s pc k) (hheld : c.Held G L C)
    (hnext : ∀ x J L' C', (exact → J = []) → (b → c.good x.1 x.2) → c.Held G L' C' →
      c.Runs n (c.stop s pc k) (x :: (J ++ S)) L' C') : c.Runs n pc S L C := by
  refine h pc k [] S L C hat .nil hheld fun R L' C' hR hheld' => ?_
  obtain ⟨x, J, rfl⟩ := exists_cons_of_length_pos hR.least
  refine hnext x J L' C' (fun he => eq_nil_of_length_eq_zero (by simpa using hR.exact he)) (fun hb => ?_) hheld'
  obtain ⟨y, ys, heq, hgood⟩ := hR.string hb
  cases heq
  exact hgood

/-- One piece of code after the other; `r` operands lie below those that the first one takes. -/
theorem Work.seq (ha : c.Work n G exact p q b' a) (hs : c.Work n G exact (q + r) t b s) :
    c.Work n G exact (p + r) t b (.seq a s) := by
  intro pc k X S L C hat hX hheld hnext
  obtain ⟨Y, Z, rfl, hY, hZ⟩ := hX.split
  rw [append_assoc]
  refine ha pc k Y (Z ++ S) L C hat.left hY hheld fun R L' C' hR hheld' => ?_
  rw [← append_assoc]
  refine hs _ _ (R ++ Z) S L' C' hat.right (hR.weaken.append hZ) hheld' ?_
  rwa [Setting.stop_seq] at hnext

theorem Work.operand (ha : c.Work n G exact 0 1 b' a) (hs : c.Work n G exact (p + 1) t b s) :
    c.Work n G exact p t b (.seq a s) := by
  have hseq := ha.seq (by rwa [Nat.add_comm])
  rwa [Nat.zero_add] at hseq

theorem Work.last (h : c.Work n G exact p q b' s) : c.Work n G exact p q False (.seq s .skip) := h.seq (r := 0) .skip

theorem Work.compute (hop : i.op.computes = true) (hp : i.op.effect.1 = p) : c.Work n G exact p 1 False (.instr i) := by
  intro pc k X S L C hat hX hheld hnext
  obtain ⟨Y, Z, rfl, hY, hZ⟩ := hX.top
  rw [append_assoc]
  refine Body.compute hat.code.head hop (hY.trans hp.symm) fun v o => ?_
  exact hnext ((v, o) :: Z) L C (hZ.value False.elim) hheld

theorem Work.push (v : Int) : c.Work n G exact 0 1 False (.push v) := by
  intro pc k X S L C hat hX hheld hnext
  exact Body.push hat.code.head (hnext ((v, _) :: X) L C (hX.value False.elim) hheld)

theorem Work.text (t : String) : c.Work n G exact 0 1 True (.text t) := by
  intro pc k X S L C hat hX hheld hnext
  have hgood := hat.literals (⟨pc, k⟩, t) (mem_singleton_self _)
  exact Body.push hat.code.head (hnext ((k, _) :: X) L C (hX.value fun _ => hgood) hheld)

theorem Work.load {x : String} {k : Nat} (hk : c.slots.cell? x = some k) (hx : b → G x) :
    c.Work n G exact 0 1 b (.instr ⟨.loadLocal, some (k : Int)⟩) := by
  intro pc _ X S L C hat hX hheld hnext
  refine Body.loadLocal hat.code.head fun v hv => ?_
  exact hnext ((v, C k) :: X) L C (hX.value fun hb => hheld x k v (hx hb) hk hv) hheld

theorem Held.set {G' : String → Prop} {L : Array Int} {C : Nat → Origin} {v : Int} {o : Origin}
    (h : c.Held G L C) (hG : ∀ x, G' x → c.slots.cell? x ≠ some j → G x)
    (hj : ∀ x, G' x → c.slots.cell? x = some j → c.good v o) :
    c.Held G' (L.setIfInBounds j v) fun i => if i = j then o else C i := by
  intro x k w hx hk hw
  by_cases hkj : k = j
  · subst hkj
    obtain ⟨-, rfl⟩ : k < L.size ∧ v = w := by simpa [Array.getElem?_setIfInBounds] using hw
    dsimp only
    rw [if_pos rfl]
    exact hj x hx hk
  · rw [Array.getElem?_setIfInBounds_ne (.symm hkj)] at hw
    dsimp only
    rw [if_neg hkj]
    refine h x k w (hG x hx ?_) hk hw
    rw [hk]
    exact fun heq => hkj (Option.some.inj heq)

/-- What the running function is; the variables of `texts` are its strings. -/
structure Known (c : Body) (f : Function Note) (texts : String → Prop) : Prop where
  function : c.prog.functions[c.act.function]? = some f
  slots : c.slots = Slots.ofFunction f
  cell : ∀ x, texts x → ∃ k, c.slots.cell? x = some k
  scalar : ∀ x, texts x → c.slots.length? x = none

section Known

variable {f : Function Note} {texts : String → Prop}

theorem Known.sound (h : c.Known f texts) : c.slots.Sound := h.slots ▸ Slots.sound_ofFunction f

/-- The elements of an array are no strings. -/
theorem Known.apart (h : c.Known f texts) {x a : String} {k base len j : Nat} (hx : texts x)
    (hk : c.slots.cell? x = some k) (ha : c.slots.Holds a base len) (hle : base ≤ j) (hlt : j < base + len) :
    k ≠ j := by
  have hscalar := h.scalar x hx
  have hne : x ≠ a := by
    rintro rfl
    rw [ha.length] at hscalar
    cases hscalar
  have hapart := h.sound.apart x a k base hne hk ha.cell
  rw [ha.width, Slots.width, hscalar, Option.getD_none] at hapart
  omega

theorem Work.element (h : c.Known f texts) (hG : ∀ x, G x → texts x) (base : Nat) :
    c.Work n G exact 2 0 False (.instr ⟨.storeLocalIdx, some (base : Int)⟩) := by
  intro pc _ X S L C hat hX hheld hnext
  obtain ⟨Y, Z, rfl, hY, hZ⟩ := hX.top
  obtain ⟨x, ⟨v, o⟩, rfl⟩ := length_eq_two.1 hY
  refine storeElement h.function h.slots hat.code.head fun a b len j ha hle hlt => ?_
  refine hnext Z _ _ hZ (hheld.set (fun _ hx _ => hx) fun y hy hk => ?_)
  exact absurd rfl (h.apart (hG y hy) hk ha hle hlt)

end Known

theorem Work.circuit {d : Bool} (ha : c.Work n G exact 0 1 b a) : c.Work n G exact 1 1 False (.circuit d a) := by
  intro pc k X S L C hat hX hheld hnext
  obtain ⟨Y, Z, rfl, hY, hZ⟩ := hX.top
  obtain ⟨x, rfl⟩ := length_eq_one_iff.1 hY
  have hcode := hat.code
  rw [Setting.stop, Shape.codeAt_circuit] at hnext
  rw [Shape.codeAt_circuit] at hcode
  have hright : c.At a (pc + 1) k := ⟨hcode.tail.left, hat.literals⟩
  have hrest := hcode.tail.right
  -- Either way the result is a number on what the right operand may have left.
  have hresult : ∀ v o J L' C', (exact → J = []) → c.Held G L' C' →
      c.Runs n (pc + 1 + (a.codeAt c.number (pc + 1) k).length + 4) ((v, o) :: (J ++ (Z ++ S))) L' C' := by
    intro v o J L' C' hJ hheld'
    have hend := hnext _ L' C' ((Gives.of_exact hJ).above hZ |>.value (x := (v, o)) False.elim) hheld'
    simp only [length_cons, length_append, length_nil, cons_append, append_assoc] at hend
    have hpc : pc + ((a.codeAt c.number (pc + 1) k).length + (0 + 1 + 1 + 1 + 1) + 1) =
        pc + 1 + (a.codeAt c.number (pc + 1) k).length + 4 := by omega
    rwa [hpc] at hend
  have hsettled : ∀ J L' C', (exact → J = []) → c.Held G L' C' →
      c.Runs n (pc + 1 + (a.codeAt c.number (pc + 1) k).length + 3) (J ++ (Z ++ S)) L' C' :=
    fun J L' C' hJ hheld' => Body.push hrest.tail.tail.tail.head (hresult _ _ J L' C' hJ hheld')
  refine Body.jumpOn hcode.head (hsettled [] L C (fun _ => rfl) hheld) ?_
  refine ha.value hright hheld fun y J L' C' hJ _ hheld' => ?_
  refine Body.jumpOn hrest.head (hsettled J L' C' hJ hheld') (Body.push hrest.tail.head ?_)
  exact Body.jump hrest.tail.tail.head fun m hm => (hresult _ _ J L' C' hJ hheld').mono hm.le

/-! ### Calls -/

/-- The operands are strings where the parameters are. -/
def Fit (c : Body) (bs : List Prop) (xs : List (Int × Origin)) : Prop :=
  List.Forall₂ (fun b x => b → c.good x.1 x.2) bs xs

/-- A call of `g`, with strings for the parameters that are strings, gives what `post` says. -/
def Calls (c : Body) (n : Nat) (g : String) (bs : List Prop) (post : List (Int × Origin) → Prop) : Prop :=
  ∀ pc X S L C, c.img.code[pc]? = some ⟨.call, some (c.number g : Int)⟩ → c.Fit bs X.reverse →
    (∀ R, post R → c.Runs n (pc + 1) (R ++ S) L C) → c.Runs n pc (X ++ S) L C

variable {bs D : List Prop} {g : String} {Y : List (Int × Origin)} {as : List Shape}

theorem Calls.mono {post post' : List (Int × Origin) → Prop} (h : c.Calls n g bs post) (hpost : ∀ R, post R → post' R) :
    c.Calls n g bs post' :=
  fun pc X S L C hi hX hnext => h pc X S L C hi hX fun R hR => hnext R (hpost R hR)

/-- Arguments for parameters that are strings by `bs`. With `e`, and after a string, they leave nothing but their
values. -/
inductive Args (c : Body) (n : Nat) (G : String → Prop) : (e : Prop) → List Shape → (bs : List Prop) → Prop
  | nil {e : Prop} : Args c n G e [] []
  | cons {e b : Prop} {a : Shape} {as : List Shape} {bs : List Prop} (ha : c.Work n G e 0 1 b a)
      (has : Args c n G (e ∨ b) as bs) : Args c n G e (a :: as) (b :: bs)

theorem Fit.of_numbers (hD : ∀ d ∈ D, ¬ d) (hlen : Y.length = D.length) : c.Fit D Y.reverse := by
  rw [Fit, forall₂_iff_zip, length_reverse]
  exact ⟨hlen.symm, fun hmem hd => absurd hd (hD _ (of_mem_zip hmem).1)⟩

theorem Fit.length_eq (h : c.Fit D Y.reverse) : Y.length = D.length := by
  rw [← length_reverse]
  exact (List.Forall₂.length_eq h).symm

/-- Arguments and a call. The operands `Y` fit the parameters of `D`; what lies below them was left over. -/
theorem Args.call {post : List (Int × Origin) → Prop} {e : Prop} (has : c.Args n G e as bs) :
    ∀ {D : List Prop} {pc k : Nat} {Y Z : List (Int × Origin)}
      {L : Array Int} {C : Nat → Origin}, (exact → e) → (∀ d ∈ D, d → e) → c.Calls n g (D ++ bs) post →
      c.At (as.foldr .seq (.call g)) pc k → c.Fit D Y.reverse → (exact → Z = []) → c.Held G L C →
      (∀ R Z' L' C', post R → (exact → Z' = []) → c.Held G L' C' →
        c.Runs n (c.stop (as.foldr .seq (.call g)) pc k) (R ++ (Z' ++ S)) L' C') →
      c.Runs n pc (Y ++ (Z ++ S)) L C := by
  induction has with
  | nil =>
    intro D pc k Y Z L C _ _ hcall hat hY hZ hheld hnext
    rw [append_nil] at hcall
    exact hcall pc Y (Z ++ S) L C hat.code.head hY fun R hR => hnext R Z L C hR hZ hheld
  | @cons e b a as bs ha _ ih =>
    intro D pc k Y Z L C hexact hD hcall hat hY hZ hheld hnext
    rw [foldr_cons] at hnext
    refine ha.value hat.left hheld fun x J L' C' hJ hx hheld' => ?_
    have hexact' : exact → e ∨ b := fun he => .inl (hexact he)
    have hD' : ∀ d ∈ D ++ [b], d → e ∨ b := by
      intro d hd hd'
      rcases mem_append.1 hd with hd | hd
      · exact .inl (hD d hd hd')
      · exact .inr (mem_singleton.1 hd ▸ hd')
    have hcall' : c.Calls n g (D ++ [b] ++ bs) post := by rwa [append_assoc]
    rw [Setting.stop_seq] at hnext
    by_cases he : e
    · -- Nothing is left over, so the value comes right on the arguments before it.
      obtain rfl := hJ he
      refine ih (Y := x :: Y) hexact' hD' hcall' hat.right ?_ hZ hheld' hnext
      rw [reverse_cons]
      exact rel_append hY (.cons hx .nil)
    · -- No string has been passed, so whatever lies below the value will do.
      have hnone : ∀ d ∈ D, ¬ d := fun d hd hd' => he (hD d hd hd')
      have hlen : ((J ++ (Y ++ Z)).take D.length).length = D.length := by
        simp [hY.length_eq]
        omega
      have hfit : c.Fit (D ++ [b]) (x :: (J ++ (Y ++ Z)).take D.length).reverse := by
        rw [reverse_cons]
        exact rel_append (Fit.of_numbers hnone hlen) (.cons hx .nil)
      have hrest := ih (Z := (J ++ (Y ++ Z)).drop D.length) hexact' hD' hcall'
        hat.right hfit (fun hexact'' => absurd (hexact hexact'') he) hheld' hnext
      rw [← append_assoc] at hrest
      simpa using hrest

/-- A call with its arguments, from the operands that are there. -/
theorem Work.call (hcall : c.Calls n g bs (c.Gives exact q b)) (has : c.Args n G exact as bs) :
    c.Work n G exact 0 q b (as.foldr .seq (.call g)) := by
  intro pc k X S L C hat hX hheld hnext
  refine has.call (Y := []) (S := X ++ S) id (by simp) hcall hat .nil
    (fun _ => rfl) hheld fun R Z' L' C' hR hZ' hheld' => ?_
  rw [← append_assoc, ← append_assoc]
  exact hnext _ L' C' ((hR.above (.of_exact hZ')).above hX) hheld'

/-! ### Statements -/

/-- The code of the shape at `p` returns with what `post` says, or runs on to its end with strings in the cells of the
variables of `G'`; it does not come to its end unless `falls`. With `exact` it leaves no operands. -/
def Flow (c : Body) (p : Place) (n : Nat) (G G' : String → Prop) (exact : Prop) (post : List (Int × Origin) → Prop)
    (falls : Prop) (s : Shape) : Prop :=
  ∀ S L C, c.At s p.pc p.string → (exact → S = []) → c.Held G L C → c.Returns n post →
    (falls → ∀ S' L' C', (exact → S' = []) → c.Held G' L' C' → c.Runs n (c.stop s p.pc p.string) S' L' C') →
    c.Runs n p.pc S L C

/-- The place after the code of a shape. -/
def beyond (c : Body) (s : Shape) (p : Place) : Place := p.after (s.code c.number p)

section Flow

variable {G' G'' : String → Prop} {post : List (Int × Origin) → Prop} {falls falls' : Prop} {test yes no body : Shape}
  {p : Place}

theorem beyond_eq : c.beyond s p = ⟨c.stop s p.pc p.string, p.string + s.strings.length⟩ := Setting.after_code

theorem Returns.mono {m : Nat} (h : c.Returns n post) (hm : m ≤ n) : c.Returns m post :=
  fun R fr w ws hR hwaiting => (h R fr w ws hR hwaiting).mono hm

theorem Flow.mono (h : c.Flow p n G G' exact post falls s) (hG : ∀ x, G'' x → G' x) (hfalls : falls → falls') :
    c.Flow p n G G'' exact post falls' s :=
  fun S L C hat hS hheld hret hnext => h S L C hat hS hheld hret fun hf S' L' C' hS' hheld' =>
    hnext (hfalls hf) S' L' C' hS' fun x j v hx => hheld' x j v (hG x hx)

theorem Flow.skip : c.Flow p n G G exact post True .skip :=
  fun S L C _ hS hheld _ hnext => hnext trivial S L C hS hheld

theorem Flow.seq (ha : c.Flow p n G G' exact post falls a)
    (hs : falls → c.Flow (c.beyond a p) n G' G'' exact post falls' s) :
    c.Flow p n G G'' exact post (falls ∧ falls') (.seq a s) := by
  intro S L C hat hS hheld hret hnext
  rw [beyond_eq] at hs
  refine ha S L C hat.left hS hheld hret fun hf S' L' C' hS' hheld' => ?_
  refine hs hf S' L' C' hat.right hS' hheld' hret fun hf' => ?_
  rw [← Setting.stop_seq]
  exact hnext ⟨hf, hf'⟩

theorem Flow.stops (ha : c.Flow p n G G' exact post False a) : c.Flow p n G G'' exact post falls (.seq a s) :=
  fun S L C hat hS hheld hret _ => ha S L C hat.left hS hheld hret False.elim

theorem Flow.before (ha : c.Flow p n G G' exact post True a) (hG : ∀ x, G x → G' x)
    (hs : c.Flow (c.beyond a p) n G' G' exact post falls s) : c.Flow p n G G exact post falls (.seq a s) :=
  (ha.seq fun _ => hs).mono hG And.right

theorem Flow.drop (hexact : ¬ exact) (h : c.Work n G exact 0 q b s) : c.Flow p n G G exact post True (.drop s) :=
  fun S L C hat _ hheld _ hnext => h _ _ [] S L C ⟨hat.code, hat.literals⟩ .nil hheld fun _ L' C' _ hheld' =>
    hnext trivial _ L' C' (fun he => absurd he hexact) hheld'

theorem Flow.ret (h : c.Work n G exact 0 1 b s) (hpost : ∀ R, c.Gives exact 1 b R → post R) :
    c.Flow p n G G' exact post False (.seq s .ret) := by
  intro S L C hat hS hheld hret _
  refine h _ _ [] S L C hat.left .nil hheld fun R L' C' hR hheld' => ?_
  refine Body.ret hat.right.code.head hret (hpost _ (hR.above (.of_exact hS))) fun hnil => ?_
  have hlength := hR.least
  rw [(append_eq_nil_iff.1 hnil).1] at hlength
  exact absurd hlength (by simp)

theorem Flow.store (h : c.Work n G exact 0 1 b s) (hG : ∀ x, G' x → c.slots.cell? x ≠ some j → G x)
    (hj : ∀ x, G' x → c.slots.cell? x = some j → b) :
    c.Flow p n G G' exact post True (.seq s (.instr ⟨.storeLocal, some (j : Int)⟩)) := by
  intro S L C hat hS hheld _ hnext
  refine h.value hat.left hheld fun y J L' C' hJ hy hheld' => ?_
  rw [Setting.stop_seq] at hnext
  refine Body.storeLocal hat.right.code.head (hnext trivial (J ++ S) _ _ (fun he => ?_) ?_)
  · rw [hJ he, hS he, append_nil]
  · exact hheld'.set hG fun x hx hk => hy (hj x hx hk)

theorem Flow.unset (hG : ∀ x, G' x → c.slots.cell? x ≠ some j → G x)
    (hj : ∀ x, G' x → c.slots.cell? x = some j → c.good 0 (some (p.pc : Int))) :
    c.Flow p n G G' exact post True (.seq (.push 0) (.instr ⟨.storeLocal, some (j : Int)⟩)) := by
  intro S L C hat hS hheld _ hnext
  exact Body.push hat.code.head (Body.storeLocal hat.right.code.head (hnext trivial S _ _ hS (hheld.set hG hj)))

theorem Flow.zeros (cell : Nat → Nat) (js : List Nat) (h : ∀ j ∈ js, ∀ x, G x → c.slots.cell? x ≠ some (cell j)) :
    c.Flow p n G G exact post True
      (.plain (js.flatMap fun j => [⟨.pushInt, some 0⟩, ⟨.storeLocal, some (cell j : Int)⟩])) := by
  induction js generalizing p with
  | nil => exact .skip
  | cons j js ih =>
    intro S L C hat hS hheld hret hnext
    have hat' := hat.right
    simp only [flatMap_cons, cons_append, Shape.plain, Setting.stop_seq] at hnext
    refine Body.push hat.code.head (Body.storeLocal hat'.code.head ?_)
    refine ih (p := ⟨_, _⟩) (fun i hi => h i (by simp [hi])) S _ _ hat'.right hS ?_ hret hnext
    exact hheld.set (fun x hx _ => hx) fun x hx hk => absurd hk (h j (by simp) x hx)

theorem Flow.print {newline : Bool} {t : Ty} (h : c.Work n G exact 0 1 (t = .str) s) :
    c.Flow p n G G exact post True (.seq s (.op (printOp newline t))) := by
  intro S L C hat hS hheld _ hnext
  refine h.value hat.left hheld fun x J L' C' hJ hx hheld' => ?_
  have hend := hnext trivial (J ++ S) L' C' (fun he => by rw [hJ he, hS he, append_nil]) hheld'
  rw [Setting.stop_seq] at hend
  have hcode := hat.right.code.head
  by_cases ht : t = .str
  · exact Body.printStr hcode (by cases newline <;> simp [printOp, ht]) (hx ht) hend
  · exact Body.printInt hcode (by cases newline <;> simp [printOp, ht]) hend

theorem Flow.say (newline : Bool) (t : String) : c.Flow p n G G exact post True (.say newline t) := by
  intro S L C hat hS hheld _ hnext
  have hgood := hat.literals (p, t) (mem_singleton_self _)
  refine Body.push hat.code.head (Body.printStr hat.code.tail.head ?_ hgood (hnext trivial S L C hS hheld))
  cases newline <;> simp [printOp]

theorem Flow.branch (htest : c.Work n G exact 0 1 b test)
    (hyes : c.Flow ((c.beyond test p).skip 1) n G G exact post falls yes)
    (hno : c.Flow ((c.beyond yes ((c.beyond test p).skip 1)).skip 1) n G G exact post falls' no) :
    c.Flow p n G G exact post True (.seq test (.branch yes no)) := by
  intro S L C hat hS hheld hret hnext
  simp only [beyond_eq, Place.skip] at hyes hno
  refine htest.value hat.left hheld fun x J L' C' hJ _ hheld' => ?_
  have hrest : exact → J ++ S = [] := fun he => by rw [hJ he, hS he, append_nil]
  rw [Setting.stop_seq] at hnext
  obtain ⟨hjump, hatyes, hjmp, hatno, hstop⟩ := hat.right.branch
  refine Body.jumpOn hjump ?_ ?_
  · refine hno (J ++ S) L' C' hatno hrest hheld' hret fun _ => ?_
    rw [hstop]
    exact hnext trivial
  · refine hyes (J ++ S) L' C' hatyes hrest hheld' hret fun _ S' L'' C'' hS' hheld'' => ?_
    exact Body.jump hjmp fun m hm => (hnext trivial S' L'' C'' hS' hheld'').mono hm.le

/-- A loop goes round with fewer steps to go. -/
theorem Flow.loop (htest : ∀ m ≤ n, c.Work m G exact 0 1 b test)
    (hbody : ∀ m ≤ n, c.Flow ((c.beyond test p).skip 1) m G G exact post falls body) :
    c.Flow p n G G exact post True (.loop test body) := by
  induction n using Nat.strongRecOn with
  | ind n ih =>
    intro S L C hat hS hheld hret hnext
    obtain ⟨hattest, hjump, hatbody, hjmp⟩ := hat.loop
    refine (htest n le_rfl).value hattest hheld fun x J L' C' hJ _ hheld' => ?_
    have hrest : exact → J ++ S = [] := fun he => by rw [hJ he, hS he, append_nil]
    refine Body.jumpOn hjump (hnext trivial (J ++ S) L' C' hrest hheld') ?_
    have hround := hbody n le_rfl
    simp only [beyond_eq] at hround
    refine hround (J ++ S) L' C' hatbody hrest hheld' hret fun _ S' L'' C'' hS' hheld'' => ?_
    refine Body.jump hjmp fun m hm => ?_
    refine ih m hm (fun l hl => htest l (by omega)) (fun l hl => hbody l (by omega)) S' L'' C'' hat hS' hheld''
      (hret.mono hm.le) fun _ T M D hT hM => ?_
    exact (hnext trivial T M D hT hM).mono hm.le

end Flow

end Body

end Workbench.Bytecode
