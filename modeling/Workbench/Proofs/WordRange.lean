import Workbench.Proofs.InstrEffect
import Workbench.Proofs.Reach

/-!
# The values of the machine

Additions, subtractions, products and negations wrap, but divisions, stores, fills, loads, calls and returns pass on
what they find. `Lasting` is what a property of values has to satisfy so that no instruction can break it: then it
holds of everything in a run, if it holds of the numbers in the code (`Reaches.all`). The main statement,
`word_range`, is that of code that pushes words: every value is a word of 16 bits, whatever else the code does.
-/

namespace Workbench.Machine

/-- A property that wrapped numbers have and that quotients take over. -/
structure Lasting (P : Int → Prop) : Prop where
  wrap : ∀ n, P (wrap n)
  fdiv : ∀ a b, P a → P b → b ≠ 0 → P (a.fdiv b)

/-- Everything on the operand stack and in the cells of all calls has the property. -/
structure State.All (P : Int → Prop) (s : State) : Prop where
  stack : ∀ v ∈ s.stack, P v
  locals : ∀ v ∈ s.locals, P v
  calls : ∀ fr ∈ s.calls, ∀ v ∈ fr.locals, P v

/-- Everything that is left of the machine, and the value of the run if it ends, has the property. -/
def Outcome.All (P : Int → Prop) : Outcome → Prop
  | .next t _ | .fault _ t => t.All P
  | .exit v t => P v ∧ t.All P

/-- The numbers that the code pushes have the property. -/
def Image.Pushes (img : Image) (P : Int → Prop) : Prop :=
  ∀ i ∈ img.code, i.op = .pushInt → ∀ n ∈ i.arg, P n

instance (img : Image) (P : Int → Prop) [DecidablePred P] : Decidable (img.Pushes P) :=
  inferInstanceAs (Decidable (∀ i ∈ img.code, i.op = .pushInt → ∀ n ∈ i.arg, P n))

section Kept

variable {P : Int → Prop} {s : State} {img : Image}

theorem Lasting.zero (h : Lasting P) : P 0 := h.wrap 0

theorem Lasting.ofBool (h : Lasting P) (b : Bool) : P (ofBool b) := by
  cases b
  · exact h.wrap 0
  · exact h.wrap 1

theorem Lasting.getD (h : Lasting P) {cells : Array Int} (hcells : ∀ v ∈ cells, P v) (k : Nat) :
    P (cells.getD k 0) := by
  rw [Array.getD_eq_getD_getElem?]
  cases hk : cells[k]? with
  | none => exact h.zero
  | some v => exact hcells v (Array.mem_of_getElem? hk)

theorem forall_mem_setIfInBounds {cells : Array Int} (hcells : ∀ v ∈ cells, P v) {k : Nat} {w : Int} (hw : P w) :
    ∀ v ∈ cells.setIfInBounds k w, P v := by
  intro v hv
  rcases Array.mem_or_eq_of_mem_setIfInBounds hv with hv | rfl
  · exact hcells v hv
  · exact hw

namespace State.All

theorem pc (h : s.All P) (pc : Int) : State.All P { s with pc := pc } := ⟨h.stack, h.locals, h.calls⟩

theorem push (h : s.All P) {v : Int} (hv : P v) : (s.push v).All P :=
  ⟨List.forall_mem_cons.2 ⟨hv, h.stack⟩, h.locals, h.calls⟩

theorem write (h : s.All P) {v : Int} (hv : P v) (k : Nat) :
    State.All P { s with locals := s.locals.setIfInBounds k v } :=
  ⟨h.stack, forall_mem_setIfInBounds h.locals hv, h.calls⟩

theorem cells (h : s.All P) {cells : Array Int} (hcells : ∀ v ∈ cells, P v) :
    State.All P { s with locals := cells } := ⟨h.stack, hcells, h.calls⟩

theorem underflow (h : s.All P) : s.underflow.All P := ⟨by simp, h.locals, h.calls⟩

theorem pop₁ (h : s.All P) {f : State → Int → Outcome} (hf : ∀ s a, s.All P → P a → (f s a).All P) :
    (s.pop₁ f).All P := by
  unfold State.pop₁
  split
  case h_1 a r hs =>
    have hstack := List.forall_mem_cons.1 (hs ▸ h.stack)
    exact hf _ a ⟨hstack.2, h.locals, h.calls⟩ hstack.1
  case h_2 => exact h.underflow

theorem pop₂ (h : s.All P) {f : State → Int → Int → Outcome} (hf : ∀ s a b, s.All P → P a → P b → (f s a b).All P) :
    (s.pop₂ f).All P := by
  unfold State.pop₂
  split
  case h_1 b a r hs =>
    have hstack := h.stack
    rw [hs] at hstack
    simp only [List.forall_mem_cons] at hstack
    exact hf _ a b ⟨hstack.2.2, h.locals, h.calls⟩ hstack.2.1 hstack.1
  case h_2 => exact h.underflow

theorem pop₃ (h : s.All P) {f : State → Int → Int → Int → Outcome}
    (hf : ∀ s a b c, s.All P → P a → P b → P c → (f s a b c).All P) : (s.pop₃ f).All P := by
  unfold State.pop₃
  split
  case h_1 c b a r hs =>
    have hstack := h.stack
    rw [hs] at hstack
    simp only [List.forall_mem_cons] at hstack
    exact hf _ a b c ⟨hstack.2.2.2, h.locals, h.calls⟩ hstack.2.2.1 hstack.2.1 hstack.1
  case h_2 => exact h.underflow

theorem withArg (h : s.All P) {i : Instr} {f : Int → Outcome} (hf : ∀ n, i.arg = some n → (f n).All P) :
    (withArg i s f).All P := by
  unfold Machine.withArg
  split
  case h_1 n hn => exact hf n hn
  case h_2 => exact h

theorem load (h : s.All P) (hP : Lasting P) (i : Int) : (s.load i).All P := by
  unfold State.load
  split
  · exact h
  · exact h.push (hP.getD h.locals _)

theorem store (h : s.All P) (i : Int) {v : Int} (hv : P v) : (s.store i v).All P := by
  unfold State.store
  split
  · exact h
  · exact h.write hv _

end State.All

theorem copyCells_all (hP : Lasting P) (dst src : Int) (n : Nat) (cells : Array Int) (h : ∀ v ∈ cells, P v) :
    match copyCells dst src n cells with
    | .ok cells | .error cells => ∀ v ∈ cells, P v := by
  fun_induction copyCells dst src n cells with
  | case1 => exact h
  | case2 dst src n cells _ ih => exact ih (forall_mem_setIfInBounds h (hP.getD h _))
  | case3 => exact h

theorem fillCells_all {value : Int} (hv : P value) (dst : Int) (n : Nat) (cells : Array Int) (h : ∀ v ∈ cells, P v) :
    match fillCells dst value n cells with
    | .ok cells | .error cells => ∀ v ∈ cells, P v := by
  fun_induction fillCells dst value n cells with
  | case1 => exact h
  | case2 dst n cells _ ih => exact ih (forall_mem_setIfInBounds h hv)
  | case3 => exact h

theorem State.All.copyLocals (h : s.All P) (hP : Lasting P) (dst src count : Int) :
    (copyLocals s dst src count).All P := by
  have hcells := copyCells_all hP dst src count.toNat s.locals h.locals
  unfold Machine.copyLocals
  split
  · exact h
  · rcases hcopy : copyCells dst src count.toNat s.locals with cells | cells
    all_goals
      simp only [hcopy] at hcells
      exact h.cells hcells

theorem State.All.fillLocals (h : s.All P) (dst count : Int) {value : Int} (hv : P value) :
    (fillLocals s dst value count).All P := by
  have hcells := fillCells_all hv dst count.toNat s.locals h.locals
  unfold Machine.fillLocals
  split
  · exact h
  · rcases hfill : fillCells dst value count.toNat s.locals with cells | cells
    all_goals
      simp only [hfill] at hcells
      exact h.cells hcells

theorem callCells_all (hP : Lasting P) (f : FunctionInfo) (args : List Int) : ∀ v ∈ callCells f args, P v := by
  intro v hv
  simp only [callCells, List.mem_toArray, List.mem_append, List.mem_map, List.mem_replicate] at hv
  rcases hv with ⟨a, -, rfl⟩ | ⟨-, rfl⟩
  · exact hP.wrap a
  · exact hP.zero

theorem State.All.enter (h : s.All P) (hP : Lasting P) (f : FunctionInfo) : (enter s f).All P := by
  unfold Machine.enter
  dsimp only
  split
  · exact ⟨by simp, h.locals, h.calls⟩
  · exact ⟨fun v hv => h.stack v (List.mem_of_mem_drop hv), callCells_all hP f _,
      List.forall_mem_cons.2 ⟨h.locals, h.calls⟩⟩

theorem State.All.leave (h : s.All P) (hP : Lasting P) : (leave s).All P := by
  have hvalue : P (s.stack.headD 0) := by
    cases hs : s.stack with
    | nil => exact hP.zero
    | cons v r => exact h.stack v (by simp [hs])
  have hrest : ∀ v ∈ s.stack.tail, P v := fun v hv => h.stack v (List.mem_of_mem_tail hv)
  unfold Machine.leave
  dsimp only
  split
  case h_1 => exact ⟨hvalue, hrest, h.locals, h.calls⟩
  case h_2 fr frs hcalls =>
    obtain ⟨hfr, hfrs⟩ := List.forall_mem_cons.1 (hcalls ▸ h.calls)
    exact ⟨List.forall_mem_cons.2 ⟨hvalue, hrest⟩, hfr, hfrs⟩

/-- No instruction breaks the property. -/
theorem State.All.execute (h : s.All P) (hP : Lasting P) {i : Instr}
    (hi : i.op = .pushInt → ∀ n ∈ i.arg, P n) : (execute img i s).All P := by
  obtain ⟨op, arg⟩ := i
  cases op <;> simp only [Machine.execute]
  case pushInt => exact h.withArg fun n hn => h.push (hi rfl n hn)
  case loadLocal => exact h.withArg fun n _ => h.load hP n
  case storeLocal => exact h.pop₁ fun s v hs hv => hs.withArg fun n _ => hs.store n hv
  case add | sub | mul => exact h.pop₂ fun s a b hs _ _ => hs.push (hP.wrap _)
  case div =>
    refine h.pop₂ fun s a b hs ha hb => ?_
    split
    · exact hs
    · exact hs.push (hP.fdiv a b ha hb ‹_›)
  case neg => exact h.pop₁ fun s a hs _ => hs.push (hP.wrap _)
  case cmpEq | cmpNe | cmpLt | cmpLe | cmpGt | cmpGe => exact h.pop₂ fun s a b hs _ _ => hs.push (hP.ofBool _)
  case not => exact h.pop₁ fun s a hs _ => hs.push (hP.ofBool _)
  case jmp => exact h.withArg fun n _ => h.pc n
  case jz | jnz =>
    refine h.pop₁ fun s a hs _ => ?_
    split
    · exact hs.withArg fun n _ => hs.pc n
    · exact hs
  case call =>
    refine h.withArg fun n _ => ?_
    split
    · exact h
    · exact h.enter hP _
  case ret => exact h.leave hP
  case loadLocalIdx => exact h.pop₁ fun s a hs _ => hs.withArg fun base _ => hs.load hP (base + a)
  case storeLocalIdx =>
    refine h.pop₂ fun s v a hs hv _ => hs.withArg fun base _ => ?_
    split
    · exact hs.write hv _
    · exact hs
  case loadIndirect =>
    refine h.pop₁ fun s p hs _ => ?_
    split
    · exact hs.push (hP.getD hs.locals _)
    · exact hs
  case storeIndirect =>
    refine h.pop₂ fun s p v hs _ hv => ?_
    split
    · exact hs.write hv _
    · exact hs
  case memcpyLocals => exact h.pop₃ fun s dst src count hs _ _ _ => hs.copyLocals hP dst src count
  case memsetLocals => exact h.pop₃ fun s dst value count hs _ hv _ => hs.fillLocals dst count hv
  case printInt | printStr | printlnInt | printlnStr => exact h.pop₁ fun s v hs _ => hs
  case other => exact h

theorem State.All.step (h : s.All P) (hP : Lasting P) (himg : img.Pushes P) : (step img s).All P := by
  unfold Machine.step
  split
  · exact ⟨hP.zero, h⟩
  · split
    case h_1 => exact h
    case h_2 i hi =>
      obtain ⟨k, hk⟩ := Image.exists_of_fetch hi
      exact (h.pc _).execute hP (himg i (Array.mem_of_getElem? hk))

theorem Image.Reaches.all (hs : img.Reaches s) (hP : Lasting P) (himg : img.Pushes P) : s.All P := by
  refine hs.induction (fun f _ => ?_) fun s t o _ h hstep => ?_
  · refine ⟨by simp [State.start], fun v hv => ?_, by simp [State.start]⟩
    rw [Array.eq_of_mem_replicate hv]
    exact hP.zero
  · have hnext := h.step hP himg
    rwa [hstep] at hnext

theorem Image.exit_all (hP : Lasting P) (himg : img.Pushes P) {limit : Nat} {w : Watch} {v : Int}
    (h : (img.run limit w).ending = .exit v) : P v := by
  rcases img.run_reaches limit w with he | he | ⟨-, he⟩ | ⟨s, hs, he⟩
  · rw [h] at he; cases he
  · rw [h] at he; cases he
  · rw [h] at he; cases he
  · have hstep := (hs.all hP himg).step hP himg
    rw [h] at he
    unfold State.ending? at he
    split at he <;> cases he
    case h_2 hx =>
      rw [hx] at hstep
      exact hstep.1

end Kept

/-! ### Words -/

/-- A number that 16 bits hold. -/
def IsWord (v : Int) : Prop := 0 ≤ v ∧ v ≤ 65535

instance (v : Int) : Decidable (IsWord v) := inferInstanceAs (Decidable (_ ∧ _))

theorem IsWord.lasting : Lasting IsWord where
  wrap n := by
    unfold IsWord wrap
    omega
  fdiv a b ha hb hb0 := by
    have hquot : 0 ≤ a.fdiv b := Int.fdiv_nonneg ha.1 hb.1
    have hle : a.fdiv b ≤ a := by
      rw [Int.fdiv_eq_ediv_of_nonneg a hb.1]
      exact Int.ediv_le_self b ha.1
    exact ⟨hquot, Int.le_trans hle ha.2⟩

/-- **The range of values.** Where the code pushes words only, all values in a run are words, on the stack and in the
cells, and so are the numbers that are printed and the value of the run. No division has a negative operand or quotient,
and no count of a copy or a fill is negative. -/
theorem word_range {img : Image} (himg : img.Pushes IsWord) :
    (∀ s, img.Reaches s → s.All IsWord ∧ ∀ i, img.fetch s.pc = .ok i →
      (i.op = .printInt ∨ i.op = .printlnInt → ∀ t text, step img s = .next t (some text) →
        ∃ v, IsWord v ∧ (text = toString v ∨ text = toString v ++ "\n")) ∧
      (i.op = .div → ∀ a b r, s.stack = b :: a :: r → 0 ≤ a ∧ 0 ≤ b ∧
        (b ≠ 0 → ∃ q, 0 ≤ q ∧ step img s = .next { s with pc := s.pc + 1, stack := q :: r } none)) ∧
      ∀ f u, step img s = .fault f u → f ≠ .copyNegative ∧ f ≠ .fillNegative) ∧
    ∀ limit w v, (img.run limit w).ending = .exit v → IsWord v := by
  refine ⟨fun s hs => ?_, fun limit w v => Image.exit_all IsWord.lasting himg⟩
  have hall := hs.all IsWord.lasting himg
  refine ⟨hall, fun i hi => ?_⟩
  rw [step_of_fetch hi]
  refine ⟨?_, ?_, fun f u hx => ?_⟩
  · rintro hop t text hx
    obtain ⟨op, arg⟩ := i
    rcases hop with rfl | rfl <;> simp only [execute] at hx
    all_goals
      obtain ⟨v, r, hstack, hx⟩ := State.pop₁_next hx
      cases hx
      refine ⟨v, hall.stack v (by rw [hstack]; simp), ?_⟩
    · exact .inl rfl
    · exact .inr rfl
  · rintro hop a b r hstack
    have ha := (hall.stack a (by rw [hstack]; simp)).1
    have hb := (hall.stack b (by rw [hstack]; simp)).1
    refine ⟨ha, hb, fun hb0 => ⟨a.fdiv b, Int.fdiv_nonneg ha hb, ?_⟩⟩
    simp [execute, hop, State.pop₂, hstack, hb0, State.push]
  · rw [← not_or]
    intro hf
    obtain ⟨count, hmem, hneg⟩ := (execute_faults hx).exists_negative hf
    exact absurd (hall.stack count hmem).1 (Int.not_le.2 hneg)

/-- Negates, multiplies and divides, stores the quotient in the last cell by an index from the back, and prints it. -/
def quotientImage : Image where
  code := #[⟨.pushInt, some 65535⟩, ⟨.neg, none⟩, ⟨.pushInt, some 65535⟩, ⟨.mul, none⟩, ⟨.pushInt, some 2⟩,
    ⟨.div, none⟩, ⟨.storeLocal, some (-1)⟩, ⟨.loadLocal, some 0⟩, ⟨.printlnInt, none⟩, ⟨.pushInt, some 65535⟩, ⟨.ret, none⟩]
  functions := #[⟨"main", 0, 1, 0⟩]
  strings := []

theorem quotientImage_exits : quotientImage.Pushes IsWord ∧
    (quotientImage.run 20 {}).run.out = ["32767\n"] ∧ (quotientImage.run 20 {}).ending = .exit 65535 ∧ IsWord 65535 :=
  ⟨by decide, by decide, by decide, (@word_range quotientImage (by decide)).2 20 {} 65535 (by decide)⟩

end Workbench.Machine
