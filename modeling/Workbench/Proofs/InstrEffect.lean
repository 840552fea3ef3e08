import Workbench.Proofs.MachineRun

/-!
# What an instruction does

An instruction takes some operands and leaves some (`Op.effect`, `execute_effect`), and there are few reasons why it
cannot be carried out (`Faults`, `execute_faults`). What is shown of faults goes through this list.
-/

namespace Workbench.Machine

open State

/-- How many operands an instruction takes, and how many it leaves. What a call takes and leaves depends on the
function. -/
def Op.effect : Op → Nat × Nat
  | .pushInt | .loadLocal => (0, 1)
  | .neg | .not | .loadLocalIdx | .loadIndirect => (1, 1)
  | .storeLocal | .jz | .jnz | .printInt | .printStr | .printlnInt | .printlnStr => (1, 0)
  | .add | .sub | .mul | .div | .cmpEq | .cmpNe | .cmpLt | .cmpLe | .cmpGt | .cmpGe => (2, 1)
  | .storeLocalIdx | .storeIndirect => (2, 0)
  | .memcpyLocals | .memsetLocals => (3, 0)
  | .jmp | .call | .ret | .other _ => (0, 0)

variable {img : Image} {i : Instr} {out : Option String} {pc : Int}

theorem execute_effect {s t : State} (hi : i.op.isPlain = true) (h : execute img i s = .next t out) :
    i.op.effect.1 ≤ s.stack.length ∧ i.op.effect.2 ≤ t.stack.length ∧
      s.stack.drop i.op.effect.1 = t.stack.drop i.op.effect.2 := by
  obtain ⟨op, arg⟩ := i
  cases op
  case jmp | jz | jnz | call | ret => cases hi
  all_goals
    simp only [execute, withArg, pop₁, pop₂, pop₃, load,
      store, copyLocals, fillLocals] at h
    repeat' split at h
    all_goals cases h
    all_goals simp [Op.effect, *]

theorem State.pop₁_next {s t : State} {g : State → Int → Outcome} (h : s.pop₁ g = .next t out) :
    ∃ a r, s.stack = a :: r ∧ g { s with stack := r } a = .next t out := by
  unfold pop₁ at h
  split at h
  case h_1 a r hs => exact ⟨a, r, hs, h⟩
  case h_2 => cases h

/-! ### Fetching -/

theorem Image.exists_of_fetch (h : img.fetch pc = .ok i) : ∃ k : Nat, img.code[k]? = some i := by
  unfold Image.fetch at h
  cases hk : cellAt img.code.size pc with
  | error e => simp [hk, bind, Except.bind] at h
  | ok k =>
    simp only [hk, bind, Except.bind] at h
    split at h
    · cases h
      exact ⟨k, ‹_›⟩
    · cases h

theorem Image.fetch_of_code {pc : Nat} (h : img.code[pc]? = some i) : img.fetch pc = .ok i := by
  have hlt : pc < img.code.size := (Array.getElem?_eq_some_iff.1 h).1
  simp [Image.fetch, cellAt_ofNat hlt, h, bind, Except.bind]

theorem Image.lt_of_fetch (h : img.fetch pc = .ok i) : pc < img.code.size := by
  unfold Image.fetch cellAt at h
  by_cases hpc : pc < img.code.size
  · exact hpc
  · rw [if_neg (by omega), if_neg (by omega)] at h
    split at h <;> cases h

theorem step_of_fetch {s : State} (h : img.fetch s.pc = .ok i) :
    step img s = execute img i { s with pc := s.pc + 1 } := by
  rw [step, if_neg (Int.not_le.2 (Image.lt_of_fetch h)), h]

/-! ### Faults -/

/-- An operation that needs an operand in the code. -/
def Op.needsArg : Op → Bool
  | .pushInt | .loadLocal | .storeLocal | .jmp | .jz | .jnz | .call | .loadLocalIdx | .storeLocalIdx => true
  | _ => false

/-- An instruction of the machine with the operand that it needs; a number that it pushes satisfies `num`. -/
structure Instr.Proper (num : Int → Prop) (i : Instr) : Prop where
  known : ∀ name, i.op ≠ .other name
  arg : i.op.needsArg = true → i.arg.isSome = true
  push : i.op = .pushInt → ∀ n ∈ i.arg, num n

/-- Why an instruction cannot be carried out. -/
inductive Faults (img : Image) (i : Instr) (s : State) : Fault → Prop
  | short (h : s.stack.length < i.op.effect.1) : Faults img i s .emptyStack
  | noOperand (hop : i.op.needsArg = true) (h : i.arg = none) : Faults img i s .noOperand
  | read {n : Int} {e : BadIndex} (hop : i.op = .loadLocal) (harg : i.arg = some n)
      (h : cellAt s.locals.size n = .error e) : Faults img i s (.ofRead e)
  | write {n : Int} {e : BadIndex} (hop : i.op = .storeLocal) (harg : i.arg = some n)
      (h : cellAt s.locals.size n = .error e) : Faults img i s (.ofWrite e)
  | divisionByZero (hop : i.op = .div) : Faults img i s .divisionByZero
  | function {n : Int} {e : BadIndex} (hop : i.op = .call) (harg : i.arg = some n) (h : img.function n = .error e) :
      Faults img i s (.ofRead e)
  | arguments {n : Int} {f : FunctionInfo} (hop : i.op = .call) (harg : i.arg = some n) (hf : img.function n = .ok f)
      (h : s.stack.length < f.numParams.toNat) : Faults img i s .argUnderflow
  | loadElement (e : BadIndex) (hop : i.op = .loadLocalIdx) : Faults img i s (.ofRead e)
  | storeElement (base index : Int) (hop : i.op = .storeLocalIdx) :
      Faults img i s (.storeElement base index s.locals.size)
  | loadIndirect (cell : Int) (hop : i.op = .loadIndirect) : Faults img i s (.loadIndirect cell s.locals.size)
  | storeIndirect (cell : Int) (hop : i.op = .storeIndirect) : Faults img i s (.storeIndirect cell s.locals.size)
  | copyNegative {count : Int} (hop : i.op = .memcpyLocals) (hmem : count ∈ s.stack) (h : count < 0) :
      Faults img i s .copyNegative
  | copyRange (src dst count : Int) (hop : i.op = .memcpyLocals) :
      Faults img i s (.copyRange src dst count s.locals.size)
  | fillNegative {count : Int} (hop : i.op = .memsetLocals) (hmem : count ∈ s.stack) (h : count < 0) :
      Faults img i s .fillNegative
  | fillRange (dst count : Int) (hop : i.op = .memsetLocals) : Faults img i s (.fillRange dst count s.locals.size)
  | unknownOp {name : String} (hop : i.op = .other name) : Faults img i s (.unknownOp name)

/-- The outcome is no fault, or one with a reason in `P`. -/
def Outcome.Blames (P : Fault → Prop) : Outcome → Prop
  | .fault f _ => P f
  | _ => True

section Blames

variable {P : Fault → Prop} {s : State}

theorem State.pop₁_blames {g : State → Int → Outcome} (hshort : s.stack.length < 1 → P .emptyStack)
    (hg : ∀ r a, (g { s with stack := r } a).Blames P) : (s.pop₁ g).Blames P := by
  obtain ⟨pc, stack, locals, calls⟩ := s
  rcases stack with _ | ⟨a, r⟩
  · exact hshort (by simp)
  · exact hg r a

theorem State.pop₂_blames {g : State → Int → Int → Outcome} (hshort : s.stack.length < 2 → P .emptyStack)
    (hg : ∀ r a b, (g { s with stack := r } a b).Blames P) : (s.pop₂ g).Blames P := by
  obtain ⟨pc, stack, locals, calls⟩ := s
  rcases stack with _ | ⟨b, _ | ⟨a, r⟩⟩
  · exact hshort (by simp)
  · exact hshort (by simp)
  · exact hg r a b

theorem State.pop₃_blames {g : State → Int → Int → Int → Outcome} (hshort : s.stack.length < 3 → P .emptyStack)
    (hg : ∀ r a b, ∀ c ∈ s.stack, (g { s with stack := r } a b c).Blames P) : (s.pop₃ g).Blames P := by
  obtain ⟨pc, stack, locals, calls⟩ := s
  rcases stack with _ | ⟨c, _ | ⟨b, _ | ⟨a, r⟩⟩⟩
  · exact hshort (by simp)
  · exact hshort (by simp)
  · exact hshort (by simp)
  · exact hg r a b c (by simp)

theorem withArg_blames {i : Instr} {g : Int → Outcome} (hnone : i.arg = none → P .noOperand)
    (hg : ∀ n, i.arg = some n → (g n).Blames P) : (withArg i s g).Blames P := by
  unfold withArg
  cases h : i.arg with
  | none => exact hnone h
  | some n => exact hg n h

end Blames

variable {img : Image} {i : Instr}

/-- Every fault has one of the causes that `Faults` lists. -/
theorem execute_blames (img : Image) (i : Instr) (s : State) : (execute img i s).Blames (Faults img i s) := by
  obtain ⟨op, arg⟩ := i
  cases op <;> simp only [execute]
  case pushInt | jmp => exact withArg_blames (.noOperand rfl) fun _ _ => trivial
  case loadLocal =>
    refine withArg_blames (.noOperand rfl) fun n harg => ?_
    unfold load
    split
    · exact .read rfl harg ‹_›
    · trivial
  case storeLocal =>
    refine pop₁_blames (.short ·) fun r v => withArg_blames (.noOperand rfl) fun n harg => ?_
    unfold store
    split
    · exact .write rfl harg ‹_›
    · trivial
  case add | sub | mul | cmpEq | cmpNe | cmpLt | cmpLe | cmpGt | cmpGe =>
    exact pop₂_blames (.short ·) fun _ _ _ => trivial
  case neg | not | printInt | printStr | printlnInt | printlnStr =>
    exact pop₁_blames (.short ·) fun _ _ => trivial
  case div =>
    refine pop₂_blames (.short ·) fun r a b => ?_
    split
    · exact .divisionByZero rfl
    · trivial
  case jz | jnz =>
    refine pop₁_blames (.short ·) fun r a => ?_
    split
    · exact withArg_blames (.noOperand rfl) fun _ _ => trivial
    · trivial
  case call =>
    refine withArg_blames (.noOperand rfl) fun n harg => ?_
    split
    · exact .function rfl harg ‹_›
    · unfold enter
      dsimp only
      split
      · exact .arguments rfl harg ‹_› ‹_›
      · trivial
  case ret =>
    unfold leave
    dsimp only
    split <;> trivial
  case loadLocalIdx =>
    refine pop₁_blames (.short ·) fun r a => withArg_blames (.noOperand rfl) fun n _ => ?_
    unfold load
    split
    · exact .loadElement _ rfl
    · trivial
  case storeLocalIdx =>
    refine pop₂_blames (.short ·) fun r v a => withArg_blames (.noOperand rfl) fun n _ => ?_
    split
    · trivial
    · exact .storeElement n a rfl
  case loadIndirect =>
    refine pop₁_blames (.short ·) fun r p => ?_
    split
    · trivial
    · exact .loadIndirect p rfl
  case storeIndirect =>
    refine pop₂_blames (.short ·) fun r p v => ?_
    split
    · trivial
    · exact .storeIndirect p rfl
  case memcpyLocals =>
    refine pop₃_blames (.short ·) fun r dst src count hmem => ?_
    unfold copyLocals
    split
    · exact .copyNegative rfl hmem ‹_›
    · split
      · trivial
      · exact .copyRange src dst count rfl
  case memsetLocals =>
    refine pop₃_blames (.short ·) fun r dst value count hmem => ?_
    unfold fillLocals
    split
    · exact .fillNegative rfl hmem ‹_›
    · split
      · trivial
      · exact .fillRange dst count rfl
  case other => exact .unknownOp rfl

theorem execute_faults {s t : State} {f : Fault} (h : execute img i s = .fault f t) : Faults img i s f := by
  have hblames := execute_blames img i s
  rwa [h] at hblames

theorem Faults.exists_negative {s : State} {f : Fault} (h : Faults img i s f)
    (hf : f = .copyNegative ∨ f = .fillNegative) : ∃ count ∈ s.stack, count < 0 := by
  cases h with
  | copyNegative _ hmem hneg | fillNegative _ hmem hneg => exact ⟨_, hmem, hneg⟩
  | @read n e | @write n e | @function n e => cases e <;> simp [Fault.ofRead, Fault.ofWrite] at hf
  | loadElement e => cases e <;> simp [Fault.ofRead] at hf
  | _ => simp at hf

/-- The fault of operands that are not there. -/
def Fault.isUnderflow : Fault → Bool
  | .emptyStack | .argUnderflow => true
  | _ => false

theorem execute_underflow {s t : State} {f : Fault} (hi : i.op.isPlain = true) (h : execute img i s = .fault f t)
    (hf : f.isUnderflow = true) : s.stack.length < i.op.effect.1 := by
  cases execute_faults h with
  | short hs => exact hs
  | arguments hop => rw [hop] at hi; cases hi
  | @read n e | @write n e | @function n e => cases e <;> cases hf
  | loadElement e => cases e <;> cases hf
  | _ => cases hf

end Workbench.Machine
