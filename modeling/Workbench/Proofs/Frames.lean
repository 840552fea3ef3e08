import Mathlib.Data.List.Forall2
import Workbench.Proofs.InstrEffect
import Workbench.Proofs.Reach

/-!
# Control flow and frames

The frames of a state are the current call and the calls that wait. `Shifts` is what an instruction can do to them:
a plain one leaves the place and the number of cells, a jump moves the current frame, a call puts one on top and a
return takes one off. `Image.Active` says which functions the frames belong to.

An image is sealed if the code of every function keeps control in it: jumps stay in the range of the function, the
last instruction does not run on into the next one, and operands of calls and of loads and stores are in range. In the
runs of a sealed image every frame stays in the range of its own function and has the cells of that function
(`Sealed.within`).
-/

namespace Workbench.Machine

/-- The current call, as a caller that waits, and the callers. -/
def State.frames (s : State) : List Frame := ⟨s.pc, s.locals⟩ :: s.calls

/-! ### What an instruction does to the frames -/

/-- The frames after an instruction; the program counter of `s` is past it. -/
inductive Shifts (img : Image) (i : Instr) (s : State) : List Frame → Prop
  | plain {cells : Array Int} (hop : i.op.isPlain = true) (hsize : cells.size = s.locals.size) :
      Shifts img i s (⟨s.pc, cells⟩ :: s.calls)
  | jump {target : Int} (hop : i.op = .jmp ∨ i.op = .jz ∨ i.op = .jnz) (harg : i.arg = some target) :
      Shifts img i s (⟨target, s.locals⟩ :: s.calls)
  | fall (hop : i.op = .jz ∨ i.op = .jnz) : Shifts img i s s.frames
  | call {n : Int} {k : Nat} {f : FunctionInfo} {cells : Array Int} (hop : i.op = .call) (harg : i.arg = some n)
      (hk : cellAt img.functions.size n = .ok k) (hf : img.functions[k]? = some f)
      (hsize : cells.size = f.numLocals.toNat) : Shifts img i s (⟨f.entry, cells⟩ :: s.frames)
  | ret (hop : i.op = .ret) (hcalls : s.calls ≠ []) : Shifts img i s s.calls

variable {cells cells' : Array Int} {out : Option String}

theorem copyCells_size {dst src : Int} {n : Nat} (h : copyCells dst src n cells = .ok cells') :
    cells'.size = cells.size := by
  fun_induction copyCells dst src n cells with
  | case1 => cases h; rfl
  | case2 dst src n cells _ ih => rw [ih h, Array.size_setIfInBounds]
  | case3 => cases h

theorem fillCells_size {dst value : Int} {n : Nat} (h : fillCells dst value n cells = .ok cells') :
    cells'.size = cells.size := by
  fun_induction fillCells dst value n cells with
  | case1 => cases h; rfl
  | case2 dst n cells _ ih => rw [ih h, Array.size_setIfInBounds]
  | case3 => cases h

theorem callCells_size (f : FunctionInfo) (args : List Int) : (callCells f args).size = f.numLocals.toNat := by
  simp only [callCells, List.size_toArray, List.length_append, List.length_map, List.length_take, List.length_replicate]
  omega

theorem execute_size {img : Image} {i : Instr} {s t : State} (hi : i.op.isPlain = true)
    (h : execute img i s = .next t out) : t.locals.size = s.locals.size := by
  obtain ⟨op, arg⟩ := i
  cases op
  case jmp | jz | jnz | call | ret => cases hi
  all_goals
    simp only [execute, withArg, State.pop₁, State.pop₂, State.pop₃, State.load,
      State.store, copyLocals, fillLocals] at h
    repeat' split at h
    all_goals cases h
    all_goals first | exact copyCells_size ‹_› | exact fillCells_size ‹_› | simp

/-- Every instruction that goes on does to the frames what `Shifts` says. -/
theorem execute_shifts {img : Image} {i : Instr} {s t : State} (h : execute img i s = .next t out) :
    Shifts img i s t.frames := by
  by_cases hplain : i.op.isPlain = true
  · have hsize := execute_size hplain h
    rw [execute_plain hplain] at h
    cases hx : execute img.textOnly i s.alone with
    | next u o =>
      rw [hx] at h
      cases h
      exact .plain hplain hsize
    | exit v u | fault f u =>
      rw [hx] at h
      cases h
  obtain ⟨op, arg⟩ := i
  cases op
  case jmp =>
    cases arg with
    | none => cases h
    | some target =>
      cases h
      exact .jump (.inl rfl) rfl
  case jz | jnz =>
    simp only [execute] at h
    obtain ⟨a, r, -, h⟩ := State.pop₁_next h
    split at h
    · cases arg with
      | none => cases h
      | some target =>
        cases h
        exact .jump (by simp) rfl
    · cases h
      exact .fall (by simp)
  case call =>
    cases arg with
    | none => cases h
    | some n =>
      simp only [execute, withArg] at h
      split at h
      · cases h
      · rename_i f hf
        obtain ⟨k, hk, hf⟩ := Image.function_eq_ok.1 hf
        unfold enter at h
        dsimp only at h
        split at h
        · cases h
        · cases h
          exact .call rfl rfl hk hf (callCells_size f _)
  case ret =>
    simp only [execute, leave] at h
    split at h
    · cases h
    · rename_i fr frs hcalls
      cases h
      have hret : Shifts img ⟨.ret, arg⟩ s s.calls := .ret rfl (by simp [hcalls])
      rwa [hcalls] at hret
  all_goals exact absurd rfl hplain

section Step

variable {img : Image} {s t : State} {o : Option String} {i : Instr}

theorem exists_fetch_of_next (h : step img s = .next t o) : ∃ i, img.fetch s.pc = .ok i := by
  unfold step at h
  split at h
  · cases h
  · split at h
    · cases h
    · exact ⟨_, ‹_›⟩

theorem step_shifts (hi : img.fetch s.pc = .ok i) (h : step img s = .next t o) :
    Shifts img i { s with pc := s.pc + 1 } t.frames := by
  rw [step_of_fetch hi] at h
  exact execute_shifts h

theorem frames_call (hi : img.fetch s.pc = .ok i) (h : step img s = .next t o) (hop : i.op = .call) :
    ∃ n k f cells, i.arg = some n ∧ cellAt img.functions.size n = .ok k ∧ img.functions[k]? = some f ∧
      cells.size = f.numLocals.toNat ∧ t.frames = ⟨f.entry, cells⟩ :: ⟨s.pc + 1, s.locals⟩ :: s.calls := by
  have hshift := step_shifts hi h
  generalize t.frames = frames at hshift
  cases hshift with
  | call _ harg hk hf hsize => exact ⟨_, _, _, _, harg, hk, hf, hsize, rfl⟩
  | plain hop' | jump hop' | fall hop' | ret hop' => simp [hop, Op.isPlain] at hop'

theorem frames_ret (hi : img.fetch s.pc = .ok i) (h : step img s = .next t o) (hop : i.op = .ret) :
    t.frames = s.calls := by
  have hshift := step_shifts hi h
  generalize t.frames = frames at hshift
  cases hshift with
  | ret => rfl
  | plain hop' | jump hop' | fall hop' | call hop' => simp [hop, Op.isPlain] at hop'

/-- Any other instruction moves the current frame by one, or to where it jumps. -/
theorem frames_other (hi : img.fetch s.pc = .ok i) (h : step img s = .next t o) (hcall : i.op ≠ .call)
    (hret : i.op ≠ .ret) : ∃ fr, t.frames = fr :: s.calls ∧ fr.locals.size = s.locals.size ∧
      (fr.pc = s.pc + 1 ∧ i.op ≠ .jmp ∨ i.arg = some fr.pc ∧ (i.op = .jmp ∨ i.op = .jz ∨ i.op = .jnz)) := by
  have hshift := step_shifts hi h
  generalize t.frames = frames at hshift
  cases hshift with
  | plain hop hsize =>
    refine ⟨_, rfl, hsize, .inl ⟨rfl, ?_⟩⟩
    rintro hjmp
    rw [hjmp] at hop
    cases hop
  | jump hop harg => exact ⟨_, rfl, rfl, .inr ⟨harg, hop⟩⟩
  | fall hop => exact ⟨_, rfl, rfl, .inl ⟨rfl, by rcases hop with hop | hop <;> simp [hop]⟩⟩
  | call hop => exact absurd hop hcall
  | ret hop => exact absurd hop hret

end Step

/-! ### Which functions are active -/

/-- The functions whose calls are going on in a state of the run, by number, the latest first. -/
inductive Image.Active (img : Image) : State → List Nat → Prop
  | start {f : FunctionInfo} {k : Nat} (hm : img.main? = some f) (hk : img.functions[k]? = some f) :
      Active img (.start f) [k]
  | call {s t : State} {o : Option String} {ks : List Nat} {i : Instr} {n : Int} {k : Nat} (h : Active img s ks)
      (hi : img.fetch s.pc = .ok i) (hop : i.op = .call) (harg : i.arg = some n)
      (hk : cellAt img.functions.size n = .ok k) (hs : step img s = .next t o) : Active img t (k :: ks)
  | ret {s t : State} {o : Option String} {k : Nat} {ks : List Nat} {i : Instr} (h : Active img s (k :: ks))
      (hi : img.fetch s.pc = .ok i) (hop : i.op = .ret) (hs : step img s = .next t o) : Active img t ks
  | other {s t : State} {o : Option String} {ks : List Nat} {i : Instr} (h : Active img s ks)
      (hi : img.fetch s.pc = .ok i) (hcall : i.op ≠ .call) (hret : i.op ≠ .ret) (hs : step img s = .next t o) :
      Active img t ks

section Active

variable {img : Image} {s : State} {ks : List Nat}

theorem Image.Active.length_eq (h : img.Active s ks) : ks.length = s.frames.length := by
  induction h with
  | start => rfl
  | call _ hi hop _ _ hs ih =>
    obtain ⟨n, k, f, cells, -, -, -, -, hframes⟩ := frames_call hi hs hop
    rw [hframes]
    simpa [State.frames] using ih
  | ret _ hi hop hs ih =>
    rw [frames_ret hi hs hop]
    simpa [State.frames] using ih
  | other _ hi hcall hret hs ih =>
    obtain ⟨fr, hframes, -⟩ := frames_other hi hs hcall hret
    rw [hframes]
    exact ih

/-- In every state of a run some functions are active. -/
theorem Image.reaches_iff_active : img.Reaches s ↔ ∃ ks, img.Active s ks := by
  constructor
  · refine Reaches.induction (P := fun s => ∃ ks, img.Active s ks) (fun f hm => ?_) fun s t o _ ⟨ks, hks⟩ hs => ?_
    · obtain ⟨k, hk⟩ := List.mem_iff_getElem?.1 (List.mem_reverse.1 (List.mem_of_find?_eq_some hm))
      exact ⟨[k], .start hm (by rwa [Array.getElem?_toList] at hk)⟩
    · obtain ⟨i, hi⟩ := exists_fetch_of_next hs
      by_cases hcall : i.op = .call
      · obtain ⟨n, k, f, cells, harg, hk, -⟩ := frames_call hi hs hcall
        exact ⟨k :: ks, .call hks hi hcall harg hk hs⟩
      by_cases hret : i.op = .ret
      · obtain ⟨k, ks, rfl⟩ := List.exists_cons_of_length_pos (by rw [hks.length_eq]; exact Nat.succ_pos _)
        exact ⟨ks, .ret hks hi hret hs⟩
      · exact ⟨ks, .other hks hi hcall hret hs⟩
  · rintro ⟨ks, h⟩
    induction h with
    | start hm => exact .start hm
    | call _ _ _ _ _ hs ih | ret _ _ _ hs ih | other _ _ _ _ hs ih => exact ih.next hs

end Active

/-! ### Sealed images -/

/-- Where the function with the number `k` starts; after the last function, where the code ends. -/
def Image.entryOf (img : Image) (k : Nat) : Int := (img.functions[k]?.map (·.entry)).getD img.code.size

/-- Every place in the code belongs to a function, if the code starts with one. -/
theorem Image.exists_owner {img : Image} (h : img.entryOf 0 = 0) {pc : Int} (hpc : 0 ≤ pc) (hlt : pc < img.code.size) :
    ∃ k f, img.functions[k]? = some f ∧ f.entry ≤ pc ∧ pc < img.entryOf (k + 1) := by
  have howner : ∀ n, pc < img.entryOf n → ∃ k < n, img.entryOf k ≤ pc ∧ pc < img.entryOf (k + 1) := by
    intro n
    induction n with
    | zero => omega
    | succ n ih =>
      intro hn
      by_cases hprev : pc < img.entryOf n
      · obtain ⟨k, hk, hbounds⟩ := ih hprev
        exact ⟨k, by omega, hbounds⟩
      · exact ⟨n, by omega, by omega, hn⟩
  obtain ⟨k, hk, hle, hlt⟩ := howner img.functions.size (by simpa [Image.entryOf] using hlt)
  have hget := Array.getElem?_eq_getElem hk
  exact ⟨k, _, hget, by simpa [Image.entryOf, hget] using hle, hlt⟩

/-- The frame belongs to the function with the number `k`: it is in the code of the function, which goes on to where
the next one starts, and has the cells of the function. -/
def Image.Within (img : Image) (k : Nat) (fr : Frame) : Prop :=
  ∃ f, img.functions[k]? = some f ∧ f.entry ≤ fr.pc ∧ fr.pc < img.entryOf (k + 1) ∧
    (fr.locals.size : Int) = f.numLocals

/-- The instruction at `pc` of the function `f` with the number `k` keeps control in the function, calls a function
that exists, and names a cell that exists. -/
structure Image.Admits (img : Image) (k : Nat) (f : FunctionInfo) (pc : Int) (i : Instr) : Prop where
  jump : i.op = .jmp ∨ i.op = .jz ∨ i.op = .jnz →
    ∃ target, i.arg = some target ∧ f.entry ≤ target ∧ target < img.entryOf (k + 1)
  call : i.op = .call → ∃ n : Nat, i.arg = some (n : Int) ∧ n < img.functions.size
  cell : i.op = .loadLocal ∨ i.op = .storeLocal → ∃ n : Nat, i.arg = some (n : Int) ∧ (n : Int) < f.numLocals
  next : i.op ≠ .jmp → i.op ≠ .ret → pc + 1 < img.entryOf (k + 1)

/-- The code of every function keeps control in the function. -/
structure Image.Sealed (img : Image) : Prop where
  entry : ∀ k f, img.functions[k]? = some f → f.entry < img.entryOf (k + 1) ∧ 0 ≤ f.numLocals
  admits : ∀ k f pc, img.functions[k]? = some f → f.entry ≤ pc → pc < img.entryOf (k + 1) →
    ∃ i, img.fetch pc = .ok i ∧ img.Admits k f pc i

namespace Image.Sealed

variable {img : Image} {s : State} {i : Instr} {k : Nat} {ks : List Nat}

variable {cells cells' : Array Int}

theorem within_entry (h : img.Sealed) {f : FunctionInfo} (hf : img.functions[k]? = some f)
    (hsize : cells.size = f.numLocals.toNat) : img.Within k ⟨f.entry, cells⟩ := by
  obtain ⟨hlt, hnum⟩ := h.entry k f hf
  exact ⟨f, hf, Int.le_refl _, hlt, by dsimp only; omega⟩

theorem within_next (h : img.Sealed) (hk : img.Within k ⟨s.pc, cells⟩) (hi : img.fetch s.pc = .ok i)
    (hjmp : i.op ≠ .jmp) (hret : i.op ≠ .ret) (hsize : cells'.size = cells.size) : img.Within k ⟨s.pc + 1, cells'⟩ := by
  obtain ⟨f, hf, hle, hlt, hcells⟩ := hk
  obtain ⟨i', hi', hadmits⟩ := h.admits k f s.pc hf hle hlt
  rw [hi] at hi'
  cases hi'
  exact ⟨f, hf, by dsimp only at hle ⊢; omega, hadmits.next hjmp hret, by rw [hsize]; exact hcells⟩

theorem within_jump (h : img.Sealed) (hk : img.Within k ⟨s.pc, cells⟩) (hi : img.fetch s.pc = .ok i)
    (hop : i.op = .jmp ∨ i.op = .jz ∨ i.op = .jnz) {target : Int} (harg : i.arg = some target)
    (hsize : cells'.size = cells.size) : img.Within k ⟨target, cells'⟩ := by
  obtain ⟨f, hf, hle, hlt, hcells⟩ := hk
  obtain ⟨i', hi', hadmits⟩ := h.admits k f s.pc hf hle hlt
  rw [hi] at hi'
  cases hi'
  obtain ⟨target', harg', hbounds⟩ := hadmits.jump hop
  rw [harg] at harg'
  cases harg'
  exact ⟨f, hf, hbounds.1, hbounds.2, by rw [hsize]; exact hcells⟩

/-- **Integrity of frames**: in a run of a sealed image every frame belongs to its function. -/
theorem within (h : img.Sealed) (ha : img.Active s ks) : List.Forall₂ img.Within ks s.frames := by
  induction ha with
  | start hm hk => exact .cons (h.within_entry hk Array.size_replicate) .nil
  | call _ hi hop harg hk hs ih =>
    obtain ⟨n, k, f, cells, harg', hk', hf, hsize, hframes⟩ := frames_call hi hs hop
    obtain rfl : _ = n := by simpa using harg.symm.trans harg'
    obtain rfl : _ = k := by simpa using hk.symm.trans hk'
    rw [hframes]
    cases ih with
    | cons hcaller hcallers =>
      refine .cons (h.within_entry hf hsize) (.cons ?_ hcallers)
      exact h.within_next hcaller hi (by simp [hop]) (by simp [hop]) rfl
  | ret _ hi hop hs ih =>
    rw [frames_ret hi hs hop]
    cases ih with
    | cons _ hcallers => exact hcallers
  | other _ hi hcall hret hs ih =>
    obtain ⟨⟨pc, cells⟩, hframes, hsize, hpc⟩ := frames_other hi hs hcall hret
    rw [hframes]
    cases ih with
    | cons hcurrent hcallers =>
      refine .cons ?_ hcallers
      rcases hpc with ⟨hpc, hjmp⟩ | ⟨harg, hop⟩
      · cases hpc
        exact h.within_next hcurrent hi hjmp hret hsize
      · exact h.within_jump hcurrent hi hop harg hsize

/-- The instruction that comes next in a run of a sealed image, and the function it belongs to. -/
theorem fetch (h : img.Sealed) (ha : img.Active s ks) : ∃ k f i, ks.head? = some k ∧ img.functions[k]? = some f ∧
    (s.locals.size : Int) = f.numLocals ∧ img.fetch s.pc = .ok i ∧ img.Admits k f s.pc i := by
  cases h.within ha with
  | cons hcurrent _ =>
    obtain ⟨f, hf, hle, hlt, hsize⟩ := hcurrent
    obtain ⟨i, hi, hadmits⟩ := h.admits _ f s.pc hf hle hlt
    exact ⟨_, f, i, rfl, hf, hsize, hi, hadmits⟩

end Image.Sealed

/-- A run ends with a value only where `main` returns. -/
theorem execute_exit {img : Image} {i : Instr} {s t : State} {v : Int} (h : execute img i s = .exit v t) :
    i.op = .ret ∧ s.calls = [] := by
  by_cases hplain : i.op.isPlain = true
  · exact absurd h (execute_ne_exit hplain s t v)
  obtain ⟨op, arg⟩ := i
  cases op
  case ret =>
    simp only [execute, leave] at h
    split at h
    · exact ⟨rfl, ‹_›⟩
    · cases h
  case jmp | jz | jnz | call =>
    simp only [execute, withArg, State.pop₁, enter] at h
    repeat' split at h
    all_goals cases h
  all_goals exact absurd rfl hplain

section Admits

variable {img : Image} {k : Nat} {f : FunctionInfo} {pc n : Int} {i : Instr}

theorem Image.Admits.exists_cell (h : img.Admits k f pc i) {size : Nat} (hsize : (size : Int) = f.numLocals)
    (hop : i.op = .loadLocal ∨ i.op = .storeLocal) (harg : i.arg = some n) : ∃ c, cellAt size n = .ok c := by
  obtain ⟨m, hm, hlt⟩ := h.cell hop
  obtain rfl : n = m := by simpa using harg.symm.trans hm
  exact ⟨m, cellAt_ofNat (by omega)⟩

/-- Loads and stores of cells that exist lack at most the operand. -/
theorem Image.Admits.cell_fault (h : img.Admits k f pc i) {s t : State} {e : Fault}
    (hsize : (s.locals.size : Int) = f.numLocals) (hop : i.op = .loadLocal ∨ i.op = .storeLocal)
    (hx : execute img i s = .fault e t) : e = .emptyStack := by
  have hfaults := execute_faults hx
  cases hfaults with
  | short => rfl
  | noOperand _ hnone =>
    obtain ⟨n, harg, -⟩ := h.cell hop
    simp [harg] at hnone
  | read _ harg he | write _ harg he =>
    obtain ⟨c, hc⟩ := h.exists_cell hsize hop harg
    rw [hc] at he
    cases he
  | _ => simp_all

end Admits

end Workbench.Machine
