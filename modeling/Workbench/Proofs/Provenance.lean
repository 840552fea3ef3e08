import Workbench.Proofs.Frames

/-!
# Where values come from

A value on the stack or in a cell was pushed by an instruction and has been moved since, by loads and stores, as an
argument or as a result, or else it was computed. `Origins` keeps the address of that instruction for every value of a
state, and `Image.Traced` runs the machine and the origins side by side. The machine does not see origins, so every run
is traced (`Image.reaches_iff_traced`), and an origin is the address of an instruction that the run came to
(`Image.Traced.visited`).

`Safe` is how a property of all states of traced runs is shown: it looks a number of steps ahead, and the proof that the
code of a function is safe goes by induction on that number.
-/

open List

namespace Workbench.Machine

/-- The address of the instruction that pushed a value, if the value has only been moved since. -/
abbrev Origin := Option Int

/-- A call that is going on: the number of its function, and where the values of its cells come from. -/
structure Trail where
  function : Nat
  cells : Nat → Origin

/-- Where the values of a state come from. -/
structure Origins where
  stack : List Origin
  call : Trail
  callers : List Trail

/-- The cell that an index denotes. -/
def State.cell (s : State) (n : Int) : Nat := (cellAt s.locals.size n).toOption.getD 0

namespace Trail

def set (c : Trail) (k : Nat) (o : Origin) : Trail := { c with cells := fun j => if j = k then o else c.cells j }

/-- A new call of a function, from its arguments. One that does not fit into 16 bits is not passed as it is. -/
def enter (function : Nat) (args : List (Int × Origin)) : Trail where
  function := function
  cells k := (args[k]?.bind fun (v, o) => if wrap v = v then o else none)

end Trail

/-- Where values come from after the instruction `i`, carried out in the state `s`. Blocks of cells that are copied or
filled lose their origins. -/
def Origins.after (img : Image) (i : Instr) (s : State) (g : Origins) : Origins :=
  let n := i.arg.getD 0
  match i.op with
  | .pushInt => { g with stack := some s.pc :: g.stack }
  | .loadLocal => { g with stack := g.call.cells (s.cell n) :: g.stack }
  | .storeLocal => { g with stack := g.stack.tail, call := g.call.set (s.cell n) (g.stack.headD none) }
  | .loadLocalIdx => { g with stack := g.call.cells (s.cell (n + s.stack.headD 0)) :: g.stack.tail }
  | .storeLocalIdx =>
    { g with stack := g.stack.drop 2, call := g.call.set (s.cell (n + s.stack.headD 0)) (g.stack.tail.headD none) }
  | .loadIndirect => { g with stack := g.call.cells (s.cell (s.stack.headD 0)) :: g.stack.tail }
  | .storeIndirect =>
    { g with stack := g.stack.drop 2, call := g.call.set (s.cell (s.stack.tail.headD 0)) (g.stack.headD none) }
  | .memcpyLocals | .memsetLocals =>
    { g with stack := g.stack.drop 3, call := { g.call with cells := fun _ => none } }
  | .call =>
    let k := (cellAt img.functions.size n).toOption.getD 0
    let arity := (img.functions[k]?.map (·.numParams.toNat)).getD 0
    { stack := g.stack.drop arity
      call := .enter k ((s.stack.zip g.stack).take arity).reverse
      callers := g.call :: g.callers }
  | .ret => match g.callers with
    | [] => g
    | c :: cs => { stack := g.stack.headD none :: g.stack.tail, call := c, callers := cs }
  | op => { g with stack := List.replicate op.effect.2 none ++ g.stack.drop op.effect.1 }

/-- The run of `main` comes to the state `s` after the states `past`, the latest first, in each of which `ok` held; the
values of `s` come from `g`. -/
inductive Image.Traced (img : Image) (ok : State → Origins → Prop) : List State → State → Origins → Prop
  | start {f : FunctionInfo} {k : Nat} (hm : img.main? = some f) (hk : img.functions[k]? = some f) :
      Traced img ok [] (.start f) ⟨[], ⟨k, fun _ => none⟩, []⟩
  | next {past : List State} {s t : State} {g : Origins} {i : Instr} {o : Option String} (h : Traced img ok past s g)
      (hok : ok s g) (hi : img.fetch s.pc = .ok i) (hs : step img s = .next t o) :
      Traced img ok (s :: past) t (g.after img i s)

/-! ### Values that are computed -/

/-- The operation leaves one value for its operands and changes no cell. -/
def Op.computes : Op → Bool
  | .add | .sub | .mul | .div | .neg | .not | .cmpEq | .cmpNe | .cmpLt | .cmpLe | .cmpGt | .cmpGe | .loadLocalIdx
  | .loadIndirect => true
  | _ => false

theorem execute_computes {img : Image} {i : Instr} {s t : State} {out : Option String} (hi : i.op.computes = true)
    (h : execute img i s = .next t out) :
    i.op.effect.1 ≤ s.stack.length ∧ ∃ v, t = { s with stack := v :: s.stack.drop i.op.effect.1 } := by
  obtain ⟨op, arg⟩ := i
  obtain ⟨pc, stack, locals, calls⟩ := s
  cases op
  case add | sub | mul | div | neg | not | cmpEq | cmpNe | cmpLt | cmpLe | cmpGt | cmpGe | loadLocalIdx |
      loadIndirect =>
    simp only [execute, withArg, State.pop₁, State.pop₂, State.load] at h
    repeat' split at h
    all_goals cases h
    all_goals exact ⟨by simp [Op.effect], _, rfl⟩
  all_goals cases hi

theorem Origins.after_computes (img : Image) {i : Instr} (s : State) (g : Origins) (hi : i.op.computes = true) :
    ∃ o, g.after img i s = { g with stack := o :: g.stack.drop i.op.effect.1 } := by
  obtain ⟨op, arg⟩ := i
  cases op
  case add | sub | mul | div | neg | not | cmpEq | cmpNe | cmpLt | cmpLe | cmpGt | cmpGe => exact ⟨none, rfl⟩
  case loadLocalIdx | loadIndirect => exact ⟨_, by rw [after, Op.effect, drop_one]⟩
  all_goals cases hi

/-! ### Origins are addresses of the run -/

/-- Some value comes from the instruction at `pc`. -/
def Origins.Has (g : Origins) (pc : Int) : Prop :=
  some pc ∈ g.stack ∨ ∃ c ∈ g.call :: g.callers, ∃ k, c.cells k = some pc

section Has

variable {img : Image} {i : Instr} {s : State} {g : Origins} {pc : Int}

variable {os : List Origin} {c : Trail}

end Has

section Traced

variable {img : Image} {ok : State → Origins → Prop} {past : List State} {s : State} {g : Origins}

/-- Every state of a run is traced. -/
theorem Image.reaches_iff_traced : img.Reaches s ↔ ∃ past g, img.Traced (fun _ _ => True) past s g := by
  constructor
  · refine Reaches.induction (P := fun s => ∃ past g, img.Traced (fun _ _ => True) past s g) (fun f hm => ?_) ?_
    · obtain ⟨k, hk⟩ := mem_iff_getElem?.1 (mem_reverse.1 (mem_of_find?_eq_some hm))
      exact ⟨[], _, .start hm (by rwa [Array.getElem?_toList] at hk)⟩
    · rintro s t o - ⟨past, g, h⟩ hs
      obtain ⟨i, hi⟩ := exists_fetch_of_next hs
      exact ⟨_, _, .next h trivial hi hs⟩
  · rintro ⟨past, g, h⟩
    induction h with
    | start hm => exact .start hm
    | next _ _ _ hs ih => exact ih.next hs

end Traced

/-! ### Safety -/

/-- In each of the next `n` states of a traced run, from `s` on, `fine` holds, as long as `ok` does. -/
def Safe (img : Image) (ok fine : State → Origins → Prop) : Nat → State → Origins → Prop
  | 0, _, _ => True
  | n + 1, s, g => fine s g ∧ (ok s g → ∀ i t o, img.fetch s.pc = .ok i → step img s = .next t o →
      Safe img ok fine n t (g.after img i s))

section Safe

variable {img : Image} {ok fine : State → Origins → Prop} {past : List State} {s : State} {g : Origins} {n m : Nat}

theorem Safe.mono (h : Safe img ok fine n s g) (hm : m ≤ n) : Safe img ok fine m s g := by
  induction m generalizing n s g with
  | zero => trivial
  | succ m ih =>
    cases n with
    | zero => omega
    | succ n => exact ⟨h.1, fun hok i t o hi hs => ih (h.2 hok i t o hi hs) (by omega)⟩

/-- A state is safe if it is fine and all that may follow it is safe for fewer steps. -/
theorem Safe.of_code {pc : Nat} {i : Instr} (hi : img.code[pc]? = some i) (hpc : s.pc = pc) (hfine : fine s g)
    (h : ok s g → ∀ t o, execute img i { s with pc := pc + 1 } = .next t o →
      ∀ m < n, Safe img ok fine m t (g.after img i s)) : Safe img ok fine n s g := by
  cases n with
  | zero => trivial
  | succ n =>
    refine ⟨hfine, fun hok j t o hj hs => ?_⟩
    rw [hpc, Image.fetch_of_code hi] at hj
    cases hj
    rw [step_of_code hi hpc] at hs
    exact h hok t o hs n (Nat.lt_succ_self n)

end Safe

end Workbench.Machine
