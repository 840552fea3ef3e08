import Workbench.Proofs.ShapeRun

/-!
# The machine runs shapes

Where the code of a shape stands in an image, the machine does what `Shape.exec` says (`Linked.exec_shows`):
it comes to the end of the code, leaves the function, or faults, and prints the same on the way. Where
`exec` is cut short, the machine has taken at least as many steps as the bound, so that no run is
mistaken for an endless one.
-/

namespace Workbench.Bytecode

open Machine

/-- The state of the machine at an address, above the calls that wait. -/
def Act.state (a : Act) (pc : Nat) (calls : List Frame) : State := ⟨pc, a.stack, a.locals, calls⟩

/-- The next step returns `v` and leaves `rest` on the stack. -/
structure Leaves (img : Image) (calls : List Frame) (v : Int) (rest : List Int) (t : State) : Prop where
  step : step img t = leave { t with pc := t.pc + 1 }
  calls : t.calls = calls
  value : t.stack.headD 0 = v
  rest : t.stack.tail = rest

theorem Leaves.back {img : Image} {fr : Frame} {calls : List Frame} {v : Int} {rest : List Int} {t : State}
    (h : Leaves img (fr :: calls) v rest t) :
    Machine.step img t = .next ⟨fr.pc, v :: rest, fr.locals, calls⟩ none := by
  rw [h.step, leave, ← h.value, ← h.rest]
  simp only [h.calls]

/-- From `s` the machine does what `r` says; a run that is done ends in a state for which `P` holds. -/
def Shows {α : Type} (img : Image) (n : Nat) (P : α → State → Prop) (s : State) (r : Result α) : Prop :=
  ∃ k t, Runs img s.calls.length k (texts r.log) s t ∧
    match r.flow with
    | .done a => P a t
    | .ret v rest => Leaves img s.calls v rest t
    | .fault f => ∃ u, step img t = .fault f u
    | .cut => n ≤ k

/-- From `pc` to `next`, above the calls that wait, the machine does what `r` says. -/
abbrev Crosses (img : Image) (n : Nat) (calls : List Frame) (pc next : Nat) (a : Act) (r : Result Act) : Prop :=
  Shows img n (fun b t => t = b.state next calls) (a.state pc calls) r

namespace Shows

variable {α β : Type} {img : Image} {n m : Nat} {P : α → State → Prop} {Q : β → State → Prop} {s s' : State}

theorem pure {a : α} (h : P a s) : Shows img n P s (.pure a) := ⟨0, s, .refl (Nat.le_refl _), h⟩

theorem cut : Shows img 0 P s .cut := ⟨0, s, .refl (Nat.le_refl _), (Nat.le_refl _)⟩

theorem fault {f : Fault} {u : State} (h : step img s = .fault f u) : Shows img n P s (.fault f) :=
  ⟨0, s, .refl (Nat.le_refl _), u, h⟩

variable {r : Result α}

theorem mono (h : Shows img n P s r) (hm : m ≤ n) : Shows img m P s r := by
  obtain ⟨k, t, hrun, hend⟩ := h
  refine ⟨k, t, hrun, ?_⟩
  split at hend
  · exact hend
  · exact hend
  · exact hend
  · exact Nat.le_trans hm hend

theorem bind {f : α → Result β} (h : Shows img n P s r)
    (hf : ∀ a t, P a t → t.calls = s.calls ∧ Shows img n Q t (f a)) : Shows img n Q s (r.bind f) := by
  obtain ⟨k, t, hrun, hend⟩ := h
  obtain ⟨log, flow⟩ := r
  cases flow with
  | done a =>
    obtain ⟨hcalls, k', t', hrun', hend'⟩ := hf a t hend
    rw [hcalls] at hrun' hend'
    refine ⟨k + k', t', by simpa [Result.bind] using hrun.trans hrun', ?_⟩
    simp only [Result.bind]
    split at hend'
    · exact hend'
    · exact hend'
    · exact hend'
    · exact Nat.le_add_left_of_le hend'
  | ret v rest => exact ⟨k, t, hrun, hend⟩
  | fault e => exact ⟨k, t, hrun, hend⟩
  | cut => exact ⟨k, t, hrun, hend⟩

theorem step (hs : Machine.step img s = .next s' none) (hc : s'.calls = s.calls) (h : Shows img n P s' r) :
    Shows img (n + 1) P s r := by
  obtain ⟨k, t, hrun, hend⟩ := h
  rw [hc] at hrun hend
  refine ⟨k + 1, t, .head (Nat.le_refl _) hs hrun, ?_⟩
  split at hend
  · exact hend
  · exact hend
  · exact hend
  · exact Nat.add_le_add_right hend 1

theorem hop (hs : Machine.step img s = .next s' none) (hc : s'.calls = s.calls) (h : Shows img n P s' r) :
    Shows img n P s r := (h.step hs hc).mono (Nat.le_succ n)

end Shows

theorem Crosses.cast {img : Image} {n pc next next' : Nat} {calls : List Frame} {a : Act} {r : Result Act}
    (h : Crosses img n calls pc next a r) (he : next = next') : Crosses img n calls pc next' a r := he ▸ h

namespace Shape

/-- The instructions of the shape are plain, and it calls only functions of `known`. -/
def Fits (known : String → Prop) : Shape → Prop
  | .instr i => i.op.isPlain = true
  | .seq a b | .branch a b | .loop a b => a.Fits known ∧ b.Fits known
  | .circuit _ a | .drop a => a.Fits known
  | .call f => known f
  | .skip | .text _ | .say .. | .ret => True

/-- The code of a shape at an address, its first string being the `k`-th. -/
def codeAt (number : String → Nat) (pc k : Nat) (s : Shape) : List Instr := (s.code number ⟨pc, k⟩).code

end Shape

section CodeAt

variable (number : String → Nat) (pc k : Nat) (a b : Shape)

theorem Shape.codeAt_seq : (Shape.seq a b).codeAt number pc k =
    a.codeAt number pc k ++ b.codeAt number (pc + (a.codeAt number pc k).length) (k + a.strings.length) := by
  simp [codeAt, code, Place.after]

theorem Shape.codeAt_circuit (d : Bool) : (Shape.circuit d a).codeAt number pc k =
    ⟨jumpOn d, some ((pc + 1 + (a.codeAt number (pc + 1) k).length + 3 : Nat) : Int)⟩ ::
      (a.codeAt number (pc + 1) k ++
        [⟨jumpOn d, some ((pc + 1 + (a.codeAt number (pc + 1) k).length + 3 : Nat) : Int)⟩,
          ⟨.pushInt, some (ofBool !d)⟩,
          ⟨.jmp, some ((pc + 1 + (a.codeAt number (pc + 1) k).length + 4 : Nat) : Int)⟩,
          ⟨.pushInt, some (ofBool d)⟩]) := by
  cases d <;> simp [codeAt, code, Place.skip, ofBool] <;> omega

theorem Shape.codeAt_branch : (Shape.branch a b).codeAt number pc k =
    ⟨jumpOn false, some ((pc + 1 + (a.codeAt number (pc + 1) k).length + 1 : Nat) : Int)⟩ ::
      (a.codeAt number (pc + 1) k ++
        ⟨.jmp, some ((pc + 1 + (a.codeAt number (pc + 1) k).length + 1 + (b.codeAt number
          (pc + 1 + (a.codeAt number (pc + 1) k).length + 1) (k + a.strings.length)).length : Nat) : Int)⟩ ::
        b.codeAt number (pc + 1 + (a.codeAt number (pc + 1) k).length + 1) (k + a.strings.length)) := by
  simp [codeAt, code, Place.skip, jumpOn]

theorem Shape.codeAt_loop : (Shape.loop a b).codeAt number pc k =
    a.codeAt number pc k ++
      ⟨jumpOn false, some ((pc + (a.codeAt number pc k).length + 1 + (b.codeAt number
        (pc + (a.codeAt number pc k).length + 1) (k + a.strings.length)).length + 1 : Nat) : Int)⟩ ::
      (b.codeAt number (pc + (a.codeAt number pc k).length + 1) (k + a.strings.length) ++
        [⟨.jmp, some (pc : Int)⟩]) := by
  simp [codeAt, code, Place.skip, jumpOn]

end CodeAt

def Library.text (lib : Library) (n : Int) : String := lib.image.text n

def Library.Holds (lib : Library) (k : Nat) (ss : List String) : Prop :=
  ∀ j s, ss[j]? = some s → lib.text (k + j : Nat) = s

namespace Library.Holds

variable {lib : Library} {k : Nat} {a b : List String}

theorem left (h : lib.Holds k (a ++ b)) : lib.Holds k a := by
  intro j s hj
  refine h j s ?_
  rw [List.getElem?_append_left (List.getElem?_eq_some_iff.1 hj).1, hj]

theorem right (h : lib.Holds k (a ++ b)) : lib.Holds (k + a.length) b := by
  intro j s hj
  have := h (a.length + j) s (by rw [List.getElem?_append_right (by omega)]; simpa using hj)
  rwa [← Nat.add_assoc] at this

end Library.Holds

/-- The code that ends a routine. -/
def Routine.closing (r : Routine) : List Instr :=
  if r.bare then [⟨.ret, none⟩] else [⟨.pushInt, some 0⟩, ⟨.ret, none⟩]

/-- The routine stands in the image at `pc`. -/
structure Routine.Placed (img : Image) (lib : Library) (number : String → Nat) (known : String → Prop)
    (r : Routine) (pc : Nat) : Prop where
  fits : r.body.Fits known
  strings : lib.Holds r.string r.body.strings
  code : img.Has pc (r.body.codeAt number pc r.string ++ r.closing)

/-- The image holds the functions of `known`, each under its number. -/
structure Linked (img : Image) (lib : Library) (number : String → Nat) (known : String → Prop) : Prop where
  strings : img.strings = lib.strings
  function : ∀ f, known f → ∃ info pc, img.functions[number f]? = some info ∧ info.entry = (pc : Nat) ∧
    info.numLocals = (lib.routine f).size ∧ info.numParams = (lib.routine f).arity ∧
    (lib.routine f).Placed img lib number known pc

section Steps

variable {img : Image} {a : Act} {pc target : Nat} {calls : List Frame} {v : Int}

theorem step_push (h : img.code[pc]? = some ⟨.pushInt, some v⟩) :
    step img (a.state pc calls) = .next ((a.push v).state (pc + 1) calls) none := by
  rw [step_of_code h rfl]
  rfl

theorem step_jmp (h : img.code[pc]? = some ⟨.jmp, some (target : Int)⟩) :
    step img (a.state pc calls) = .next (a.state target calls) none := by
  rw [step_of_code h rfl]
  rfl

theorem step_jumpOn {d : Bool} (h : img.code[pc]? = some ⟨Shape.jumpOn d, some (target : Int)⟩) :
    step img ((a.push v).state pc calls) =
      .next (a.state (if decide (v ≠ 0) = d then target else pc + 1) calls) none := by
  rw [step_of_code h rfl]
  cases d <;> by_cases hv : v = 0 <;>
    simp [Shape.jumpOn, execute, State.pop₁, withArg, State.jump, Act.state, Act.push, hv]

theorem step_ret (a : Act) (calls : List Frame) (h : img.code[pc]? = some ⟨.ret, none⟩) :
    Leaves img calls (a.stack.headD 0) a.stack.tail (a.state pc calls) :=
  ⟨step_of_code h rfl, rfl, rfl, rfl⟩

end Steps

theorem Shows.jumpOn {α : Type} {img : Image} {n : Nat} {P : α → State → Prop} {d : Bool} {pc target : Nat}
    {calls : List Frame} {a : Act} {f : Int → Act → Result α}
    (h : img.code[pc]? = some ⟨Shape.jumpOn d, some (target : Int)⟩)
    (hf : ∀ v b, Shows img n P (b.state (if decide (v ≠ 0) = d then target else pc + 1) calls) (f v b)) :
    Shows img (n + 1) P (a.state pc calls) (a.pop f) := by
  obtain ⟨stack, locals⟩ := a
  cases stack with
  | nil =>
    have hstep := step_of_code (s := Act.state ⟨[], locals⟩ pc calls) h rfl
    cases d <;> exact .fault hstep
  | cons v r => exact .step (step_jumpOn (a := ⟨r, locals⟩) h) rfl (hf v ⟨r, locals⟩)

/-- Wherever the code of a shape stands, the machine does what `go` says, with `n` steps at least where it is cut
short. -/
def Adequate (img : Image) (lib : Library) (number : String → Nat) (known : String → Prop) (n : Nat)
    (go : Nat → Shape → Act → Result Act) : Prop :=
  ∀ (s : Shape) (k pc : Nat) (a : Act) (calls : List Frame), s.Fits known → lib.Holds k s.strings →
    img.Has pc (s.codeAt number pc k) →
    Shows img n (fun b t => t = b.state (pc + (s.codeAt number pc k).length) calls) (a.state pc calls) (go k s a)

namespace Linked

variable {img : Image} {lib : Library} {number : String → Nat} {known : String → Prop}
  {n pc : Nat} {a : Act} {calls : List Frame}

theorem image_eq (L : Linked img lib number known) : img.textOnly = lib.image := by
  rw [Image.textOnly, Library.image, L.strings]

theorem shows_plain (L : Linked img lib number known) {i : Instr} (hi : i.op.isPlain = true)
    (h : img.code[pc]? = some i) :
    Crosses img n calls pc (pc + 1) a (a.perform lib i) := by
  have hstep : step img (a.state pc calls) = (execute lib.image i ⟨0, a.stack, a.locals, []⟩).within
      (a.state (pc + 1) calls) := by
    rw [step_of_code h rfl, execute_plain hi, L.image_eq]
    rfl
  unfold Act.perform
  cases hx : execute lib.image i ⟨0, a.stack, a.locals, []⟩ with
  | next t out =>
    rw [hx] at hstep
    refine ⟨1, _, ?_, rfl⟩
    simp only [texts_map_text]
    exact .one (Nat.le_refl _) hstep (Nat.le_refl _)
  | exit v t => exact absurd hx (execute_ne_exit hi _ _ _)
  | fault f t =>
    rw [hx] at hstep
    exact .fault hstep

theorem shows_say (L : Linked img lib number known) {newline : Bool} {s : String} {k : Nat}
    (hs : lib.Holds k [s]) (h : img.Has pc [⟨.pushInt, some (k : Int)⟩, ⟨printOp newline .str, none⟩]) :
    Crosses img n calls pc (pc + 2) a
      (.event (.text (if newline then s ++ "\n" else s)) a) := by
  have htext : img.text k = s := by
    rw [← hs 0 s rfl]
    simp [Library.text, Image.text, Library.image, L.strings]
  have hprint : step img ((a.push k).state (pc + 1) calls) =
      .next (a.state (pc + 2) calls) (some (if newline then s ++ "\n" else s)) := by
    rw [step_of_code h.tail.head rfl]
    cases newline <;>
      simp [printOp, execute, State.pop₁, State.print, Act.state, Act.push, htext, Int.add_assoc]
  refine ⟨2, a.state (pc + 2) calls, ?_, rfl⟩
  exact .head (Nat.le_refl _) (step_push h.head) (.one (Nat.le_refl _) hprint (Nat.le_refl _))

variable {c e : List Instr} {r : Routine} {f : String}

theorem shows_close {res : Result Act} {s : State} (hc : img.Has pc r.closing)
    (h : Shows img n (fun b t => t = b.state pc s.calls) s res) :
    Shows img n (fun (v, rest) t => Leaves img s.calls v rest t) s (r.close res) := by
  obtain ⟨k, t, hrun, hend⟩ := h
  obtain ⟨log, flow⟩ := res
  cases flow with
  | done b =>
    obtain rfl : t = b.state pc s.calls := hend
    unfold Routine.closing at hc
    cases hb : r.bare with
    | true =>
      rw [hb] at hc
      have hleaves := step_ret b s.calls hc.head
      refine ⟨k, b.state pc s.calls, ?_, ?_⟩
      · cases hstack : b.stack <;> simpa [Routine.close, hb, hstack] using hrun
      · cases hstack : b.stack <;> simpa [Routine.close, hb, hstack] using hleaves
    | false =>
      rw [hb] at hc
      refine ⟨k + 1, (b.push 0).state (pc + 1) s.calls, ?_, ?_⟩
      · simpa [Routine.close, hb] using hrun.trans (.one hrun.depth_right (step_push hc.head) (Nat.le_refl _))
      · simpa [Routine.close, hb, Act.push] using step_ret (b.push 0) s.calls hc.tail.head
  | ret v rest => exact ⟨k, t, hrun, hend⟩
  | fault f => exact ⟨k, t, hrun, hend⟩
  | cut => exact ⟨k, t, hrun, hend⟩

/-- A call, from the run of the callee above the frame `fr` of the caller. -/
theorem shows_called {r : Result (Int × List Int)} {s s' : State} {fr : Frame}
    (hs : step img s = .next s' none) (hc : s'.calls = fr :: s.calls) (hr : ∀ v rest, r.flow ≠ .ret v rest)
    (h : Shows img n (fun (v, rest) t => Leaves img s'.calls v rest t) s' r) :
    Shows img (n + 1) (fun (b : Act) t => t = ⟨fr.pc, b.stack, b.locals, s.calls⟩) s
      (r.bind fun (v, rest) => .pure ⟨v :: rest, fr.locals⟩) := by
  obtain ⟨k, t, hrun, hend⟩ := h
  obtain ⟨log, flow⟩ := r
  have hrun' : Runs img s.calls.length (k + 1) (texts log) s t :=
    .head (Nat.le_refl _) hs (hrun.weaken (by rw [hc]; exact Nat.le_succ _))
  cases flow with
  | done vr =>
    obtain ⟨v, rest⟩ := vr
    rw [hc] at hend
    have hback := hend.back
    refine ⟨k + 1 + 1, _, ?_, rfl⟩
    simpa [Result.bind, Result.pure] using hrun'.trans (.one hrun'.depth_right hback (Nat.le_refl _))
  | ret v rest => exact absurd rfl (hr v rest)
  | fault f => exact ⟨k + 1, t, hrun', hend⟩
  | cut => exact ⟨k + 1, t, hrun', Nat.add_le_add_right hend 1⟩

theorem step_call (a : Act) (calls : List Frame) {info : FunctionInfo} {entry : Nat}
    (h : img.code[pc]? = some ⟨.call, some (number f : Int)⟩) (hinfo : img.functions[number f]? = some info)
    (hentry : info.entry = (entry : Nat)) (hsize : info.numLocals = r.size) (harity : info.numParams = r.arity) :
    step img (a.state pc calls) =
      if a.stack.length < r.arity then .fault .argUnderflow (Act.state ⟨[], a.locals⟩ (pc + 1) calls)
      else .next (Act.state ⟨a.stack.drop r.arity, r.frame (a.stack.take r.arity).reverse⟩ entry
        (⟨(pc + 1 : Nat), a.locals⟩ :: calls)) none := by
  rw [step_of_code h rfl]
  simp only [execute, withArg, Image.function_of_get hinfo, Machine.enter, harity, hentry]
  simp only [callCells, hsize]
  rfl

theorem shows_enter (L : Linked img lib number known) {go : Nat → Shape → Act → Result Act}
    (hgo : Adequate img lib number known n go) (hf : known f)
    (h : img.code[pc]? = some ⟨.call, some (number f : Int)⟩) :
    Crosses img (n + 1) calls pc (pc + 1) a
      (a.enter (lib.routine f) (go (lib.routine f).string (lib.routine f).body)) := by
  obtain ⟨info, entry, hinfo, hentry, hsize, harity, hplaced⟩ := L.function f hf
  have hstep := step_call a calls h hinfo hentry hsize harity
  generalize lib.routine f = r at *
  unfold Act.enter
  split
  case isTrue hlt =>
    rw [if_pos hlt] at hstep
    exact .fault hstep
  case isFalse hlt =>
    rw [if_neg hlt] at hstep
    -- The caller waits on the call stack while the body runs.
    have hbody := hgo r.body r.string entry ⟨a.stack.drop r.arity, r.frame (a.stack.take r.arity).reverse⟩
      (⟨(pc + 1), a.locals⟩ :: calls) hplaced.fits hplaced.strings hplaced.code.left
    exact shows_called hstep rfl (r.close_ne_ret _) (shows_close hplaced.code.right hbody)

/-- The rest of `&&` or `||`; `c` is the code of the right operand. -/
theorem shows_circuit {d : Bool} {c : List Instr} {go : Act → Result Act}
    (h : img.Has pc (⟨Shape.jumpOn d, some ((pc + 1 + c.length + 3 : Nat) : Int)⟩ ::
      (c ++ [⟨Shape.jumpOn d, some ((pc + 1 + c.length + 3 : Nat) : Int)⟩, ⟨.pushInt, some (ofBool !d)⟩,
        ⟨.jmp, some ((pc + 1 + c.length + 4 : Nat) : Int)⟩, ⟨.pushInt, some (ofBool d)⟩])))
    (hgo : ∀ b : Act, Crosses img n calls (pc + 1) (pc + 1 + c.length) b (go b)) :
    Crosses img (n + 1) calls pc (pc + 1 + c.length + 4) a
      (a.pop fun v a => if decide (v ≠ 0) = d then .pure (a.push (ofBool d))
        else (go a).bind fun a => a.pop fun w a => .pure (a.push (ofBool (w ≠ 0)))) := by
  have hrest := h.tail.right
  -- Where the truth `d` is known.
  have settled : ∀ b : Act, Crosses img n calls (pc + 1 + c.length + 3) (pc + 1 + c.length + 4) b
      (.pure (b.push (ofBool d))) := fun b =>
    .hop (step_push hrest.tail.tail.tail.head) rfl (.pure rfl)
  refine .jumpOn h.head fun v b => ?_
  by_cases hv : decide (v ≠ 0) = d
  · simp only [hv]
    exact settled b
  · simp only [hv]
    refine (hgo b).bind ?_
    rintro b _ rfl
    refine ⟨rfl, .mono (.jumpOn hrest.head fun w b => ?_) (Nat.le_succ n)⟩
    by_cases hw : decide (w ≠ 0) = d
    · simp only [hw]
      exact settled b
    · have hw' : decide (w ≠ 0) = !d := by cases d <;> simp_all
      simp only [hw', if_neg (show ¬(!d) = d by cases d <;> simp)]
      exact .hop (step_push hrest.tail.head) rfl (.hop (step_jmp hrest.tail.tail.head) rfl (.pure rfl))

theorem shows_loop {test body again : Act → Result Act}
    (h : img.Has pc (c ++ ⟨Shape.jumpOn false, some ((pc + c.length + 1 + e.length + 1 : Nat) : Int)⟩ ::
      (e ++ [⟨.jmp, some (pc : Int)⟩])))
    (htest : ∀ b : Act, Crosses img (n + 1) calls pc (pc + c.length) b (test b))
    (hbody : ∀ b : Act, Crosses img n calls (pc + c.length + 1) (pc + c.length + 1 + e.length) b (body b))
    (hagain : ∀ b : Act, Crosses img n calls pc (pc + c.length + 1 + e.length + 1) b (again b)) :
    Crosses img (n + 1) calls pc (pc + c.length + 1 + e.length + 1) a
      ((test a).bind fun a => a.pop fun v a => if v ≠ 0 then (body a).bind again else .pure a) := by
  refine (htest a).bind ?_
  rintro b _ rfl
  refine ⟨rfl, .jumpOn h.right.head fun v b => ?_⟩
  by_cases hv : v = 0
  · simpa [hv] using .pure rfl
  · simp only [hv, ne_eq]
    refine (hbody b).bind ?_
    rintro b _ rfl
    exact ⟨rfl, .hop (step_jmp h.right.tail.right.head) rfl (hagain b)⟩

/-- Running shapes is adequate if going round loops and into calls is. -/
theorem run_adequate (L : Linked img lib number known) {deeper : Nat → Shape → Act → Result Act}
    (hd : Adequate img lib number known n deeper) : Adequate img lib number known (n + 1) (Shape.run lib deeper) := by
  intro s k pc a calls hf hs h
  induction s generalizing k pc a with
  | skip => exact .pure rfl
  | instr i => exact L.shows_plain hf h.head
  | text s => exact .hop (step_push h.head) rfl (.pure rfl)
  | say newline s => exact L.shows_say hs h
  | seq s t ihs iht =>
    rw [Shape.codeAt_seq] at h ⊢
    refine (ihs k pc a hf.1 hs.left h.left).bind ?_
    rintro b _ rfl
    refine ⟨rfl, ?_⟩
    rw [List.length_append, ← Nat.add_assoc]
    exact iht _ _ b hf.2 hs.right h.right
  | call f => exact L.shows_enter hd hf h.head
  | ret => exact ⟨0, _, .refl (Nat.le_refl _), step_ret a calls h.head⟩
  | drop s ih =>
    refine (ih k pc a hf hs h).bind ?_
    rintro b _ rfl
    exact ⟨rfl, 0, _, .refl (Nat.le_refl _), rfl⟩
  | circuit d s ih =>
    rw [Shape.codeAt_circuit] at h ⊢
    have hright := fun b => (ih k (pc + 1) b hf hs h.tail.left).mono (Nat.le_succ n)
    exact (shows_circuit h hright).cast (by simp; omega)
  | branch s t ihs iht =>
    rw [Shape.codeAt_branch] at h ⊢
    have hyes := fun b => (ihs k (pc + 1) b hf.1 hs.left h.tail.left).mono (Nat.le_succ n)
    have hno := fun b => (iht _ _ b hf.2 hs.right h.tail.right.tail).mono (Nat.le_succ n)
    apply Crosses.cast
    · refine .jumpOn h.head fun v b => ?_
      by_cases hv : v = 0
      · simp only [hv, ne_eq, not_true_eq_false, decide_false, if_true, if_false]
        exact hno b
      · simp only [hv, ne_eq, not_false_eq_true, decide_true, if_true]
        rw [← (s.run lib _ k b).bind_pure]
        refine (hyes b).bind ?_
        rintro b _ rfl
        exact ⟨rfl, .hop (step_jmp h.tail.right.head) rfl (.pure rfl)⟩
    · simp
      omega
  | loop s t ihs iht =>
    have hloop := h
    rw [Shape.codeAt_loop] at h ⊢
    have htest := fun b => ihs k pc b hf.1 hs.left h.left
    have hbody := fun b => (iht _ _ b hf.2 hs.right h.right.tail.left).mono (Nat.le_succ n)
    refine (shows_loop h htest hbody fun b => ?_).cast (by simp; omega)
    exact .cast (hd (.loop s t) k pc b calls hf hs hloop) (by rw [Shape.codeAt_loop]; simp; omega)

/-- **Adequacy**: the machine runs shapes as `Shape.exec` does. -/
theorem exec_adequate (L : Linked img lib number known) (n : Nat) :
    Adequate img lib number known n (Shape.exec lib n) := by
  induction n with
  | zero => exact fun _ _ _ _ _ _ _ _ => .cut
  | succ n ih => exact L.run_adequate ih

end Linked

end Workbench.Bytecode
