import Workbench.Machine.Run

/-!
# Steps of the machine

An instruction that is neither a jump nor a call nor a return works on the operand stack and the cells of the
current call alone (`execute_plain`). `Runs` counts the steps between two states and collects what they
print; it also says how deep in calls they stay, which is what makes a return match its call.
-/

namespace Workbench.Machine

open State

/-- An operation after which the next instruction follows. -/
def Op.isPlain : Op → Bool
  | .jmp | .jz | .jnz | .call | .ret => false
  | _ => true

def State.alone (s : State) : State := { pc := 0, stack := s.stack, locals := s.locals, calls := [] }

/-- The outcome, at the address and above the calls of `s`. -/
def Outcome.within (s : State) : Outcome → Outcome
  | .next t out => .next { s with stack := t.stack, locals := t.locals } out
  | .exit v t => .exit v { s with stack := t.stack, locals := t.locals }
  | .fault f t => .fault f { s with stack := t.stack, locals := t.locals }

/-- The image without its code: what is left of it to a plain instruction. -/
def Image.textOnly (img : Image) : Image := { code := #[], functions := #[], strings := img.strings }

namespace State

theorem pop₁_within {f : State → Int → Outcome} (h : ∀ s a, f s a = (f s.alone a).within s) (s : State) :
    s.pop₁ f = (s.alone.pop₁ f).within s := by
  obtain ⟨pc, stack, locals, calls⟩ := s
  rcases stack with _ | ⟨a, r⟩
  · rfl
  · exact h ⟨pc, r, locals, calls⟩ a

theorem pop₂_within {f : State → Int → Int → Outcome} (h : ∀ s a b, f s a b = (f s.alone a b).within s)
    (s : State) : s.pop₂ f = (s.alone.pop₂ f).within s := by
  obtain ⟨pc, stack, locals, calls⟩ := s
  rcases stack with _ | ⟨b, _ | ⟨a, r⟩⟩
  · rfl
  · rfl
  · exact h ⟨pc, r, locals, calls⟩ a b

theorem pop₃_within {f : State → Int → Int → Int → Outcome}
    (h : ∀ s a b c, f s a b c = (f s.alone a b c).within s) (s : State) :
    s.pop₃ f = (s.alone.pop₃ f).within s := by
  obtain ⟨pc, stack, locals, calls⟩ := s
  rcases stack with _ | ⟨c, _ | ⟨b, _ | ⟨a, r⟩⟩⟩
  · rfl
  · rfl
  · rfl
  · exact h ⟨pc, r, locals, calls⟩ a b c

theorem load_within (s : State) (i : Int) : s.load i = (s.alone.load i).within s := by
  unfold load alone
  cases cellAt s.locals.size i <;> rfl

theorem store_within (s : State) (i v : Int) : s.store i v = (s.alone.store i v).within s := by
  unfold store alone
  cases cellAt s.locals.size i <;> rfl

theorem hasCell_alone (s : State) (i : Int) : s.alone.hasCell i = s.hasCell i := rfl

end State

theorem withArg_within {i : Instr} {f : State → Int → Outcome} (h : ∀ s n, f s n = (f s.alone n).within s)
    (s : State) : withArg i s (f s) = (withArg i s.alone (f s.alone)).within s := by
  unfold withArg
  cases i.arg with
  | none => rfl
  | some n => exact h s n

theorem copyLocals_within (s : State) (dst src count : Int) :
    copyLocals s dst src count = (copyLocals s.alone dst src count).within s := by
  unfold copyLocals alone
  split
  · rfl
  · dsimp only
    cases copyCells dst src count.toNat s.locals <;> rfl

theorem fillLocals_within (s : State) (dst value count : Int) :
    fillLocals s dst value count = (fillLocals s.alone dst value count).within s := by
  unfold fillLocals alone
  split
  · rfl
  · dsimp only
    cases fillCells dst value count.toNat s.locals <;> rfl

theorem execute_plain {img : Image} {i : Instr} (h : i.op.isPlain = true) (s : State) :
    execute img i s = (execute img.textOnly i s.alone).within s := by
  obtain ⟨op, arg⟩ := i
  cases op <;> simp only [execute]
  case jmp | jz | jnz | call | ret => cases h
  case pushInt => exact withArg_within (fun _ _ => rfl) s
  case loadLocal => exact withArg_within load_within s
  case storeLocal =>
    exact pop₁_within (fun s v => withArg_within (fun s n => store_within s n v) s) s
  case add | sub | mul | cmpEq | cmpNe | cmpLt | cmpLe | cmpGt | cmpGe =>
    exact pop₂_within (fun _ _ _ => rfl) s
  case neg | not | printInt | printStr | printlnInt | printlnStr =>
    exact pop₁_within (fun _ _ => rfl) s
  case div => exact pop₂_within (fun s a b => by split <;> rfl) s
  case loadLocalIdx =>
    exact pop₁_within (fun s a => withArg_within (fun s base => load_within s (base + a)) s) s
  case storeLocalIdx =>
    refine pop₂_within (fun s v a => ?_) s
    cases arg with
    | none => rfl
    | some base =>
      simp only [withArg]
      rw [hasCell_alone]
      split <;> rfl
  case loadIndirect =>
    refine pop₁_within (fun s p => ?_) s
    rw [hasCell_alone]
    split <;> rfl
  case storeIndirect =>
    refine pop₂_within (fun s p v => ?_) s
    rw [hasCell_alone]
    split <;> rfl
  case memcpyLocals => exact pop₃_within copyLocals_within s
  case memsetLocals => exact pop₃_within fillLocals_within s
  case other => rfl

theorem execute_ne_exit {img : Image} {i : Instr} (h : i.op.isPlain = true) (s t : State) (v : Int) :
    execute img i s ≠ .exit v t := by
  obtain ⟨op, arg⟩ := i
  cases op
  case jmp | jz | jnz | call | ret => cases h
  all_goals
    simp only [execute, withArg, pop₁, pop₂, pop₃, push, underflow, load,
      store, print, copyLocals, fillLocals]
    repeat' split
    all_goals simp

/-! ### Code in an image -/

def Image.Has (img : Image) (pc : Nat) (code : List Instr) : Prop :=
  ∀ j, j < code.length → img.code[pc + j]? = code[j]?

namespace Image.Has

variable {img : Image} {pc : Nat} {i : Instr} {a b : List Instr}

theorem left (h : img.Has pc (a ++ b)) : img.Has pc a := by
  intro j hj
  rw [h j (by simp; omega), List.getElem?_append_left hj]

theorem right (h : img.Has pc (a ++ b)) : img.Has (pc + a.length) b := by
  intro j hj
  rw [Nat.add_assoc, h (a.length + j) (by simp; omega), List.getElem?_append_right (by omega)]
  simp

theorem head (h : img.Has pc (i :: b)) : img.code[pc]? = some i := h 0 (by simp)

theorem tail (h : img.Has pc (i :: b)) : img.Has (pc + 1) b := h.right (a := [i])

end Image.Has

theorem step_of_code {img : Image} {s : State} {pc : Nat} {i : Instr} (h : img.code[pc]? = some i)
    (hpc : s.pc = pc) : step img s = execute img i { s with pc := pc + 1 } := by
  have hlt : pc < img.code.size := (Array.getElem?_eq_some_iff.1 h).1
  have hfetch : img.fetch pc = .ok i := by
    simp [Image.fetch, cellAt_ofNat hlt, h, bind, Except.bind]
  rw [step, hpc, if_neg (by omega), hfetch]

theorem Image.function_eq_ok {img : Image} {n : Int} {f : FunctionInfo} :
    img.function n = .ok f ↔ ∃ k, cellAt img.functions.size n = .ok k ∧ img.functions[k]? = some f := by
  unfold Image.function
  cases hk : cellAt img.functions.size n with
  | error e => simp [bind, Except.bind]
  | ok k =>
    simp only [bind, Except.bind]
    cases hf : img.functions[k]? <;> simp [hf]

theorem Image.function_of_get {img : Image} {k : Nat} {f : FunctionInfo} (h : img.functions[k]? = some f) :
    img.function k = .ok f :=
  Image.function_eq_ok.2 ⟨k, cellAt_ofNat (Array.getElem?_eq_some_iff.1 h).1, h⟩

/-! ### Counted runs -/

/-- From `s` the machine comes to `t` in `n` steps that print `out`, with at least `d` calls waiting all
the way. -/
inductive Runs (img : Image) (d : Nat) : Nat → List String → State → State → Prop
  | refl {s : State} (hd : d ≤ s.calls.length) : Runs img d 0 [] s s
  | head {n : Nat} {o : Option String} {out : List String} {s s' t : State} (hd : d ≤ s.calls.length)
      (hs : step img s = .next s' o) (ht : Runs img d n out s' t) : Runs img d (n + 1) (o.toList ++ out) s t

namespace Runs

variable {img : Image} {d d' n m : Nat} {out out' : List String} {o : Option String} {s s' t t' u : State}

theorem depth_left (h : Runs img d n out s t) : d ≤ s.calls.length := by
  cases h <;> assumption

theorem depth_right (h : Runs img d n out s t) : d ≤ t.calls.length := by
  induction h with
  | refl hd => exact hd
  | head _ _ _ ih => exact ih

theorem one (hd : d ≤ s.calls.length) (hs : step img s = .next t o) (hd' : d ≤ t.calls.length) :
    Runs img d 1 o.toList s t := by
  simpa using Runs.head hd hs (.refl hd')

theorem trans (h : Runs img d n out s t) (h' : Runs img d m out' t u) : Runs img d (n + m) (out ++ out') s u := by
  induction h with
  | refl => simpa using h'
  | head hd hs _ ih =>
    rw [List.append_assoc, Nat.add_right_comm]
    exact .head hd hs (ih h')

theorem weaken (h : Runs img d n out s t) (hd : d' ≤ d) : Runs img d' n out s t := by
  induction h with
  | refl h => exact .refl (Nat.le_trans hd h)
  | head h hs _ ih => exact .head (Nat.le_trans hd h) hs ih

theorem split (h : Runs img d n out s t) (h' : Runs img d' m out' s t') (hnm : n ≤ m) :
    ∃ more, Runs img d' (m - n) more t t' ∧ out' = out ++ more := by
  induction h generalizing m out' with
  | refl => exact ⟨out', by exact h', rfl⟩
  | @head n o out s s₁ t hd hs _ ih =>
    cases h' with
    | refl => omega
    | @head m o' out' _ s₂ _ hd' hs' ht' =>
      obtain ⟨rfl, rfl⟩ : s₁ = s₂ ∧ o = o' := by simpa using hs.symm.trans hs'
      obtain ⟨more, hm, rfl⟩ := ih ht' (by omega)
      exact ⟨more, by simpa using hm, by simp⟩

/-- No run goes on past a state from which there is no step, or only one that leaves its calls. -/
theorem le_of_last (h : Runs img d n out s t) (ht : ∀ t' o, step img t = .next t' o → t'.calls.length < d')
    (h' : Runs img d' m out' s u) : m ≤ n := by
  rcases Nat.lt_or_ge n m with hlt | hge
  · obtain ⟨more, hrest, -⟩ := h.split h' (Nat.le_of_lt hlt)
    generalize hk : m - n = k at hrest
    cases hrest with
    | refl => omega
    | head _ hs hrest => exact absurd hrest.depth_left (Nat.not_le.2 (ht _ _ hs))
  · exact hge

theorem le_of_leaving (h : Runs img d n out s t) (hs : step img t = .next t' o) (hd : t'.calls.length < d')
    (h' : Runs img d' m out' s u) : m ≤ n := by
  refine h.le_of_last (fun t'' o' hs' => ?_) h'
  rw [hs] at hs'
  cases hs'
  exact hd

/-- What a run has printed at some time it had printed at an earlier time, text by text. -/
theorem take_prints (h : Runs img d n out s t) (hp : out' <+: out) : ∃ m t', Runs img d m out' s t' := by
  induction h generalizing out' with
  | @refl s hd =>
    rw [List.prefix_nil.1 hp]
    exact ⟨0, s, .refl hd⟩
  | @head n o out s s' t hd hs _ ih =>
    cases o with
    | none =>
      obtain ⟨m, t', h'⟩ := ih hp
      exact ⟨m + 1, t', .head hd hs h'⟩
    | some text =>
      cases out' with
      | nil => exact ⟨0, s, .refl hd⟩
      | cons text' out' =>
        obtain ⟨rfl, hp'⟩ := List.cons_prefix_cons.1 hp
        obtain ⟨m, t', h'⟩ := ih hp'
        exact ⟨m + 1, t', .head hd hs h'⟩

end Runs

/-! ### What a run shows -/

def State.ending? (img : Image) (s : State) : Option Ending :=
  match step img s with
  | .next _ _ => none
  | .exit v _ => some (.exit v)
  | .fault f _ => some (.fault f)

deriving instance DecidableEq for Image

/-- Some budget of steps is enough for the run to end as `e` says, having printed `out`. -/
def Image.Ends (img : Image) (out : List String) (e : Ending) : Prop :=
  e ≠ .stepLimit ∧ ∃ limit, (img.run limit {}).ending = e ∧ (img.run limit {}).run.out = out

def Image.Prints (img : Image) (out : List String) : Prop := ∃ limit, (img.run limit {}).run.out = out

/-- The runs of two images print the same, and end alike if they end. -/
def SameBehaviour (img img' : Image) : Prop :=
  (∀ out e, img.Ends out e ↔ img'.Ends out e) ∧ ∀ out, img.Prints out ↔ img'.Prints out

namespace Run

variable {img : Image} {limit : Nat} {r : Run} {s : State} {o : Option String} {e : Ending}

theorem tick_next (hr : r.stopping = false) (hl : r.steps < limit) (hs : step img r.state = .next s o) :
    r.tick img {} limit = .going { r with state := s, steps := r.steps + 1, printed := o.toList ++ r.printed } := by
  unfold step at hs
  unfold tick
  split at hs
  · cases hs
  rename_i hpc
  rw [if_neg hpc, hr, if_neg (by simp)]
  cases hf : img.fetch r.state.pc with
  | error e => simp [hf] at hs
  | ok i =>
    simp only [hf] at hs
    simp only [if_neg (Nat.not_le.2 hl), hs]
    simp [continued, fetched, hr]

theorem tick_last (hr : r.stopping = false) (hl : r.steps < limit) (he : r.state.ending? img = some e) :
    ∃ f, r.tick img {} limit = .ended f ∧ f.ending = e ∧ f.run.printed = r.printed := by
  unfold ending? step at he
  unfold tick
  by_cases hpc : img.code.size ≤ r.state.pc
  · rw [if_pos hpc] at he ⊢
    exact ⟨_, rfl, by simpa using he, rfl⟩
  rw [if_neg hpc] at he ⊢
  rw [hr, if_neg (by simp)]
  cases hf : img.fetch r.state.pc with
  | error b => exact ⟨_, rfl, by simpa [hf] using he, rfl⟩
  | ok i =>
    simp only [hf] at he
    simp only [if_neg (Nat.not_le.2 hl)]
    cases hx : execute img i { r.state with pc := r.state.pc + 1 } with
    | next => simp [hx] at he
    | exit => exact ⟨_, rfl, by simpa [hx] using he, rfl⟩
    | fault => exact ⟨_, rfl, by simpa [hx] using he, rfl⟩

theorem tick_limit (img : Image) (hr : r.stopping = false) (hl : limit ≤ r.steps) :
    ∃ f, r.tick img {} limit = .ended f ∧ f.run.printed = r.printed ∧
      (f.ending = .stepLimit ∨ r.state.ending? img = some f.ending) := by
  unfold ending? step tick
  by_cases hpc : img.code.size ≤ r.state.pc
  · rw [if_pos hpc, if_pos hpc]
    exact ⟨_, rfl, rfl, .inr rfl⟩
  rw [if_neg hpc, if_neg hpc, hr, if_neg (by simp)]
  cases img.fetch r.state.pc with
  | error b => exact ⟨_, rfl, rfl, .inr rfl⟩
  | ok i =>
    simp only [if_pos hl]
    exact ⟨_, rfl, rfl, .inl rfl⟩

theorem proceed_runs {n : Nat} {out : List String} {t : State} (h : Runs img 0 n out s t) (fuel : Nat) :
    ∀ r : Run, r.state = s → r.stopping = false → r.steps + n ≤ limit →
      r.proceed img {} limit (fuel + n) = proceed img {} limit fuel
        { r with state := t, steps := r.steps + n, printed := out.reverse ++ r.printed } := by
  induction h with
  | refl =>
    rintro r rfl _ _
    rfl
  | @head n o out s s' t _ hs _ ih =>
    rintro r rfl hr hl
    rw [← Nat.add_assoc, proceed, tick_next hr (by omega) hs]
    have hstep := ih { r with state := s', steps := r.steps + 1, printed := o.toList ++ r.printed } rfl hr
      (by dsimp only; omega)
    refine hstep.trans ?_
    cases o <;> simp [Nat.add_assoc, Nat.add_comm 1]

/-- What a bounded run shows is what some counted run shows. -/
theorem proceed_sound (img : Image) (limit fuel : Nat) : ∀ r : Run, r.stopping = false →
    ∃ n out t, Runs img 0 n out r.state t ∧
      (r.proceed img {} limit fuel).run.printed = out.reverse ++ r.printed ∧
      ((r.proceed img {} limit fuel).ending = .stepLimit ∨
        t.ending? img = some (r.proceed img {} limit fuel).ending) := by
  induction fuel with
  | zero => exact fun r _ => ⟨0, [], r.state, .refl (Nat.zero_le _), rfl, .inl rfl⟩
  | succ fuel ih =>
    intro r hr
    rcases Nat.lt_or_ge r.steps limit with hl | hl
    · cases hs : step img r.state with
      | next s o =>
        rw [proceed, tick_next hr hl hs]
        obtain ⟨n, out, t, hrun, hp, he⟩ := ih { r with
          state := s, steps := r.steps + 1, printed := o.toList ++ r.printed } hr
        refine ⟨n + 1, o.toList ++ out, t, .head (Nat.zero_le _) hs hrun, ?_, he⟩
        simp only [hp, List.reverse_append, List.append_assoc]
        cases o <;> rfl
      | exit v s =>
        have he : r.state.ending? img = some (.exit v) := by simp [ending?, hs]
        obtain ⟨f, hf, hfe, hp⟩ := tick_last hr hl he
        rw [proceed, hf]
        exact ⟨0, [], r.state, .refl (Nat.zero_le _), hp, .inr (hfe ▸ he)⟩
      | fault b s =>
        have he : r.state.ending? img = some (.fault b) := by simp [ending?, hs]
        obtain ⟨f, hf, hfe, hp⟩ := tick_last hr hl he
        rw [proceed, hf]
        exact ⟨0, [], r.state, .refl (Nat.zero_le _), hp, .inr (hfe ▸ he)⟩
    · obtain ⟨f, hf, hp, he⟩ := tick_limit img hr hl
      rw [proceed, hf]
      exact ⟨0, [], r.state, .refl (Nat.zero_le _), hp, he⟩

end Run

variable {img : Image} {f : FunctionInfo} {out : List String}

theorem Image.run_main (hm : img.main? = some f) (limit : Nat) :
    img.run limit {} = Run.proceed img {} limit (limit + 1) { state := .start f } := by
  simp [Image.run, hm]

/-- The run with `k` steps more than it takes to come to `t`. -/
theorem Image.run_of_runs (hm : img.main? = some f) {n : Nat} {t : State} (h : Runs img 0 n out (.start f) t)
    (k : Nat) : ∃ r : Run, img.run (n + k) {} = r.proceed img {} (n + k) (k + 1) ∧
      r.state = t ∧ r.stopping = false ∧ r.steps = n ∧ r.out = out := by
  rw [Image.run_main hm, show n + k + 1 = k + 1 + n by omega, Run.proceed_runs h (k + 1) _ rfl rfl (by simp)]
  exact ⟨_, rfl, rfl, rfl, by simp, by simp [Run.out]⟩

theorem Image.ends_iff (hm : img.main? = some f) {e : Ending} :
    img.Ends out e ↔ ∃ n t, Runs img 0 n out (.start f) t ∧ t.ending? img = some e := by
  constructor
  · rintro ⟨he, limit, hl, ho⟩
    rw [Image.run_main hm] at hl ho
    obtain ⟨n, out', t, hrun, hp, hend⟩ :=
      Run.proceed_sound img limit (limit + 1) { state := .start f } rfl
    rw [hl] at hend
    refine ⟨n, t, ?_, hend.resolve_left he⟩
    rw [← ho, Run.out, hp]
    simpa using hrun
  · rintro ⟨n, t, hrun, he⟩
    obtain ⟨r, hr, rfl, hstop, hsteps, hout⟩ := Image.run_of_runs hm hrun 1
    obtain ⟨fin, hf, hfe, hp⟩ := Run.tick_last hstop (show r.steps < n + 1 by omega) he
    refine ⟨?_, n + 1, ?_⟩
    · rintro rfl
      unfold ending? at he
      split at he <;> cases he
    · rw [hr, Run.proceed, hf]
      exact ⟨hfe, by simpa [Run.out, hp] using hout⟩

theorem Image.prints_iff (hm : img.main? = some f) : img.Prints out ↔ ∃ n t, Runs img 0 n out (.start f) t := by
  constructor
  · rintro ⟨limit, ho⟩
    rw [Image.run_main hm] at ho
    obtain ⟨n, out', t, hrun, hp, -⟩ :=
      Run.proceed_sound img limit (limit + 1) { state := .start f } rfl
    refine ⟨n, t, ?_⟩
    rw [← ho, Run.out, hp]
    simpa using hrun
  · rintro ⟨n, t, hrun⟩
    obtain ⟨r, hr, rfl, hstop, hsteps, hout⟩ := Image.run_of_runs hm hrun 0
    obtain ⟨fin, hf, hp, -⟩ := Run.tick_limit img hstop (show n + 0 ≤ r.steps by omega)
    refine ⟨n + 0, ?_⟩
    rw [hr, Run.proceed, hf]
    simpa [Run.out, hp] using hout

/-! ### Observations -/

/-- What is known of a run: what it has printed, and how it ended if it has. -/
structure Observed where
  out : List String
  ending : Option Ending

/-- Every observation is one of the run of `main`; the `n`-th one is not made before the `n`-th step, unless the
run ends before that. -/
def Image.Follows (img : Image) (obs : Nat → Observed) : Prop :=
  ∃ f, img.main? = some f ∧ ∀ n, ∃ k t, Runs img 0 k (obs n).out (.start f) t ∧
    match (obs n).ending with
    | some e => t.ending? img = some e
    | none => n ≤ k

theorem Runs.le_of_ending {d d' n m : Nat} {out out' : List String} {s t t' : State} {e : Ending}
    (h : Runs img d n out s t) (he : t.ending? img = some e) (h' : Runs img d' m out' s t') : m ≤ n := by
  refine h.le_of_last (fun u o hs => ?_) h'
  simp [ending?, hs] at he

namespace Image.Follows

variable {obs : Nat → Observed}

theorem ends_iff (h : img.Follows obs) {e : Ending} : img.Ends out e ↔ ∃ n, obs n = ⟨out, some e⟩ := by
  obtain ⟨f, hm, hobs⟩ := h
  rw [Image.ends_iff hm]
  constructor
  · rintro ⟨m, t, hrun, he⟩
    obtain ⟨k, t', hrun', hend⟩ := hobs (m + 1)
    refine ⟨m + 1, ?_⟩
    have hk : k ≤ m := hrun.le_of_ending he hrun'
    split at hend
    case h_1 e' he' =>
      obtain rfl : k = m := Nat.le_antisymm hk (hrun'.le_of_ending hend hrun)
      obtain ⟨more, hrest, hout⟩ := hrun.split hrun' (Nat.le_refl _)
      rw [Nat.sub_self] at hrest
      cases hrest with
      | refl =>
        rw [he, Option.some.injEq] at hend
        rw [List.append_nil] at hout
        rw [← hout, hend, ← he']
    case h_2 => omega
  · rintro ⟨n, hn⟩
    obtain ⟨k, t, hrun, hend⟩ := hobs n
    rw [hn] at hrun hend
    exact ⟨k, t, hrun, hend⟩

theorem prints_iff (h : img.Follows obs) : img.Prints out ↔ ∃ n, out <+: (obs n).out := by
  obtain ⟨f, hm, hobs⟩ := h
  rw [Image.prints_iff hm]
  constructor
  · rintro ⟨m, t, hrun⟩
    obtain ⟨k, t', hrun', hend⟩ := hobs m
    have hk : m ≤ k := by
      split at hend
      · exact hrun'.le_of_ending hend hrun
      · exact hend
    obtain ⟨more, -, hout⟩ := hrun.split hrun' hk
    exact ⟨m, more, hout.symm⟩
  · rintro ⟨n, hn⟩
    obtain ⟨k, t, hrun, -⟩ := hobs n
    exact hrun.take_prints hn

theorem succ (h : img.Follows obs) : img.Follows fun n => obs (n + 1) := by
  obtain ⟨f, hm, hobs⟩ := h
  refine ⟨f, hm, fun n => ?_⟩
  obtain ⟨k, t, hrun, hend⟩ := hobs (n + 1)
  refine ⟨k, t, hrun, ?_⟩
  cases he : (obs (n + 1)).ending with
  | some e => simpa only [he] using hend
  | none =>
    rw [he] at hend
    exact Nat.le_of_succ_le hend

theorem sameBehaviour {img' : Image} (h : img.Follows obs) (h' : img'.Follows obs) : SameBehaviour img img' :=
  ⟨fun _ _ => h.ends_iff.trans h'.ends_iff.symm, fun _ => h.prints_iff.trans h'.prints_iff.symm⟩

end Image.Follows

end Workbench.Machine
