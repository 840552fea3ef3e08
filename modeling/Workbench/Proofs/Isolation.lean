import Workbench.Proofs.Frames

/-!
# Calls leave their caller alone

A call is matched with its return by depth alone: `Image.returnsTo` says that a step is a return to a given depth, and
the first such step after a call is the one that ends it. Until then the caller waits at the bottom of what the callee
and its own calls put on the call stack (`caller_waits`), so the return finds it as the call left it
(`frame_isolation`). This holds of any code and from any state, whatever is executed in between.
-/

namespace Workbench.Machine

namespace Image

/-- The state after `n` steps, if there are that many. -/
def after (img : Image) : Nat → State → Option State
  | 0, s => some s
  | n + 1, s => match step img s with
    | .next t _ => img.after n t
    | .exit _ _ | .fault _ _ => none

/-- The operation that comes next. -/
def opAt (img : Image) (s : State) : Option Op := (img.fetch s.pc).toOption.map (·.op)

/-- The step after the first `n` is a return, and `d` calls wait after it. -/
def returnsTo (img : Image) (s : State) (d n : Nat) : Bool :=
  match img.after n s, img.after (n + 1) s with
  | some u, some t => img.opAt u == some .ret && t.calls.length == d
  | _, _ => false

end Image

section Steps

variable {img : Image} {s t : State} {n : Nat}

theorem Image.after_succ : img.after (n + 1) s = some t ↔ ∃ u o, img.after n s = some u ∧ step img u = .next t o := by
  induction n generalizing s with
  | zero =>
    simp only [Image.after]
    cases hs : step img s with
    | next t' o => simp [hs]
    | exit v t' | fault f t' => simp [hs]
  | succ n ih =>
    cases hs : step img s with
    | next s' o =>
      have hleft : img.after (n + 1 + 1) s = img.after (n + 1) s' := by rw [Image.after, hs]
      have hright : img.after (n + 1) s = img.after n s' := by rw [Image.after, hs]
      rw [hleft, hright, ih]
    | exit v t' | fault f t' => simp [Image.after, hs]

theorem Image.returnsTo_iff {d : Nat} : img.returnsTo s d n = true ↔
    ∃ u t o, img.after n s = some u ∧ img.opAt u = some .ret ∧ step img u = .next t o ∧ t.calls.length = d := by
  unfold Image.returnsTo
  constructor
  · intro h
    split at h
    case h_1 u t hu ht =>
      rw [Bool.and_eq_true, beq_iff_eq, beq_iff_eq] at h
      obtain ⟨u', o, hu', hstep⟩ := Image.after_succ.1 ht
      obtain rfl : u = u' := by simpa using hu.symm.trans hu'
      exact ⟨u, t, o, hu, h.1, hstep, h.2⟩
    case h_2 => cases h
  · rintro ⟨u, t, o, hu, hret, hstep, rfl⟩
    have ht : img.after (n + 1) s = some t := Image.after_succ.2 ⟨u, o, hu, hstep⟩
    simp [hu, ht, hret]

theorem Image.opAt_eq_some {op : Op} (h : img.opAt s = some op) : ∃ i, img.fetch s.pc = .ok i ∧ i.op = op := by
  unfold Image.opAt at h
  cases hi : img.fetch s.pc with
  | error e => simp [hi, Except.toOption] at h
  | ok i => exact ⟨i, rfl, by simpa [hi, Except.toOption] using h⟩

/-- What a step does to the calls that wait: it keeps them, puts one on top, or returns to the top one. -/
theorem step_calls {o : Option String} (h : step img s = .next t o) :
    t.calls = s.calls ∨ (∃ fr, t.calls = fr :: s.calls) ∨ (img.opAt s = some .ret ∧ t.frames = s.calls) := by
  obtain ⟨i, hi⟩ := exists_fetch_of_next h
  by_cases hcall : i.op = .call
  · obtain ⟨-, -, f, cells, -, -, -, -, hframes⟩ := frames_call hi h hcall
    exact .inr (.inl ⟨_, (List.cons.inj hframes).2⟩)
  by_cases hret : i.op = .ret
  · refine .inr (.inr ⟨?_, frames_ret hi h hret⟩)
    simp [Image.opAt, hi, Except.toOption, hret]
  · obtain ⟨fr, hframes, -⟩ := frames_other hi h hcall hret
    exact .inl (List.cons.inj hframes).2

end Steps

/-- The caller, as it waits for a call that it makes in the state `s`. -/
def State.waiting (s : State) : List Frame := ⟨s.pc + 1, s.locals⟩ :: s.calls

/-- Up to the return that ends a call, the caller waits below everything that is called in between. -/
theorem caller_waits {img : Image} {s : State} {n : Nat} (hcall : img.opAt s = some .call)
    (hopen : ∀ k < n, img.returnsTo s s.calls.length k = false) :
    ∀ k < n, ∀ v, img.after (k + 1) s = some v → s.waiting <:+ v.calls := by
  intro k
  induction k with
  | zero =>
    intro _ v hv
    obtain ⟨u, o, hu, hstep⟩ := Image.after_succ.1 hv
    obtain rfl : s = u := by simpa [Image.after] using hu
    obtain ⟨i, hi, hop⟩ := Image.opAt_eq_some hcall
    obtain ⟨-, -, f, cells, -, -, -, -, hframes⟩ := frames_call hi hstep hop
    have hcalls : v.calls = s.waiting := (List.cons.inj hframes).2
    exact hcalls ▸ List.suffix_refl s.waiting
  | succ k ih =>
    intro hk v hv
    obtain ⟨u, o, hu, hstep⟩ := Image.after_succ.1 hv
    have hwait : s.waiting <:+ u.calls := ih (by omega) u hu
    rcases step_calls hstep with hkeep | ⟨fr, hpush⟩ | ⟨hret, hframes⟩
    · rwa [hkeep]
    · rw [hpush]
      exact hwait.trans (List.suffix_cons fr u.calls)
    · -- a return: had it reached the caller, it would be one to the depth of the call
      have hne : v.calls.length ≠ s.calls.length := by
        intro hlen
        have hreturns := Image.returnsTo_iff.2 ⟨u, v, o, hu, hret, hstep, hlen⟩
        rw [hopen (k + 1) hk] at hreturns
        cases hreturns
      rw [← hframes, State.frames, List.suffix_cons_iff] at hwait
      rcases hwait with heq | hwait
      · have hcalls : s.calls = v.calls := (List.cons.inj heq).2
        exact absurd (congrArg List.length hcalls.symm) hne
      · exact hwait

/-- **Isolation of frames.** The first return after a call that comes back to the depth of the call goes on behind the
call, with the cells and the callers that were there before it. -/
theorem frame_isolation {img : Image} {s : State} {n : Nat} (hcall : img.opAt s = some .call)
    (hreturn : img.returnsTo s s.calls.length n = true)
    (hfirst : ∀ k < n, img.returnsTo s s.calls.length k = false) :
    ∃ t, img.after (n + 1) s = some t ∧ t.pc = s.pc + 1 ∧ t.locals = s.locals ∧ t.calls = s.calls := by
  obtain ⟨u, t, o, hu, hret, hstep, hlen⟩ := Image.returnsTo_iff.1 hreturn
  refine ⟨t, Image.after_succ.2 ⟨u, o, hu, hstep⟩, ?_⟩
  obtain ⟨m, rfl⟩ : ∃ m, n = m + 1 := by
    cases n with
    | zero =>
      obtain rfl : s = u := by simpa [Image.after] using hu
      rw [hcall] at hret
      cases hret
    | succ m => exact ⟨m, rfl⟩
  have hwait : s.waiting <:+ u.calls := caller_waits hcall hfirst m (Nat.lt_succ_self m) u hu
  obtain ⟨i, hi, hop⟩ := Image.opAt_eq_some hret
  have hframes : t.frames = u.calls := frames_ret hi hstep hop
  rw [← hframes] at hwait
  have hlength : s.waiting.length = t.frames.length := by
    simp only [State.waiting, State.frames, List.length_cons, hlen]
  have heq := hwait.eq_of_length hlength
  simp only [State.waiting, State.frames, List.cons.injEq, Frame.mk.injEq] at heq
  exact ⟨heq.1.1.symm, heq.1.2.symm, heq.2.symm⟩

/-- The second function stores, fills and indexes its cells and calls itself once, by its number from the back. -/
def scribbleImage : Image where
  code := #[⟨.pushInt, some 7⟩, ⟨.storeLocal, some 0⟩, ⟨.pushInt, some 1⟩, ⟨.call, some 1⟩, ⟨.ret, none⟩,
    ⟨.pushInt, some 1⟩, ⟨.pushInt, some 9⟩, ⟨.storeIndirect, none⟩,
    ⟨.pushInt, some 1⟩, ⟨.pushInt, some 5⟩, ⟨.pushInt, some 2⟩, ⟨.memsetLocals, none⟩,
    ⟨.pushInt, some 8⟩, ⟨.pushInt, some 2⟩, ⟨.storeLocalIdx, some 0⟩,
    ⟨.loadLocal, some 0⟩, ⟨.jz, some 19⟩, ⟨.pushInt, some 0⟩, ⟨.call, some (-1)⟩,
    ⟨.pushInt, some 3⟩, ⟨.ret, none⟩]
  functions := #[⟨"main", 0, 2, 0⟩, ⟨"scribble", 5, 3, 1⟩]
  strings := []

def beforeScribble : State := { pc := 3, stack := [1], locals := #[7, 0], calls := [] }

theorem scribble_returns : scribbleImage.opAt beforeScribble = some .call ∧
    scribbleImage.returnsTo beforeScribble 0 30 = true ∧
    ∃ t, scribbleImage.after 31 beforeScribble = some t ∧ t.pc = 4 ∧ t.locals = #[7, 0] ∧ t.calls = [] :=
  ⟨by decide, by decide, @frame_isolation scribbleImage beforeScribble 30 (by decide) (by decide) (by decide)⟩

end Workbench.Machine
