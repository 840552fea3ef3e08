import Workbench.Proofs.Sessions

/-!
# Requests to stop are precise

A request to stop is looked at between two instructions, so the instruction during which it comes is carried out, and
none after it. `Image.runAfter` is what a run has come to after some instructions. As long as no request has come, it
is the same as in the run that is never asked (`Run.after_unasked`); after the instruction with the request the run
ends (`stop_precise`).
-/

namespace Workbench.Machine

/-- The watch without its requests to stop. -/
def Watch.unasking (w : Watch) : Watch := { trace := w.trace }

def Progress.going? : Progress → Option Run
  | .going r => some r
  | .ended _ => none

/-- The text that the next instruction prints. -/
def State.prints? (img : Image) (s : State) : Option String :=
  match step img s with
  | .next _ out => out
  | .exit _ _ | .fault _ _ => none

/-- A request comes while the run carries out its next instruction, which prints `out`. -/
def Watch.asks (w : Watch) (r : Run) (out : Option String) : Bool :=
  w.stopAtStep == some (r.steps + 1) || (out.isSome && w.stopAfterOutputs == some (r.printed.length + 1))

theorem Watch.asks_unasking (w : Watch) (r : Run) (out : Option String) : w.unasking.asks r out = false := by
  cases out <;> rfl

namespace Run

/-- The run after `n` instructions, if none of them ends it. No budget ends it either. -/
def after (img : Image) (w : Watch) : Nat → Run → Option Run
  | 0, r => some r
  | n + 1, r => (r.tick img w (r.steps + 1)).going?.bind (after img w n)

/-- The run with its next instruction `i` carried out, which leaves the state `t` and prints `out`. -/
def done (w : Watch) (r : Run) (i : Instr) (t : State) (out : Option String) : Run :=
  { r.fetched w i with state := t, printed := out.toList ++ r.printed }

section Tick

variable {img : Image} {w : Watch} {limit : Nat} {r r' : Run} {i : Instr}

theorem tick_budget (hl : r.steps < limit) : r.tick img w limit = r.tick img w (r.steps + 1) := by
  simp only [tick, if_neg (not_le.2 hl), if_neg (not_le.2 (Nat.lt_succ_self r.steps))]

theorem tick_fetched (hstop : r.stopping = false) (hl : r.steps < limit) (hi : img.fetch r.state.pc = .ok i) :
    r.tick img w limit = match execute img i { r.state with pc := r.state.pc + 1 } with
      | .exit v t => .ended ⟨r.done w i t none, .exit v⟩
      | .fault e t => .ended ⟨r.done w i t none, .fault e⟩
      | .next t out => .going { r.done w i t out with stopping := w.asks r out } := by
  have hpc : ¬(img.code.size : Int) ≤ r.state.pc := Int.not_le.2 (Image.lt_of_fetch hi)
  simp only [tick, if_neg hpc, hstop, if_neg Bool.false_ne_true, hi, if_neg (Nat.not_le.2 hl)]
  cases execute img i { r.state with pc := r.state.pc + 1 } with
  | exit v t | fault e t => rfl
  | next t out => cases out <;> simp [continued, fetched, done, Watch.asks, hstop]

theorem tick_ended_or_fetched (img : Image) (limit : Nat) (r : Run) :
    (∃ e, ∀ w, r.tick img w limit = .ended ⟨r, e⟩) ∨
      r.stopping = false ∧ r.steps < limit ∧ ∃ i, img.fetch r.state.pc = .ok i := by
  simp only [tick]
  by_cases hpc : img.code.size ≤ r.state.pc
  · simp only [if_pos hpc]
    exact .inl ⟨_, fun _ => rfl⟩
  simp only [if_neg hpc]
  cases r.stopping with
  | true => exact .inl ⟨_, fun _ => rfl⟩
  | false =>
    simp only
    cases img.fetch r.state.pc with
    | error e => exact .inl ⟨_, fun _ => rfl⟩
    | ok i =>
      by_cases hl : limit ≤ r.steps
      · exact .inl ⟨_, fun _ => if_pos hl⟩
      · exact .inr ⟨trivial, Nat.lt_of_not_le hl, i, rfl⟩

theorem exists_of_going (h : r.tick img w limit = .going r') :
    r.stopping = false ∧ r.steps < limit ∧ ∃ i t out, img.fetch r.state.pc = .ok i ∧ r.state.prints? img = out ∧
      execute img i { r.state with pc := r.state.pc + 1 } = .next t out ∧
      r' = { r.done w i t out with stopping := w.asks r out } := by
  rcases tick_ended_or_fetched img limit r with ⟨e, he⟩ | ⟨hstop, hl, i, hi⟩
  · rw [he w] at h
    cases h
  · refine ⟨hstop, hl, i, ?_⟩
    rw [tick_fetched hstop hl hi] at h
    cases hx : execute img i { r.state with pc := r.state.pc + 1 } with
    | exit v t | fault e t =>
      rw [hx] at h
      cases h
    | next t out =>
      rw [hx] at h
      cases h
      exact ⟨t, out, hi, by rw [State.prints?, step_of_fetch hi, hx], rfl, rfl⟩

/-- Where no request comes, a step is one of the run that is never asked. -/
theorem tick_unasked (h : w.asks r (r.state.prints? img) = false) :
    r.tick img w limit = r.tick img w.unasking limit := by
  rcases tick_ended_or_fetched img limit r with ⟨e, he⟩ | ⟨hstop, hl, i, hi⟩
  · rw [he, he]
  · rw [State.prints?, step_of_fetch hi] at h
    rw [tick_fetched hstop hl hi, tick_fetched hstop hl hi]
    cases hx : execute img i { r.state with pc := r.state.pc + 1 } with
    | exit v t | fault e t => rfl
    | next t out =>
      rw [hx] at h
      dsimp only at ⊢
      rw [h, w.asks_unasking]
      rfl

end Tick

section After

variable {img : Image} {w : Watch} {limit n : Nat} {r r' : Run}

theorem after_succ : r.after img w (n + 1) = some r' ↔
    ∃ r₁, r.tick img w (r.steps + 1) = .going r₁ ∧ r₁.after img w n = some r' := by
  rw [after]
  cases r.tick img w (r.steps + 1) with
  | going r₁ => simp [Progress.going?]
  | ended f => simp [Progress.going?]

theorem after_add (m : Nat) : r.after img w (n + m) = (r.after img w n).bind (after img w m) := by
  induction n generalizing r with
  | zero => rw [Nat.zero_add]; rfl
  | succ n ih =>
    rw [Nat.succ_add, after, after]
    cases r.tick img w (r.steps + 1) with
    | going r₁ => exact ih
    | ended f => rfl

theorem steps_after (h : r.after img w n = some r') :
    r'.steps = r.steps + n ∧ r.printed.length ≤ r'.printed.length := by
  induction n generalizing r with
  | zero =>
    cases h
    exact ⟨rfl, le_rfl⟩
  | succ n ih =>
    obtain ⟨r₁, htick, h⟩ := after_succ.1 h
    obtain ⟨-, -, i, t, out, -, -, -, rfl⟩ := exists_of_going htick
    obtain ⟨hsteps, hprinted⟩ := ih h
    simp only [done, fetched, List.length_append] at hsteps hprinted
    exact ⟨by omega, by omega⟩

theorem stopping_after (hstop : r.stopping = false) (h : r.after img w.unasking n = some r') : r'.stopping = false := by
  induction n generalizing r with
  | zero =>
    cases h
    exact hstop
  | succ n ih =>
    obtain ⟨r₁, htick, h⟩ := after_succ.1 h
    obtain ⟨-, -, i, t, out, -, -, -, rfl⟩ := exists_of_going htick
    exact ih (w.asks_unasking r out) h

theorem after_snoc {i : Instr} {t : State} {out : Option String} (hstop : r.stopping = false)
    (h : r.after img w.unasking n = some r') (hi : img.fetch r'.state.pc = .ok i)
    (hx : execute img i { r'.state with pc := r'.state.pc + 1 } = .next t out) :
    r.after img w.unasking (n + 1) = some (r'.done w i t out) := by
  have hstop' : r'.stopping = false := stopping_after hstop h
  rw [after_add, h]
  refine after_succ.2 ⟨r'.done w i t out, ?_, rfl⟩
  rw [tick_fetched hstop' (Nat.lt_succ_self _) hi, hx]
  dsimp only
  rw [w.asks_unasking, ← hstop']
  rfl

/-- Up to a request the run is the one that is never asked. -/
theorem after_unasked
    (h : ∀ k < n, ∀ r', r.after img w.unasking k = some r' → w.asks r' (r'.state.prints? img) = false) :
    r.after img w n = r.after img w.unasking n := by
  induction n generalizing r with
  | zero => rfl
  | succ n ih =>
    have hhead := h 0 (Nat.succ_pos n) r rfl
    rw [after, after, tick_unasked hhead]
    cases htick : r.tick img w.unasking (r.steps + 1) with
    | ended f => rfl
    | going r₁ =>
      refine ih fun k hk r' hr' => h (k + 1) (Nat.succ_lt_succ hk) r' ?_
      exact after_succ.2 ⟨r₁, htick, hr'⟩

theorem proceed_after (h : r.after img w n = some r') (hl : r.steps + n ≤ limit) (fuel : Nat) :
    r.proceed img w limit (fuel + n) = r'.proceed img w limit fuel := by
  induction n generalizing r with
  | zero =>
    cases h
    rfl
  | succ n ih =>
    obtain ⟨r₁, htick, h⟩ := after_succ.1 h
    have hsteps : r₁.steps = r.steps + 1 := by
      obtain ⟨-, -, i, t, out, -, -, -, rfl⟩ := exists_of_going htick
      rfl
    rw [← Nat.add_assoc, proceed, tick_budget (by omega), htick]
    exact ih h (by omega)

theorem exists_after_of_steps (fuel : Nat) (h : r.steps + n < (r.proceed img w limit fuel).run.steps) :
    ∃ r' i, r.after img w n = some r' ∧ img.fetch r'.state.pc = .ok i := by
  induction fuel generalizing r n with
  | zero => exact absurd h (not_lt.2 (Nat.le_add_right _ _))
  | succ fuel ih =>
    rw [proceed] at h
    rcases tick_ended_or_fetched img limit r with ⟨e, he⟩ | ⟨hstop, hl, i, hi⟩
    · rw [he] at h
      exact absurd h (not_lt.2 (Nat.le_add_right _ _))
    cases n with
    | zero => exact ⟨r, i, rfl, hi⟩
    | succ n =>
      cases htick : r.tick img w limit with
      | ended f =>
        -- the instruction that ends the run is its last one
        have hsteps : f.run.steps = r.steps + 1 := by
          rw [tick_fetched hstop hl hi] at htick
          cases hx : execute img i { r.state with pc := r.state.pc + 1 } with
          | next t out =>
            rw [hx] at htick
            cases htick
          | exit v t | fault e t =>
            rw [hx] at htick
            cases htick
            rfl
        rw [htick] at h
        dsimp only at h
        omega
      | going r₁ =>
        rw [htick] at h
        have hsteps : r₁.steps = r.steps + 1 := by
          obtain ⟨-, -, i, t, out, -, -, -, rfl⟩ := exists_of_going htick
          rfl
        obtain ⟨r', i', hr', hi'⟩ := ih (r := r₁) (n := n) (by dsimp only at h; omega)
        exact ⟨r', i', after_succ.2 ⟨r₁, tick_budget hl ▸ htick, hr'⟩, hi'⟩

end After

end Run

/-- The run of `main` after `n` instructions, if none of them ends it. -/
def Image.runAfter (img : Image) (w : Watch) (n : Nat) : Option Run :=
  img.main?.bind fun f => Run.after img w n { state := .start f }

/-- The one request of the watch comes during the fetch of the `n`-th instruction, or while the `n`-th instruction
prints. -/
def Watch.AsksAt (w : Watch) (img : Image) (n : Nat) : Prop :=
  w.stopAtStep = some n ∧ w.stopAfterOutputs = none ∨
    w.stopAtStep = none ∧ ∃ r text, img.runAfter w.unasking (n - 1) = some r ∧ r.state.prints? img = some text ∧
      w.stopAfterOutputs = some (r.printed.length + 1)

section Asked

variable {img : Image} {w : Watch} {n : Nat}

/-- A text that is printed before the `n`-th instruction is not the one that the `n`-th instruction prints. -/
theorem Run.printed_lt_of_prints {r₀ r r' : Run} {k : Nat} {text : String} (h : r₀.after img w k = some r')
    (htext : r'.state.prints? img = some text) (hn : k < n) (hr : r₀.after img w n = some r) :
    r'.printed.length < r.printed.length := by
  obtain ⟨m, rfl⟩ : ∃ m, n = k + (m + 1) := ⟨n - k - 1, by omega⟩
  rw [Run.after_add, h] at hr
  obtain ⟨r₁, htick, hr⟩ := Run.after_succ.1 hr
  obtain ⟨-, -, i, t, out, -, hout, -, rfl⟩ := Run.exists_of_going htick
  obtain rfl : some text = out := htext.symm.trans hout
  have hprinted := (Run.steps_after hr).2
  exact hprinted

/-- The request comes during the `n`-th instruction and no earlier. -/
theorem Watch.AsksAt.asks_iff (h : w.AsksAt img n) {k : Nat} (hk : k < n) {r : Run}
    (hr : img.runAfter w.unasking k = some r) : w.asks r (r.state.prints? img) = true ↔ k + 1 = n := by
  obtain ⟨f, hf, hafter⟩ := Option.bind_eq_some_iff.1 hr
  have hsteps : r.steps = k := by simpa using (Run.steps_after hafter).1
  rcases h with ⟨hstep, houtputs⟩ | ⟨hstep, r', text, hr', htext, houtputs⟩
  · rw [Watch.asks, hstep, houtputs, hsteps, eq_comm (a := k + 1)]
    simp
  · rw [Watch.asks, hstep, houtputs]
    rw [Image.runAfter, hf] at hr'
    by_cases hlast : k + 1 = n
    · obtain rfl : k = n - 1 := by omega
      obtain rfl : r = r' := Option.some.inj (hafter.symm.trans hr')
      simp [htext, hlast]
    · cases hprints : r.state.prints? img with
      | none => simp [hlast]
      | some text' =>
        have hlt := Run.printed_lt_of_prints hafter hprints (show k < n - 1 by omega) hr'
        simp
        omega

theorem Watch.AsksAt.runAfter_eq (h : w.AsksAt img n) {k : Nat} (hk : k < n) :
    img.runAfter w k = img.runAfter w.unasking k := by
  unfold Image.runAfter
  cases hf : img.main? with
  | none => rfl
  | some f =>
    refine Run.after_unasked fun j hj r hr => Bool.eq_false_iff.2 fun hasks => ?_
    have hlast := (h.asks_iff (show j < n by omega) (by rw [Image.runAfter, hf]; exact hr)).1 hasks
    omega

theorem Image.exists_fetched {budget : Nat} (h : n < (img.run budget w).run.steps) :
    ∃ r i, img.runAfter w n = some r ∧ img.fetch r.state.pc = .ok i := by
  unfold Image.run at h
  cases hf : img.main? with
  | none =>
    rw [hf] at h
    exact absurd h (Nat.not_lt_zero n)
  | some f =>
    rw [hf] at h
    obtain ⟨r, i, hr, hi⟩ := Run.exists_after_of_steps (r := { state := .start f }) _ (by simpa using h)
    exact ⟨r, i, by rw [Image.runAfter, hf]; exact hr, hi⟩

end Asked

/-- A run that was asked to stop ends without another instruction, by itself if it has left the code. -/
theorem Run.proceed_stopping {img : Image} {w : Watch} {r : Run} (h : r.stopping = true) (limit fuel : Nat) :
    r.proceed img w limit (fuel + 1) =
      ⟨r, if (img.code.size : Int) ≤ r.state.pc then .exit 0 else .stopped⟩ := by
  rw [proceed]
  by_cases hpc : img.code.size ≤ r.state.pc
  · rw [tick, if_pos hpc, if_pos hpc]
  · rw [tick_stopping h (Int.not_le.1 hpc), if_neg hpc]

/-- **A request to stop is precise.** If it comes during the `n`-th instruction, the run is the one that is never asked
up to that instruction, which is carried out as well, and it fetches no other one. It ends the way that instruction ends
it, or with zero if it leaves the code, and otherwise because of the request. -/
theorem stop_precise {img : Image} {w : Watch} {n : Nat} (hn : 1 ≤ n) {budget : Nat}
    (hfetched : n ≤ (img.run budget w.unasking).run.steps) (hasks : w.AsksAt img n) {limit : Nat} (hlimit : n ≤ limit) :
    (∀ k < n, img.runAfter w k = img.runAfter w.unasking k) ∧ (img.run limit w).run.steps = n ∧
    ∃ r i, img.runAfter w.unasking (n - 1) = some r ∧ img.fetch r.state.pc = .ok i ∧
      match execute img i { r.state with pc := r.state.pc + 1 } with
      | .exit v t => img.run limit w = ⟨r.done w i t none, .exit v⟩ ∧ img.run limit w.unasking = img.run limit w
      | .fault e t => img.run limit w = ⟨r.done w i t none, .fault e⟩ ∧ img.run limit w.unasking = img.run limit w
      | .next t out => img.runAfter w.unasking n = some (r.done w i t out) ∧
          img.run limit w = ⟨{ r.done w i t out with stopping := true },
            if (img.code.size : Int) ≤ t.pc then .exit 0 else .stopped⟩ := by
  obtain ⟨m, rfl⟩ : ∃ m, n = m + 1 := ⟨n - 1, by omega⟩
  obtain ⟨r, i, hr, hi⟩ := Image.exists_fetched (n := m) hfetched
  obtain ⟨f, hf, hafter⟩ := Option.bind_eq_some_iff.1 hr
  have hstop : r.stopping = false := Run.stopping_after rfl hafter
  have hsteps : r.steps = m := by simpa using (Run.steps_after hafter).1
  -- What is left of both runs is the last instruction, and what a budget leaves for the time after it.
  have hrun : ∀ w' : Watch, img.runAfter w' m = some r →
      img.run limit w' = r.proceed img w' limit (limit - m - 1 + 1 + 1) := by
    intro w' hw'
    rw [Image.runAfter, hf] at hw'
    rw [Image.run, hf, show limit + 1 = limit - m - 1 + 1 + 1 + m by omega]
    exact Run.proceed_after hw' (show 0 + m ≤ limit by omega) _
  have hasked := hrun w ((hasks.runAfter_eq (Nat.lt_succ_self m)).trans hr)
  have hunasked := hrun w.unasking hr
  have htick := fun w' : Watch => Run.tick_fetched (w := w') hstop (show r.steps < limit by omega) hi
  rw [Run.proceed, htick] at hasked hunasked
  have hdone : ∀ t out, (r.done w i t out).steps = m + 1 := fun t out => congrArg (· + 1) hsteps
  refine ⟨fun k hk => hasks.runAfter_eq hk, ?_⟩
  cases hx : execute img i { r.state with pc := r.state.pc + 1 } with
  | exit v t | fault e t =>
    rw [hx] at hasked hunasked
    refine ⟨?_, r, i, hr, hi, ?_⟩
    · rw [hasked]
      exact hdone t none
    · rw [hx]
      exact ⟨hasked, hunasked.trans hasked.symm⟩
  | next t out =>
    have hout : r.state.prints? img = out := by rw [State.prints?, step_of_fetch hi, hx]
    have hnow : w.asks r out = true := hout ▸ (hasks.asks_iff (Nat.lt_succ_self m) hr).2 rfl
    rw [hx] at hasked
    dsimp only at hasked
    rw [hnow, Run.proceed_stopping rfl] at hasked
    refine ⟨?_, r, i, hr, hi, ?_⟩
    · rw [hasked]
      exact hdone t out
    · rw [hx]
      refine ⟨?_, hasked⟩
      rw [Image.runAfter, hf]
      exact Run.after_snoc rfl hafter hi hx

/-- Prints two numbers and ends with a third one. -/
def twoPrintsImage : Image where
  code := #[⟨.pushInt, some 7⟩, ⟨.printInt, none⟩, ⟨.pushInt, some 8⟩, ⟨.printInt, none⟩, ⟨.pushInt, some 1⟩,
    ⟨.ret, none⟩]
  functions := #[⟨"main", 0, 0, 0⟩]
  strings := []

/-- The run of `twoPrintsImage` before it prints its second number. -/
def beforeSecondPrint : Run :=
  { state := ⟨3, [8], #[], []⟩, steps := 3, printed := ["7"] }

/-- It is asked to stop while it prints its second number, or during the fetch of its last instruction. -/
theorem twoPrints_stopped :
    let printing : Watch := { stopAfterOutputs := some 2 }
    let fetching : Watch := { stopAtStep := some 6 }
    printing.AsksAt twoPrintsImage 4 ∧ fetching.AsksAt twoPrintsImage 6 ∧
      6 ≤ (twoPrintsImage.run 10 {}).run.steps ∧
      twoPrintsImage.run 10 printing = ⟨⟨⟨4, [], #[], []⟩, 4, ["8", "7"], true, []⟩, .stopped⟩ ∧
      (twoPrintsImage.run 10 fetching).run.steps = 6 := by
  intro printing fetching
  have hbefore : twoPrintsImage.runAfter {} 3 = some beforeSecondPrint := rfl
  have hprinting : printing.AsksAt twoPrintsImage 4 := .inr ⟨rfl, beforeSecondPrint, "8", hbefore, rfl, rfl⟩
  have hfetching : fetching.AsksAt twoPrintsImage 6 := .inl ⟨rfl, rfl⟩
  have hsteps : 6 ≤ (twoPrintsImage.run 10 {}).run.steps := by decide
  obtain ⟨-, -, r, i, hr, hi, hstopped⟩ :=
    stop_precise (n := 4) (by decide) (Nat.le_trans (by decide) hsteps) hprinting (show 4 ≤ 10 by decide)
  obtain ⟨-, hlast, -⟩ := stop_precise (n := 6) (by decide) hsteps hfetching (show 6 ≤ 10 by decide)
  obtain rfl : beforeSecondPrint = r := Option.some.inj (hbefore.symm.trans hr)
  obtain rfl : ⟨.printInt, none⟩ = i := Except.ok.inj hi
  exact ⟨hprinting, hfetching, hsteps, hstopped.2, hlast⟩

end Workbench.Machine
