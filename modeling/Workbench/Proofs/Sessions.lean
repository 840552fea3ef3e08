import Workbench.Proofs.Sealed
import Workbench.Runner

/-!
# Sessions of a runner

A session is what happens to one runner: it is asked to run texts and to stop, and its workers take steps, all in any
order. What is asked while a text is printed or an instruction is carried out is asked right after that step, since a
machine looks at requests between its steps only.

`Moves` says what a worker may do next. From it follow what the stages of the workers say about the phase of the runner
and its machine (`Sound`), and what the log of the session has of each worker (`Logged`). Both are kept by every act, so
they hold of every session. Where nothing is asked between the time a worker sets the phase and its end (`Apart`), at
most one worker is at work at a time (`Lone`).
-/

open List
open Function (update update_self update_of_ne)
namespace Workbench.Machine

variable {img : Image} {w : Watch} {limit : Nat} {r : Run}

/-- A run that was asked to stop and is not past the code takes no further step. -/
theorem Run.tick_stopping (hstop : r.stopping = true) (hpc : r.state.pc < img.code.size) :
    r.tick img w limit = .ended ⟨r, .stopped⟩ := by
  rw [tick, if_neg (Int.not_le.2 hpc), if_pos hstop]

end Workbench.Machine

namespace Workbench.Runner

open Machine (Image Run)

/-! ### Stages -/

namespace Stage

/-- The phase of a runner whose last worker has come to a stage. -/
def phase : Stage → Phase
  | waiting _ | made .. | executing .. | ended _ => .running
  | settled result | reported result | gone result => result.phase

def result? : Stage → Option Result
  | ended result | settled result | reported result | gone result => some result
  | _ => none

/-- It has a machine that has not come to an end. -/
def hasMachine : Stage → Bool
  | made .. | executing .. => true
  | _ => false

/-- The worker has compiled its text and has not come to its end. -/
def isInside : Stage → Bool
  | waiting _ | gone _ => false
  | _ => true

/-- The worker has set the phase and has not come to its end. -/
def isClosing : Stage → Bool
  | settled _ | reported _ => true
  | _ => false

end Stage

/-- How a worker may come from one stage to the next, and what is heard then: by a step of its own, or as its machine is
asked to stop. `asked` says whether that has been asked, and `held` whether there is a machine in its place. -/
inductive Moves (asked : Prop) (held : Bool) : Stage → Stage → List Event → Prop
  | rejected {source : String} {e : CompileError Bytecode.EmitError} (h : imageOf source = .error e)
      (hclosed : isUnclosed e = false) : Moves asked held (.waiting source) (.ended (.ofCompileError e)) []
  | compiled {source : String} {img : Image} (h : imageOf source = .ok img) :
      Moves asked held (.waiting source) (.made img false) []
  | started {img : Image} {flag : Bool} {f : Machine.FunctionInfo} (hf : img.main? = some f) :
      Moves asked held (.made img flag) (.executing img { state := .start f, stopping := flag }) []
  | unstarted {img : Image} {flag : Bool} {result : Result}
      (h : img.main? = none ∧ result = .ofEnding 0 (.fault .noMain) ∨ held = false ∧ result = .lost) :
      Moves asked held (.made img flag) (.ended result) []
  | stepped {img : Image} {run : Run} {t : Machine.State} {o : Option String} (h : run.stopping = false)
      (hs : Machine.step img run.state = .next t o) : Moves asked held (.executing img run)
        (.executing img { run with state := t, steps := run.steps + 1, printed := o.toList ++ run.printed })
        (o.toList.map .output)
  | ran {img : Image} {run : Run} {e : Machine.Ending} (h : run.stopping = false ∨ img.code.size ≤ run.state.pc)
      (he : run.state.ending? img = some e) : Moves asked held (.executing img run) (.ended (.ofEnding 0 e)) []
  | stopped {img : Image} {run : Run} (h : run.stopping = true) (hpc : run.state.pc < img.code.size) :
      Moves asked held (.executing img run) (.ended .stopped) []
  | settles {result : Result} : Moves asked held (.ended result) (.settled result) []
  | reports {result : Result} : Moves asked held (.settled result) (.reported result) [.done result]
  | leaves {result : Result} : Moves asked held (.reported result) (.gone result) []
  | askedMade {img : Image} {flag : Bool} (h : asked) : Moves asked held (.made img flag) (.made img true) []
  | askedRun {img : Image} {run : Run} (h : asked) :
      Moves asked held (.executing img run) (.executing img { run with stopping := true }) []

section Moves

variable {asked : Prop} {held : Bool} {st st' : Stage} {events : List Event} {img : Image} {run : Run}

theorem printedSince_output (run : Run) (o : Option String) (t : Machine.State) (n : Nat) :
    printedSince run { run with state := t, steps := n, printed := o.toList ++ run.printed } =
      o.toList.map .output := by
  cases o with
  | none => exact if_neg (Nat.lt_irrefl _)
  | some text => exact if_pos (Nat.lt_succ_self _)

theorem moves_of_executing (h : (Stage.executing img run).next {} none held = some (st', events)) :
    Moves asked held (.executing img run) st' events := by
  rw [Stage.next] at h
  dsimp only [Option.getD_none] at h
  by_cases hrun : run.stopping = false ∨ img.code.size ≤ run.state.pc
  · cases he : run.state.ending? img with
    | some e =>
      have hended : ∃ f, run.tick img {} (run.steps + 1) = .ended f ∧ f.ending = e := by
        rcases hrun with hrun | hpc
        · obtain ⟨f, hf, hending, -⟩ := Run.tick_last hrun (Nat.lt_succ_self _) he
          exact ⟨f, hf, hending⟩
        · rw [Machine.State.ending?, Machine.step, if_pos hpc] at he
          rw [Run.tick, if_pos hpc]
          exact ⟨_, rfl, Option.some.inj he⟩
      obtain ⟨f, hf, rfl⟩ := hended
      rw [hf] at h
      cases h
      exact .ran hrun he
    | none =>
      obtain ⟨t, o, hs⟩ : ∃ t o, Machine.step img run.state = .next t o := by
        unfold Machine.State.ending? at he
        split at he
        · exact ⟨_, _, ‹_›⟩
        all_goals cases he
      have hgoing : run.stopping = false := by
        refine hrun.resolve_right fun hpc => ?_
        rw [Machine.step, if_pos hpc] at hs
        cases hs
      rw [Run.tick_next hgoing (Nat.lt_succ_self _) hs] at h
      dsimp only at h
      rw [printedSince_output] at h
      cases h
      exact .stepped hgoing hs
  · rw [not_or, Bool.not_eq_false, Int.not_le] at hrun
    rw [Run.tick_stopping hrun.1 hrun.2] at h
    cases h
    exact .stopped hrun.1 hrun.2

/-- Every step of a worker is a move. -/
theorem moves_of_next (h : st.next {} none held = some (st', events)) : Moves asked held st st' events := by
  cases st with
  | waiting source =>
    rw [Stage.next] at h
    split at h
    · cases h
      exact .compiled ‹_›
    · split at h
      · cases h
      · cases h
        exact .rejected ‹_› (Bool.eq_false_iff.2 ‹_›)
  | made img flag =>
    rw [Stage.next] at h
    split at h
    · split at h
      · cases h
        exact .started ‹_›
      · cases h
        exact .unstarted (.inl ⟨‹_›, rfl⟩)
    · cases h
      exact .unstarted (.inr ⟨Bool.eq_false_iff.2 ‹_›, rfl⟩)
  | executing img run => exact moves_of_executing h
  | ended result =>
    cases h
    exact .settles
  | settled result =>
    cases h
    exact .reports
  | reported result =>
    cases h
    exact .leaves
  | gone result => cases h

/-- A worker that has set the phase goes on to its end; before that, only setting it changes what it says of it. -/
theorem Moves.phase (h : Moves asked held st st' events) (r : Runner) (i : Nat) :
    (r.moved i st').phase = r.phase ∧ st'.phase = st.phase ∨
      (r.moved i st').phase = st'.phase ∧ st.phase = .running ∧ st'.phase ≠ .running := by
  cases h with
  | @settles result => exact .inr ⟨rfl, rfl, by cases result <;> exact nofun⟩
  | _ => exact .inl ⟨rfl, rfl⟩

theorem Moves.inside (h : Moves asked held st st' events) : st'.isInside = true ∨ ∃ result, st' = .gone result := by
  cases h with
  | leaves => exact .inr ⟨_, rfl⟩
  | _ => exact .inl rfl

theorem Moves.mono {asked' : Prop} (h : Moves asked held st st' events) (hasked : asked → asked') :
    Moves asked' held st st' events := by
  cases h <;> constructor <;> first | assumption | exact hasked ‹_›

/-- The run has come out, and its result stays. -/
theorem Moves.result (h : Moves asked held st st' events) {result : Result} (hr : st.result? = some result) :
    st'.result? = some result := by
  cases h with
  | settles | reports | leaves => exact hr
  | _ => cases hr

end Moves

/-! ### The phase and the machine of a runner -/

/-- The phase of a runner is that of its last worker, and the earlier workers have set it before. The machine in its
place is that of a worker that has not put it away. -/
structure Sound (r : Runner) : Prop where
  idle : r.workers = [] → r.phase = .idle
  last : ∀ i st, r.workers[i]? = some st → i + 1 = r.workers.length → r.phase = st.phase
  earlier : ∀ i st, r.workers[i]? = some st → i + 1 < r.workers.length → st.phase ≠ .running
  held : ∀ i, r.held = some i → ∃ st, r.workers[i]? = some st ∧ st.isInside = true

section Runner

variable {r : Runner} {i j : Nat} {st st' : Stage} {asked : Prop} {held : Bool} {events : List Event} {source : String}

/-- The runner once it has taken a text on. -/
def taken (r : Runner) (source : String) : Runner :=
  { r with phase := .running, workers := r.workers ++ [.waiting source] }

theorem lt_of_getElem? (h : r.workers[i]? = some st) : i < r.workers.length := (List.getElem?_eq_some_iff.1 h).1

/-- A run that has not come out is that of the last worker. -/
theorem Sound.last_of_running (h : Sound r) (hi : r.workers[i]? = some st) (hst : st.phase = .running) :
    i + 1 = r.workers.length ∧ r.phase = .running := by
  have hlt := lt_of_getElem? hi
  have hlast : i + 1 = r.workers.length := by
    by_contra hne
    exact h.earlier i st hi (by omega) hst
  exact ⟨hlast, (h.last i st hi hlast).trans hst⟩

theorem getElem?_taken (h : (r.taken source).workers[i]? = some st) :
    r.workers[i]? = some st ∨ i = r.workers.length ∧ st = .waiting source := by
  rw [taken, getElem?_append] at h
  split at h
  · exact .inl h
  · rw [getElem?_singleton] at h
    split at h
    · cases h
      exact .inr ⟨by omega, rfl⟩
    · cases h

theorem getElem?_moved (h : (r.moved i st').workers[j]? = some st) :
    j = i ∧ st = st' ∨ j ≠ i ∧ r.workers[j]? = some st := by
  change (r.workers.set i st')[j]? = some st at h
  by_cases hj : j = i
  · subst hj
    rw [getElem?_set_self'] at h
    obtain ⟨_, -, rfl⟩ := Option.map_eq_some_iff.1 h
    exact .inl ⟨rfl, rfl⟩
  · rw [getElem?_set_ne (.symm hj)] at h
    exact .inr ⟨hj, h⟩

theorem getElem?_moved_self (h : i < r.workers.length) (st : Stage) : (r.moved i st).workers[i]? = some st :=
  getElem?_set_self h

theorem length_moved (r : Runner) (i : Nat) (st : Stage) : (r.moved i st).workers.length = r.workers.length := length_set

/-- A request to stop changes nothing unless there is a machine in its place that has not come to an end. -/
theorem stop_cases (r : Runner) : r.stop = r ∨ ∃ i st st', r.isRunning = true ∧ r.held = some i ∧
    r.workers[i]? = some st ∧ st.hasMachine = true ∧ Moves True r.held.isSome st st' [] ∧ r.stop = r.moved i st' := by
  unfold stop
  split
  · rename_i i hheld
    split
    · rename_i s hs
      obtain ⟨st, hi, hst⟩ := Option.bind_eq_some_iff.1 hs
      split
      · rename_i hr
        refine .inr ⟨i, st, s, hr, hheld, hi, ?_⟩
        cases st with
        | made => cases hst; exact ⟨rfl, .askedMade trivial, by rw [moved, hheld]⟩
        | executing => cases hst; exact ⟨rfl, .askedRun trivial, rfl⟩
        | _ => cases hst
      · exact .inl rfl
    · exact .inl rfl
  · exact .inl rfl

theorem Sound.taken (h : Sound r) (hr : r.phase ≠ .running) (source : String) : Sound (r.taken source) := by
  have hlength : (r.taken source).workers.length = r.workers.length + 1 := length_append
  refine ⟨fun hnil => ?_, fun i st hi hlast => ?_, fun i st hi hlt => ?_, fun i hi => ?_⟩
  · rw [hnil] at hlength
    cases hlength
  · rcases getElem?_taken hi with hi | ⟨-, rfl⟩
    · have := lt_of_getElem? hi
      omega
    · rfl
  · rcases getElem?_taken hi with hi | ⟨rfl, -⟩
    · exact fun hst => hr (h.last_of_running hi hst).2
    · omega
  · obtain ⟨st, hst, hinside⟩ := h.held i hi
    exact ⟨st, (getElem?_append_left (lt_of_getElem? hst)).trans hst, hinside⟩

/-- A move of a worker keeps the runner sound. -/
theorem Sound.moved (h : Sound r) (hi : r.workers[i]? = some st) (hm : Moves asked held st st' events) :
    Sound (r.moved i st') := by
  have hlt := lt_of_getElem? hi
  have hlength := r.length_moved i st'
  refine ⟨fun hnil => ?_, fun j s hj hlast => ?_, fun j s hj hearly => ?_, fun j hj => ?_⟩
  · rw [hnil] at hlength
    rw [← hlength] at hlt
    cases hlt
  · rw [hlength] at hlast
    rcases getElem?_moved hj with ⟨rfl, rfl⟩ | ⟨hne, hj⟩
    · rcases hm.phase r j with ⟨hphase, hsame⟩ | ⟨hphase, -⟩
      · rw [hphase, hsame, h.last j st hi hlast]
      · exact hphase
    · -- Only the last worker sets the phase.
      rcases hm.phase r i with ⟨hphase, -⟩ | ⟨-, hrunning, -⟩
      · rw [hphase, h.last j s hj hlast]
      · exact absurd hrunning (h.earlier i st hi (by omega))
  · rw [hlength] at hearly
    rcases getElem?_moved hj with ⟨rfl, rfl⟩ | ⟨-, hj⟩
    · rcases hm.phase r j with ⟨-, hsame⟩ | ⟨-, -, hout⟩
      · rw [hsame]
        exact h.earlier j st hi hearly
      · exact hout
    · exact h.earlier j s hj hearly
  · by_cases hne : j = i
    · subst hne
      refine ⟨st', getElem?_moved_self hlt st', hm.inside.resolve_right ?_⟩
      rintro ⟨result, rfl⟩
      cases hj
    · have hheld : r.held = some j := by
        cases st' with
        | made => exact absurd (Option.some.inj hj).symm hne
        | gone => cases hj
        | waiting | executing | ended | settled | reported => exact hj
      obtain ⟨s, hs, hin⟩ := h.held j hheld
      exact ⟨s, (getElem?_set_ne (.symm hne)).trans hs, hin⟩

end Runner

/-! ### Sessions -/

/-- What happens to a runner: it is asked to run a text or to stop, or its `i`-th worker takes a step. -/
inductive Act where
  | run (source : String)
  | stop
  | work (i : Nat)

def Act.isCall : Act → Bool
  | .work _ => false
  | _ => true

/-- What was heard of a worker, with the phase of the runner and the number of its workers then. -/
structure Note where
  event : Event
  phase : Phase
  workers : Nat

/-- A runner and what is known of it: the text of each worker, what was heard of each, and whether the runner was asked
to stop. -/
structure Session where
  runner : Runner := {}
  text : Nat → String := fun _ => ""
  heard : Nat → List Note := fun _ => []
  asked : Bool := false

namespace Session

def note (s : Session) (i : Nat) (r : Runner) (events : List Event) : Nat → List Note :=
  update s.heard i (s.heard i ++ events.map fun e => ⟨e, r.phase, r.workers.length⟩)

def act (s : Session) : Act → Session
  | .run source =>
    let (taken, r) := s.runner.start source
    { s with runner := r, text := if taken then update s.text s.runner.workers.length source else s.text }
  | .stop => { s with runner := s.runner.stop, asked := true }
  | .work i =>
    let (r, events) := s.runner.advance {} none i
    { s with runner := r, heard := s.note i r events }

def goOn (s : Session) (acts : List Act) : Session := acts.foldl act s

/-- The session of a new runner. -/
def after (acts : List Act) : Session := goOn {} acts

/-- Nothing is asked while a worker has set the phase and has not come to its end. -/
def Apart : Session → List Act → Prop
  | _, [] => True
  | s, a :: acts => (a.isCall = true → s.runner.workers.all (!·.isClosing)) ∧ Apart (s.act a) acts

/-- What an act does to a session. -/
inductive Changes (s : Session) : Act → Session → Prop
  | nothing {a : Act} {asked : Bool} (h : s.asked = true → asked = true) : Changes s a { s with asked }
  | taken {source : String} (h : s.runner.phase ≠ .running) : Changes s (.run source)
      { s with runner := s.runner.taken source, text := update s.text s.runner.workers.length source }
  | moved {a : Act} {i : Nat} {st st' : Stage} {events : List Event} {asked : Bool} (h : s.asked = true → asked = true)
      (hi : s.runner.workers[i]? = some st) (hm : Moves (asked = true) s.runner.held.isSome st st' events) :
      Changes s a ⟨s.runner.moved i st', s.text, s.note i (s.runner.moved i st') events, asked⟩

theorem note_nil (s : Session) (i : Nat) (r : Runner) : s.note i r [] = s.heard := by
  rw [note, map_nil, append_nil, Function.update_eq_self]

theorem act_run_of_running {s : Session} (h : s.runner.phase = .running) (source : String) : s.act (.run source) = s := by
  simp [act, start, isRunning, h]

theorem changes_act (s : Session) (a : Act) : Changes s a (s.act a) := by
  cases a with
  | run source =>
    by_cases hr : s.runner.phase = .running
    · rw [act_run_of_running hr]
      exact .nothing id
    · have hact : s.act (.run source) =
          { s with runner := s.runner.taken source, text := update s.text s.runner.workers.length source } := by
        simp [act, start, isRunning, hr, Runner.taken]
      rw [hact]
      exact .taken hr
  | stop =>
    rw [act]
    rcases stop_cases s.runner with heq | ⟨i, st, st', -, -, hi, -, hm, heq⟩
    · rw [heq]
      exact .nothing fun _ => rfl
    · rw [heq, ← s.note_nil i (s.runner.moved i st')]
      exact .moved (fun _ => rfl) hi (hm.mono fun _ => rfl)
  | work i =>
    rw [act, advance]
    cases h : s.runner.workers[i]?.bind (Stage.next {} none s.runner.held.isSome) with
    | none =>
      simp only [note_nil]
      exact .nothing id
    | some next =>
      obtain ⟨st, hi, hnext⟩ := Option.bind_eq_some_iff.1 h
      exact .moved id hi (moves_of_next hnext)

/-- What is kept by every act holds of every session. -/
theorem after_induction {P : Session → Prop} (start : P {}) (act : ∀ s a, P s → P (s.act a)) (acts : List Act) :
    P (after acts) := by
  have hgo : ∀ s, P s → P (goOn s acts) := by
    induction acts with
    | nil => exact fun _ h => h
    | cons a acts ih => exact fun s h => ih _ (act s a h)
  exact hgo {} start

theorem after_append (acts more : List Act) : after (acts ++ more) = (after acts).goOn more := foldl_append ..

end Session

/-! ### What is known of a worker -/

/-- The worker of such a text does not come to the end of compiling it. -/
def Unclosed (source : String) : Prop := ∃ e, imageOf source = .error e ∧ isUnclosed e = true

/-- The program of such a text does not come to an end. -/
def Endless (source : String) : Prop :=
  ∃ img, imageOf source = .ok img ∧ img.main?.isSome = true ∧ ∀ s, img.Reaches s → s.ending? img = none

/-- How a run of the text may come out, where `asked` says whether the runner has been asked to stop. -/
structure Outcome (source : String) (asked : Prop) (result : Result) : Prop where
  closed : ¬ Unclosed source
  endless : Endless source → result = .stopped ∨ result = .lost
  stopped : result = .stopped → asked

/-- What is known of a worker with the given text that has come to a stage, and of what was heard of it. -/
def Stage.Told (source : String) (asked : Prop) (heard : List Event) : Stage → Prop
  | .waiting text => text = source ∧ heard = []
  | .made img flag => imageOf source = .ok img ∧ heard = [] ∧ (flag = true → asked)
  | .executing img run => imageOf source = .ok img ∧ img.Reaches run.state ∧ heard = run.out.map .output ∧
      (run.stopping = true → asked)
  | .ended result | .settled result => Outcome source asked result ∧ ∃ texts : List String, heard = texts.map .output
  | .reported result | .gone result =>
    Outcome source asked result ∧ ∃ texts : List String, heard = texts.map .output ++ [.done result]

section Told

variable {source : String} {asked asked' : Prop} {heard events : List Event} {st st' : Stage} {held : Bool}

theorem Outcome.mono {result : Result} (h : Outcome source asked result) (hasked : asked → asked') :
    Outcome source asked' result := ⟨h.closed, h.endless, fun hr => hasked (h.stopped hr)⟩

theorem Stage.Told.mono (h : st.Told source asked heard) (hasked : asked → asked') : st.Told source asked' heard := by
  cases st with
  | waiting => exact h
  | made => exact ⟨h.1, h.2.1, fun hf => hasked (h.2.2 hf)⟩
  | executing => exact ⟨h.1, h.2.1, h.2.2.1, fun hf => hasked (h.2.2.2 hf)⟩
  | ended | settled | reported | gone => exact ⟨h.1.mono hasked, h.2⟩

/-- A state that a compiled program comes to is in its code. -/
theorem pc_lt_of_reaches {img : Image} {s : Machine.State} (himg : imageOf source = .ok img)
    (hreach : img.Reaches s) : s.pc < img.code.size := by
  obtain ⟨prog, obj, hprog, hobj, rfl⟩ := Bytecode.imageOf_eq_ok.1 himg
  have hsealed := Bytecode.sealed_of_emit (Bytecode.accepted_of_source hprog).entered.nodup
    (Bytecode.valued_of_source hprog) hobj
  obtain ⟨ks, hactive⟩ := Machine.Image.reaches_iff_active.1 hreach
  obtain ⟨k, f, i, -, -, -, hi, -⟩ := hsealed.fetch hactive
  exact Machine.Image.lt_of_fetch hi

theorem not_unclosed {img : Image} (h : imageOf source = .ok img) : ¬ Unclosed source := by
  rintro ⟨e, he, -⟩
  rw [h] at he
  cases he

/-- Each move of a worker keeps what its stage tells. -/
theorem Stage.Told.moves (h : st.Told source asked heard) (hm : Moves asked held st st' events) :
    st'.Told source asked (heard ++ events) := by
  cases hm with
  | @rejected text e he hclosed =>
    obtain ⟨rfl, rfl⟩ := h
    refine ⟨⟨?_, ?_, ?_⟩, [], rfl⟩
    · rintro ⟨e', he', hopen⟩
      obtain rfl := Except.error.inj (he.symm.trans he')
      rw [hclosed] at hopen
      cases hopen
    · rintro ⟨img, himg, -⟩
      rw [he] at himg
      cases himg
    · intro hr
      cases e with
      | source e => rcases e with e | e | e <;> simp only [Result.ofCompileError] at hr <;> (try split at hr) <;> cases hr
      | emit e => cases hr
  | compiled himg =>
    obtain ⟨rfl, rfl⟩ := h
    exact ⟨himg, rfl, nofun⟩
  | started hf =>
    obtain ⟨himg, rfl, hasked⟩ := h
    exact ⟨himg, .start hf, rfl, hasked⟩
  | @unstarted img flag result hr =>
    obtain ⟨himg, rfl, hasked⟩ := h
    refine ⟨⟨not_unclosed himg, ?_, ?_⟩, [], rfl⟩
    · rintro ⟨img', himg', hmain, -⟩
      obtain rfl := Except.ok.inj (himg.symm.trans himg')
      rcases hr with ⟨hnone, -⟩ | ⟨-, hr⟩
      · rw [hnone] at hmain
        cases hmain
      · exact .inr hr
    · rcases hr with ⟨-, rfl⟩ | ⟨-, rfl⟩ <;> exact nofun
  | @stepped img run t o hgoing hs =>
    obtain ⟨himg, hreach, rfl, hasked⟩ := h
    refine ⟨himg, hreach.next hs, ?_, hasked⟩
    cases o with
    | none => exact append_nil _
    | some text => simp [Run.out]
  | @ran img run e _ he =>
    obtain ⟨himg, hreach, rfl, -⟩ := h
    refine ⟨⟨not_unclosed himg, ?_, fun hr => ?_⟩, run.out, ?_⟩
    · rintro ⟨img', himg', -, hall⟩
      obtain rfl := Except.ok.inj (himg.symm.trans himg')
      rw [hall _ hreach] at he
      cases he
    · have hne : e ≠ .stopped := by
        rintro rfl
        unfold Machine.State.ending? at he
        split at he <;> cases he
      cases e with
      | stopped => exact absurd rfl hne
      | exit | fault | stepLimit => cases hr
    · exact append_nil _
  | @stopped img run hstop =>
    obtain ⟨himg, -, rfl, hasked⟩ := h
    exact ⟨⟨not_unclosed himg, fun _ => .inl rfl, fun _ => hasked hstop⟩, run.out, append_nil _⟩
  | settles =>
    obtain ⟨hout, texts, rfl⟩ := h
    exact ⟨hout, texts, append_nil _⟩
  | reports =>
    obtain ⟨hout, texts, rfl⟩ := h
    exact ⟨hout, texts, rfl⟩
  | leaves =>
    obtain ⟨hout, texts, rfl⟩ := h
    exact ⟨hout, texts, append_nil _⟩
  | askedMade hasked =>
    obtain ⟨himg, rfl, -⟩ := h
    exact ⟨himg, rfl, fun _ => hasked⟩
  | askedRun hasked =>
    obtain ⟨himg, hreach, rfl, -⟩ := h
    exact ⟨himg, hreach, append_nil _, fun _ => hasked⟩

end Told

/-- What is known of the workers fits the runner: of each worker it fits its stage, and nothing was heard of a worker
that there is not. A result is reported in its own phase, unless another text was taken on before. -/
structure Logged (s : Session) : Prop where
  sound : Sound s.runner
  told : ∀ (i : Nat) (st : Stage), s.runner.workers[i]? = some st →
    st.Told (s.text i) (s.asked = true) ((s.heard i).map Note.event)
  silent : ∀ i, s.runner.workers.length ≤ i → s.heard i = []
  reported : ∀ i, ∀ n ∈ s.heard i, ∀ result, n.event = .done result → n.phase = result.phase ∨ i + 1 < n.workers

/-- Only the last worker is at work. The machine in its place is that of a worker that has one, and each worker was the
last one when something was heard of it. -/
structure Lone (s : Session) : Prop where
  gone : ∀ i st, s.runner.workers[i]? = some st → i + 1 < s.runner.workers.length → ∃ result, st = .gone result
  held : ∀ i st, s.runner.workers[i]? = some st → st.hasMachine = true → s.runner.held = some i
  heard : ∀ i, ∀ n ∈ s.heard i, n.workers = i + 1

section Logged

variable {s s' : Session} {a : Act} {i j : Nat} {st : Stage}

theorem Session.note_self (s : Session) (i : Nat) (r : Runner) (events : List Event) :
    s.note i r events i = s.heard i ++ events.map fun e => ⟨e, r.phase, r.workers.length⟩ := update_self ..

theorem Session.note_of_ne (h : j ≠ i) (r : Runner) (events : List Event) : s.note i r events j = s.heard j :=
  update_of_ne h ..

theorem mem_note {r : Runner} {events : List Event} {n : Note} (h : n ∈ s.note i r events j) :
    n ∈ s.heard j ∨ j = i ∧ ∃ e ∈ events, n = ⟨e, r.phase, r.workers.length⟩ := by
  by_cases hj : j = i
  · subst hj
    rw [Session.note_self, mem_append, mem_map] at h
    exact h.imp_right fun ⟨e, he, hn⟩ => ⟨rfl, e, he, hn.symm⟩
  · rw [Session.note_of_ne hj] at h
    exact .inl h

/-- Every act keeps what is known of the workers. -/
theorem Logged.changes (h : Logged s) (hc : s.Changes a s') : Logged s' := by
  cases hc with
  | nothing hasked => exact ⟨h.sound, fun i st hi => (h.told i st hi).mono hasked, h.silent, h.reported⟩
  | @taken source hr =>
    refine ⟨h.sound.taken hr source, fun i st hi => ?_, fun i hi => h.silent i ?_, h.reported⟩
    · dsimp only
      rcases getElem?_taken hi with hi | ⟨rfl, rfl⟩
      · rw [update_of_ne (Nat.ne_of_lt (lt_of_getElem? hi))]
        exact h.told i st hi
      · rw [update_self, h.silent _ le_rfl]
        exact ⟨rfl, rfl⟩
    · exact Nat.le_of_succ_le (length_append.symm.trans_le hi)
  | @moved _ i st st' events asked hasked hi hm =>
    refine ⟨h.sound.moved hi hm, fun j t hj => ?_, fun j hj => ?_, fun j n hn result hresult => ?_⟩
    · dsimp only
      rcases getElem?_moved hj with ⟨rfl, rfl⟩ | ⟨hne, hj⟩
      · rw [Session.note_self, map_append, map_map]
        exact (map_id events).symm ▸ ((h.told j st hi).mono hasked).moves hm
      · rw [Session.note_of_ne hne]
        exact (h.told j t hj).mono hasked
    · have hlt := lt_of_getElem? hi
      rw [length_moved] at hj
      exact (Session.note_of_ne (by omega) ..).trans (h.silent j hj)
    · rcases mem_note hn with hn | ⟨rfl, e, he, rfl⟩
      · exact h.reported j n hn result hresult
      · cases hm with
        | reports =>
          -- The phase is its own if it is that of the last worker.
          cases mem_singleton.1 he
          cases hresult
          have hlt := lt_of_getElem? hi
          by_cases hlast : j + 1 = s.runner.workers.length
          · exact .inl (h.sound.last j _ hi hlast)
          · exact .inr (Nat.lt_of_lt_of_eq (by omega) (length_moved ..).symm)
        | @stepped _ _ _ o =>
          obtain ⟨text, -, rfl⟩ := mem_map.1 he
          cases hresult
        | _ => cases he

theorem logged_after (acts : List Act) : Logged (Session.after acts) :=
  Session.after_induction ⟨⟨fun _ => rfl, by simp, by simp, nofun⟩, by simp, fun _ _ => rfl, nofun⟩
    (fun s a h => h.changes (s.changes_act a)) acts

/-- An act leaves the last worker the only one at work, if no worker is closing when a call comes. -/
theorem Lone.changes (h : Lone s) (hs : Logged s) (hc : s.Changes a s')
    (hopen : a.isCall = true → s.runner.workers.all (!·.isClosing)) : Lone s' := by
  cases hc with
  | nothing => exact ⟨h.gone, h.held, h.heard⟩
  | @taken source hr =>
    have hgone : ∀ (i : Nat) st, s.runner.workers[i]? = some st → ∃ result, st = .gone result := by
      intro i st hi
      have hout : st.phase ≠ .running := fun hst => hr (hs.sound.last_of_running hi hst).2
      have hclosing := all_eq_true.1 (hopen rfl) st (mem_of_getElem? hi)
      cases st with
      | gone result => exact ⟨result, rfl⟩
      | settled | reported => cases hclosing
      | waiting | made | executing | ended => exact absurd rfl hout
    refine ⟨fun i st hi hlt => ?_, fun i st hi hm => ?_, h.heard⟩
    · rcases getElem?_taken hi with hi | ⟨rfl, -⟩
      · exact hgone i st hi
      · exact absurd (length_append.symm.trans_gt hlt) (Nat.lt_irrefl _)
    · rcases getElem?_taken hi with hi | ⟨-, rfl⟩
      · obtain ⟨result, rfl⟩ := hgone i st hi
        cases hm
      · cases hm
  | @moved _ i st st' events asked _ hi hm =>
    have hlt := lt_of_getElem? hi
    have hlength := s.runner.length_moved i st'
    have hlast : i + 1 = s.runner.workers.length := by
      by_contra hne
      obtain ⟨result, rfl⟩ := h.gone i st hi (by omega)
      cases hm
    have hgone : ∀ j t, (s.runner.moved i st').workers[j]? = some t → j ≠ i → ∃ result, t = .gone result := by
      intro j t hj hne
      obtain ⟨rfl, -⟩ | ⟨-, hj⟩ := getElem?_moved hj
      · exact absurd rfl hne
      · have := lt_of_getElem? hj
        exact h.gone j t hj (by omega)
    refine ⟨fun j t hj hlt => hgone j t hj (by dsimp only at hlt; omega), fun j t hj ht => ?_, fun j n hn => ?_⟩
    · rcases getElem?_moved hj with ⟨rfl, rfl⟩ | ⟨hne, -⟩
      · cases hm with
        | compiled | askedMade => rfl
        | started | stepped | askedRun => exact h.held j _ hi rfl
        | _ => cases ht
      · obtain ⟨result, rfl⟩ := hgone j t hj hne
        cases ht
    · rcases mem_note hn with hn | ⟨rfl, e, -, rfl⟩
      · exact h.heard j n hn
      · exact hlength.trans hlast.symm

theorem Session.apart_append (acts more : List Act) :
    ∀ s, Apart s (acts ++ more) ↔ Apart s acts ∧ Apart (s.goOn acts) more := by
  induction acts with
  | nil => exact fun s => ⟨fun h => ⟨trivial, h⟩, And.right⟩
  | cons a acts ih => exact fun s => (and_congr_right fun _ => ih _).trans and_assoc.symm

theorem lone_after {acts : List Act} (h : Session.Apart {} acts) : Lone (Session.after acts) := by
  induction acts using reverseRecOn with
  | nil => exact ⟨nofun, nofun, nofun⟩
  | append_singleton acts a ih =>
    obtain ⟨hacts, ha, -⟩ := (Session.apart_append acts [a] {}).1 h
    rw [Session.after_append]
    exact (ih hacts).changes (logged_after acts) (Session.changes_act _ a) ha

/-- An act leaves a worker where it is, or the worker moves. -/
theorem Session.getElem?_act (s : Session) (a : Act) (hi : s.runner.workers[i]? = some st) :
    ∃ st', (s.act a).runner.workers[i]? = some st' ∧
      (st' = st ∨ ∃ events, Moves True s.runner.held.isSome st st' events) := by
  have hlt := lt_of_getElem? hi
  generalize hs' : s.act a = s'
  cases hs' ▸ s.changes_act a with
  | nothing => exact ⟨st, hi, .inl rfl⟩
  | taken => exact ⟨st, (getElem?_append_left hlt).trans hi, .inl rfl⟩
  | @moved _ j t t' events _ _ hj hm =>
    by_cases hij : i = j
    · subst hij
      obtain rfl := Option.some.inj (hi.symm.trans hj)
      exact ⟨t', getElem?_moved_self hlt _, .inr ⟨events, hm.mono fun _ => trivial⟩⟩
    · exact ⟨st, (getElem?_set_ne (.symm hij)).trans hi, .inl rfl⟩

/-- A run that has come out keeps its result. -/
theorem getElem?_result {result : Result} (hr : st.result? = some result) (acts : List Act)
    (hi : s.runner.workers[i]? = some st) :
    ∃ st', (s.goOn acts).runner.workers[i]? = some st' ∧ st'.result? = some result := by
  induction acts generalizing s st with
  | nil => exact ⟨st, hi, hr⟩
  | cons a acts ih =>
    obtain ⟨st', hi', rfl | ⟨events, hm⟩⟩ := s.getElem?_act a hi
    · exact ih hr hi'
    · exact ih (hm.result hr) hi'

end Logged

/-! ### Workers that come to their end -/

/-- From the state the machine comes to an end in at most `n` steps. -/
def Halts (img : Image) (n : Nat) (s : Machine.State) : Prop :=
  ∃ k out t e, Machine.Runs img 0 k out s t ∧ t.ending? img = some e ∧ k ≤ n

/-- A worker at this stage comes to its end in at most `n` steps. -/
def Stage.Within (n : Nat) : Stage → Prop
  | waiting source => 6 ≤ n ∧ ¬ Unclosed source ∧
      ∀ img f, imageOf source = .ok img → img.main? = some f → Halts img (n - 6) (.start f)
  | made img asked => 5 ≤ n ∧ (asked = true ∨ ∀ f, img.main? = some f → Halts img (n - 5) (.start f))
  | executing img run => 4 ≤ n ∧ (run.stopping = true ∨ Halts img (n - 4) run.state)
  | ended _ => 3 ≤ n
  | settled _ => 2 ≤ n
  | reported _ => 1 ≤ n
  | gone _ => True

section Within

variable {s : Session} {i n : Nat} {st st' : Stage} {held : Bool} {events : List Event}

theorem Stage.Within.moves (h : st.Within (n + 1)) (hm : Moves False held st st' events) : st'.Within n := by
  cases hm with
  | compiled himg =>
    obtain ⟨hn, -, hhalts⟩ := h
    exact ⟨by omega, .inr fun f => Nat.add_sub_add_right n 1 5 ▸ hhalts _ f himg⟩
  | started hf =>
    obtain ⟨hn, hhalts⟩ := h
    exact ⟨by omega, hhalts.imp_right fun hhalts => Nat.add_sub_add_right n 1 4 ▸ hhalts _ hf⟩
  | @stepped img run t o hgoing hs =>
    obtain ⟨hn, hstop | ⟨k, out, u, e, hruns, he, hk⟩⟩ := h
    · rw [hgoing] at hstop
      cases hstop
    · cases hruns with
      | refl =>
        rw [Machine.State.ending?, hs] at he
        cases he
      | @head k _ _ _ _ _ _ hs' hrest =>
        rw [hs] at hs'
        cases hs'
        exact ⟨by omega, .inr ⟨k, _, u, e, hrest, he, by omega⟩⟩
  | rejected | unstarted | ran | stopped =>
    have := h.1
    exact show 3 ≤ n by omega
  | settles | reports => exact Nat.le_of_succ_le_succ h
  | leaves => trivial
  | askedMade hasked | askedRun hasked => exact hasked.elim

/-- A worker that is not at its end takes a step. -/
theorem Stage.Within.exists_next (h : st.Within n) (hgone : st.isGone = false) (held : Bool) :
    ∃ st' events, st.next {} none held = some (st', events) := by
  cases st with
  | waiting source =>
    rw [Stage.next]
    cases himg : imageOf source with
    | ok img => exact ⟨_, _, rfl⟩
    | error e => exact ⟨_, _, if_neg fun hopen => h.2.1 ⟨e, himg, hopen⟩⟩
  | made | executing =>
    rw [Stage.next]
    repeat' split
    all_goals exact ⟨_, _, rfl⟩
  | ended | settled | reported => exact ⟨_, _, rfl⟩
  | gone => cases hgone

theorem gone_of_within (hi : s.runner.workers[i]? = some st) (h : st.Within n) :
    ∃ result, (s.goOn (replicate n (.work i))).runner.workers[i]? = some (.gone result) := by
  induction n generalizing s st with
  | zero =>
    cases st with
    | gone result => exact ⟨result, hi⟩
    | waiting | made | executing => cases h.1
    | ended | settled | reported => cases h
  | succ n ih =>
    cases hgone : st.isGone with
    | true =>
      cases st with
      | gone =>
        obtain ⟨st', hi', rfl | ⟨_, hm⟩⟩ := s.getElem?_act (.work i) hi
        · exact ih hi' trivial
        · cases hm
      | _ => cases hgone
    | false =>
      obtain ⟨st', events, hnext⟩ := h.exists_next hgone s.runner.held.isSome
      refine ih ?_ (h.moves (moves_of_next hnext))
      have hact : (s.runner.advance {} none i).1 = s.runner.moved i st' := by rw [advance, hi, Option.bind_some, hnext]
      exact (congrArg (·.workers[i]?) hact).trans (getElem?_moved_self (lt_of_getElem? hi) _)

theorem halts_of_not_endless {source : String} {img : Image} {t : Machine.State} (hends : ¬ Endless source)
    (himg : imageOf source = .ok img) (ht : img.Reaches t) : ∃ n, Halts img n t := by
  obtain ⟨f, m, out, hf, hruns⟩ := ht
  obtain ⟨u, e, hu, he⟩ : ∃ u e, img.Reaches u ∧ u.ending? img = some e := by
    by_contra hno
    refine hends ⟨img, himg, by rw [hf]; rfl, fun u hu => ?_⟩
    cases he : u.ending? img with
    | none => rfl
    | some e => exact absurd ⟨u, e, hu, he⟩ hno
  obtain ⟨f', m', out', hf', hruns'⟩ := hu
  obtain rfl := Option.some.inj (hf.symm.trans hf')
  obtain ⟨more, hrest, -⟩ := hruns.split hruns' (hruns'.le_of_ending he hruns)
  exact ⟨_, _, more, u, e, hrest, he, le_rfl⟩

/-- A worker comes to its end, unless its text is not closed or its program endless. -/
theorem Stage.Told.within {source : String} {asked : Prop} {heard : List Event} (h : st.Told source asked heard)
    (hclosed : ¬ Unclosed source) (hends : ¬ Endless source) : ∃ n, st.Within n := by
  -- How long the program takes from its start, if it has one.
  have hmain : ∀ img, imageOf source = .ok img → ∃ n, ∀ f, img.main? = some f → Halts img n (.start f) := by
    intro img himg
    cases hf : img.main? with
    | none => exact ⟨0, nofun⟩
    | some f =>
      obtain ⟨n, hn⟩ := halts_of_not_endless hends himg (.start hf)
      exact ⟨n, fun f' hf' => Option.some.inj hf' ▸ hn⟩
  cases st with
  | waiting text =>
    obtain ⟨rfl, -⟩ := h
    cases himg : imageOf text with
    | error e => exact ⟨6, le_rfl, hclosed, fun img f h => by rw [himg] at h; cases h⟩
    | ok img =>
      obtain ⟨n, hn⟩ := hmain img himg
      exact ⟨n + 6, by omega, hclosed, fun img' f h hf => Except.ok.inj (himg.symm.trans h) ▸ hn f (by
        rw [Except.ok.inj (himg.symm.trans h), hf])⟩
  | made =>
    obtain ⟨n, hn⟩ := hmain _ h.1
    exact ⟨n + 5, by omega, .inr hn⟩
  | executing =>
    obtain ⟨n, hn⟩ := halts_of_not_endless hends h.1 h.2.1
    exact ⟨n + 4, by omega, .inr hn⟩
  | ended | settled | reported | gone => exact ⟨3, by simp [Stage.Within]⟩

end Within

/-- What has become of a worker that had a machine which was then asked to stop: it takes no instruction, and the run
comes out as stopped. A machine that was not started may come out otherwise, if there is no `main`, or if another worker
has put it away (`lost`). -/
inductive Heeds (lost : Prop) : Stage → Stage → Prop
  | made {img : Image} {flag : Bool} (hpc : ∀ f, img.main? = some f → (Machine.State.start f).pc < img.code.size) :
      Heeds lost (.made img flag) (.made img true)
  | started {img : Image} {flag : Bool} {f : Machine.FunctionInfo} (hf : img.main? = some f)
      (hpc : (Machine.State.start f).pc < img.code.size) :
      Heeds lost (.made img flag) (.executing img { state := .start f, stopping := true })
  | executing {img : Image} {run : Run} (hpc : run.state.pc < img.code.size) :
      Heeds lost (.executing img run) (.executing img { run with stopping := true })
  | stopped {st st' : Stage} (h : st'.result? = some .stopped) : Heeds lost st st'
  | unstarted {img : Image} {flag : Bool} {st' : Stage} {result : Result} (hr : st'.result? = some result)
      (h : img.main? = none ∧ result = .ofEnding 0 (.fault .noMain) ∨ lost ∧ result = .lost) :
      Heeds lost (.made img flag) st'

section Heeds

variable {lost lost' : Prop} {s : Session} {i : Nat} {st st' st'' : Stage} {held : Bool} {events : List Event}

theorem Heeds.mono (h : Heeds lost st st') (hl : lost → lost') : Heeds lost' st st' := by
  cases h with
  | made hpc => exact .made hpc
  | started hf hpc => exact .started hf hpc
  | executing hpc => exact .executing hpc
  | stopped h => exact .stopped h
  | unstarted hr h => exact .unstarted hr (h.imp_right fun h => ⟨hl h.1, h.2⟩)

theorem Heeds.moves (h : Heeds lost st st') (hm : Moves True held st' st'' events)
    (hlost : st'.hasMachine = true → held = false → lost) : Heeds lost st st'' := by
  cases h with
  | made hpc =>
    cases hm with
    | started hf => exact .started hf (hpc _ hf)
    | unstarted h => exact .unstarted rfl (h.imp_right fun h => ⟨hlost rfl h.1, h.2⟩)
    | askedMade => exact .made hpc
  | started hf hpc =>
    cases hm with
    | stepped h => cases h
    | ran h => exact absurd (h.resolve_left nofun) (Int.not_le.2 hpc)
    | stopped => exact .stopped rfl
    | askedRun => exact .started hf hpc
  | executing hpc =>
    cases hm with
    | stepped h => cases h
    | ran h => exact absurd (h.resolve_left nofun) (Int.not_le.2 hpc)
    | stopped => exact .stopped rfl
    | askedRun => exact .executing hpc
  | stopped hr => exact .stopped (hm.result hr)
  | unstarted hr h => exact .unstarted (hm.result hr) h

/-- Such a worker is at its end after five more steps. -/
theorem Heeds.within (h : Heeds lost st st') : st'.Within 5 := by
  cases h with
  | made | started | executing => exact ⟨by omega, .inl rfl⟩
  | stopped hr | unstarted hr =>
    cases st' with
    | ended | settled | reported | gone => simp [Stage.Within]
    | _ => cases hr

/-- A machine that is asked to stop in its place heeds it. -/
theorem heeds_stop (h : Logged s) (hheld : s.runner.held = some i) (hi : s.runner.workers[i]? = some st)
    (hst : st.hasMachine = true) : ∃ st', (s.act .stop).runner.workers[i]? = some st' ∧ Heeds lost st st' := by
  have htold := h.told i st hi
  have hrunning : st.phase = .running := by cases st <;> first | rfl | cases hst
  have hr : s.runner.isRunning = true := beq_iff_eq.2 (h.sound.last_of_running hi hrunning).2
  have hstop : ∀ t, st.asked? = some t → (s.act .stop).runner.workers[i]? = some t := by
    intro t ht
    change s.runner.stop.workers[i]? = _
    simp only [stop, hheld, hi, Option.bind_some, ht, hr]
    exact getElem?_set_self (lt_of_getElem? hi)
  cases st with
  | made => exact ⟨_, hstop _ rfl, .made fun f hf => pc_lt_of_reaches htold.1 (.start hf)⟩
  | executing => exact ⟨_, hstop _ rfl, .executing (pc_lt_of_reaches htold.1 htold.2.1)⟩
  | _ => cases hst

open Session in
theorem heeds_after {acts : List Act} (later : List Act) (hheld : (after acts).runner.held = some i)
    (hi : (after acts).runner.workers[i]? = some st) (hst : st.hasMachine = true) :
    ∃ st', (after (acts ++ .stop :: later)).runner.workers[i]? = some st' ∧
      Heeds (¬ Apart {} (acts ++ .stop :: later)) st st' := by
  induction later using reverseRecOn with
  | nil =>
    rw [after_append]
    exact heeds_stop (logged_after acts) hheld hi hst
  | append_singleton later a ih =>
    obtain ⟨st', hi', hheeds⟩ := ih
    rw [← cons_append, ← append_assoc]
    generalize acts ++ .stop :: later = before at hi' hheeds ⊢
    have hkept := hheeds.mono fun h (hall : Apart {} (before ++ [a])) => h ((apart_append ..).1 hall).1
    rw [after_append]
    obtain ⟨st'', hi'', rfl | ⟨events, hm⟩⟩ := (after before).getElem?_act a hi'
    · exact ⟨st'', hi'', hkept⟩
    · refine ⟨st'', hi'', hkept.moves hm fun hmachine hnone hall => ?_⟩
      -- If the workers are one after the other, the machine of this one is still in its place.
      rw [(lone_after ((apart_append ..).1 hall).1).held i st' hi' hmachine] at hnone
      cases hnone

theorem Session.apart_works (n i : Nat) : ∀ s, Apart s (replicate n (.work i)) := by
  induction n with
  | zero => exact fun _ => trivial
  | succ n ih => exact fun s => ⟨nofun, ih _⟩

end Heeds

/-- **Requests to stop.** A request changes nothing unless the runner is running and there is a machine in its place
that has not come to an end, so a request that comes before the worker has made its machine is lost. Otherwise it is
kept whatever happens later: the worker takes no further instruction, and in five more steps of its own it is at its end
and the run has come out as stopped (`Heeds`). If the calls fall between the bodies of workers or during their output,
the machine of a worker that has one is in the place; if they do not, the end of an earlier worker may have emptied it.
A run that has come out keeps its result. -/
theorem stop_heeded (acts later : List Act) :
    let s := Session.after acts
    let s' := Session.after (acts ++ .stop :: later)
    let lost := ¬ Session.Apart {} (acts ++ .stop :: later)
    ((s.runner.isRunning = false ∨
      ∀ i st, s.runner.held = some i → s.runner.workers[i]? = some st → st.hasMachine = false) →
        s.runner.stop = s.runner) ∧
    (∀ i st, s.runner.held = some i → s.runner.workers[i]? = some st → st.hasMachine = true →
      (∃ st', s'.runner.workers[i]? = some st' ∧ Heeds lost st st') ∧
      ∃ result, (s'.goOn (replicate 5 (.work i))).runner.workers[i]? = some (.gone result) ∧
        Heeds lost st (.gone result)) ∧
    (Session.Apart {} acts → ∀ i st, s.runner.workers[i]? = some st → st.hasMachine = true → s.runner.held = some i) ∧
    ∀ (i : Nat) (st : Stage) result, s.runner.workers[i]? = some st → st.result? = some result →
      ∃ st' : Stage, s'.runner.workers[i]? = some st' ∧ st'.result? = some result := by
  intro s s' lost
  refine ⟨fun h => ?_, fun i st hheld hi hst => ?_, fun h => (lone_after h).held, fun i st result hi hr => ?_⟩
  · obtain heq | ⟨i, st, -, hr, hheld, hi, hst, -⟩ := stop_cases s.runner
    · exact heq
    · rcases h with h | h
      · rw [hr] at h
        cases h
      · rw [h i st hheld hi] at hst
        cases hst
  · obtain ⟨st', hi', hheeds⟩ := heeds_after later hheld hi hst
    refine ⟨⟨st', hi', hheeds⟩, ?_⟩
    obtain ⟨result, hgone⟩ := gone_of_within hi' hheeds.within
    obtain ⟨st'', hi'', hheeds''⟩ := heeds_after (later ++ replicate 5 (.work i)) hheld hi hst
    rw [← cons_append, ← append_assoc] at hi'' hheeds''
    have hsame : st'' = .gone result := by
      rw [Session.after_append] at hi''
      exact Option.some.inj (hi''.symm.trans hgone)
    refine ⟨result, hgone, (hsame ▸ hheeds'').mono fun hnot happart => hnot ?_⟩
    exact (Session.apart_append ..).2 ⟨happart, Session.apart_works 5 i _⟩
  · rw [show s' = s.goOn (.stop :: later) from Session.after_append ..]
    exact getElem?_result hr _ hi

/-- A program that prints for ever. -/
def endlessOnes : String := "fn main(): int \x7b while (true) \x7b print(1); \x7d return 0; \x7d"

/-- It is asked to stop before it prints its first text, and another run is refused. -/
theorem endlessOnes_stopped :
    let acts := .run endlessOnes :: replicate 4 (.work 0)
    (Session.after acts).runner.workers[0]?.any Stage.hasMachine = true ∧
      ((Session.after (acts ++ [.stop, .run endlessOnes])).goOn (replicate 5 (.work 0))).runner.workers[0]? =
        some (.gone .stopped) := by
  intro acts
  have hheld : (Session.after acts).runner.held = some 0 := by decide +kernel
  have hgoing : (Session.after acts).runner.workers[0]?.any
      (fun st : Stage => st matches .executing ..) = true := by decide +kernel
  obtain ⟨st, hi, hst⟩ := (Option.any_eq_true _ _).1 hgoing
  obtain ⟨img, run, rfl⟩ : ∃ img run, st = .executing img run := by
    cases st <;> first | exact ⟨_, _, rfl⟩ | cases hst
  obtain ⟨-, hstop, -⟩ := stop_heeded acts [.run endlessOnes]
  obtain ⟨-, result, hgone, hheeds⟩ := hstop 0 _ hheld hi rfl
  refine ⟨by rw [hi]; rfl, hgone.trans ?_⟩
  cases hheeds with
  | stopped h => cases h; rfl

/-- A program that ends at once. -/
def promptSeven : String := "fn main(): int \x7b return 7; \x7d"

/-- A request that comes while the runner is running, but before there is a machine, is lost. -/
theorem promptSeven_outruns_stop :
    let s := Session.after [.run promptSeven, .stop]
    s.runner.isRunning = true ∧ (s.runner.finish {} stepBudget).2 = [.done (.finished 7)] := by
  decide +kernel

end Workbench.Runner
