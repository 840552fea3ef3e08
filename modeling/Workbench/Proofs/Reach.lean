import Workbench.Proofs.MachineRun

/-!
# The states of a run

`Image.Reaches` says that a run of `main` comes to a state. What holds at the start and is kept by every step holds of
all these states (`Reaches.induction`). However a run is watched and wherever it is stopped, it ends the way some
state that is reached ends, unless it is ended from outside (`Image.run_reaches`).
-/

namespace Workbench.Machine

/-- The run of `main` comes to the state `s`. -/
def Image.Reaches (img : Image) (s : State) : Prop :=
  ∃ f n out, img.main? = some f ∧ Runs img 0 n out (.start f) s

namespace Image.Reaches

variable {img : Image} {s t : State} {o : Option String}

theorem start {f : FunctionInfo} (h : img.main? = some f) : img.Reaches (.start f) :=
  ⟨f, 0, [], h, .refl (Nat.zero_le _)⟩

theorem next (h : img.Reaches s) (hs : step img s = .next t o) : img.Reaches t := by
  obtain ⟨f, n, out, hm, hrun⟩ := h
  exact ⟨f, n + 1, _, hm, hrun.trans (.one (Nat.zero_le _) hs (Nat.zero_le _))⟩

theorem induction {P : State → Prop} (start : ∀ f, img.main? = some f → P (.start f))
    (next : ∀ s t o, img.Reaches s → P s → step img s = .next t o → P t) (h : img.Reaches s) : P s := by
  obtain ⟨f, n, out, hm, hrun⟩ := h
  have hreach := Reaches.start hm
  have hP := start f hm
  clear hm
  generalize State.start f = s₀ at hrun hreach hP
  induction hrun with
  | refl => exact hP
  | head _ hs _ ih => exact ih (hreach.next hs) (next _ _ _ hreach hP hs)

end Image.Reaches

variable {img : Image}

theorem Run.tick_reaches (w : Watch) (limit : Nat) {r : Run} (h : img.Reaches r.state) :
    match r.tick img w limit with
    | .going r' => img.Reaches r'.state
    | .ended f => f.ending = .stopped ∨ f.ending = .stepLimit ∨ r.state.ending? img = some f.ending := by
  have hnext : ∀ t o, step img r.state = .next t o → img.Reaches t := fun t o => h.next
  unfold tick State.ending?
  unfold step at hnext ⊢
  by_cases hpc : img.code.size ≤ r.state.pc
  · rw [if_pos hpc, if_pos hpc]
    exact .inr (.inr rfl)
  rw [if_neg hpc] at hnext ⊢
  rw [if_neg hpc]
  cases r.stopping with
  | true => exact .inl rfl
  | false =>
    rw [if_neg Bool.false_ne_true]
    cases hf : img.fetch r.state.pc with
    | error e => exact .inr (.inr rfl)
    | ok i =>
      simp only [hf] at hnext
      dsimp only
      by_cases hl : limit ≤ r.steps
      · rw [if_pos hl]
        exact .inr (.inl rfl)
      · rw [if_neg hl]
        cases hx : execute img i { r.state with pc := r.state.pc + 1 } with
        | next t o => exact hnext t o hx
        | exit v t => exact .inr (.inr rfl)
        | fault f t => exact .inr (.inr rfl)

theorem Run.proceed_reaches (w : Watch) (limit fuel : Nat) : ∀ {r : Run}, img.Reaches r.state →
    (r.proceed img w limit fuel).ending = .stopped ∨ (r.proceed img w limit fuel).ending = .stepLimit ∨
      ∃ s, img.Reaches s ∧ s.ending? img = some (r.proceed img w limit fuel).ending := by
  induction fuel with
  | zero => exact fun _ => .inr (.inl rfl)
  | succ fuel ih =>
    intro r h
    have htick := tick_reaches w limit h
    unfold proceed
    split
    case h_1 f hf =>
      rw [hf] at htick
      exact htick.imp_right (.imp_right fun he => ⟨r.state, h, he⟩)
    case h_2 r' hr' =>
      rw [hr'] at htick
      exact ih htick

theorem Image.run_reaches (img : Image) (limit : Nat) (w : Watch) :
    (img.run limit w).ending = .stopped ∨ (img.run limit w).ending = .stepLimit ∨
      (img.main? = none ∧ (img.run limit w).ending = .fault .noMain) ∨
      ∃ s, img.Reaches s ∧ s.ending? img = some (img.run limit w).ending := by
  unfold Image.run
  cases hm : img.main? with
  | none => exact .inr (.inr (.inl ⟨rfl, rfl⟩))
  | some f => exact (Run.proceed_reaches w limit (limit + 1) (.start hm)).imp_right (.imp_right .inr)

end Workbench.Machine
