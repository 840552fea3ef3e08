import Workbench.Proofs.InstrEffect

/-!
# Copying and filling cells

A copy goes upwards, one cell after the other, and reads the cells that it writes. Where the target begins inside the
source, what is read from there on was written by the copy itself, so the cells before the target are repeated
(`Copied.periodic`). Everywhere else the target comes to hold what the source held. The check that both cells exist is
made for each cell when its turn comes, so a copy that stops has done its part up to there; `Copied` and `Filled` say
what was done for any number of cells, and `block_moves` how many that are.
-/

namespace Workbench.Machine

/-- `new` is what became of `old` when `m` cells from `src` on were copied to the cells from `dst` on. -/
structure Copied (old new : Array Int) (dst src : Int) (m : Nat) : Prop where
  size : new.size = old.size
  apart : dst ≤ src ∨ src + m ≤ dst → ∀ i < m, new[(dst + i).toNat]? = old[(src + i).toNat]?
  periodic : src < dst → ∀ i < m, new[(dst + i).toNat]? = old[(src + i % (dst - src)).toNat]?
  others : ∀ c : Nat, ¬ (dst ≤ c ∧ c < dst + m) → new[c]? = old[c]?

/-- `new` is what became of `old` when `m` cells from `dst` on were filled with `value`. -/
structure Filled (old new : Array Int) (dst value : Int) (m : Nat) : Prop where
  size : new.size = old.size
  filled : ∀ i < m, new[(dst + i).toNat]? = some value
  others : ∀ c : Nat, ¬ (dst ≤ c ∧ c < dst + m) → new[c]? = old[c]?

/-- The number of cells from `start` on, in a frame of `size` cells; none if `start` is no cell. -/
def room (size : Nat) (start : Int) : Nat := if start < 0 then 0 else (size - start).toNat

theorem room_succ {size : Nat} {start : Int} (h : 0 ≤ start ∧ start < size) :
    room size (start + 1) + 1 = room size start := by
  rw [room, room, if_neg (by omega), if_neg (by omega)]
  omega

theorem room_eq_zero {size : Nat} {start : Int} (h : ¬ (0 ≤ start ∧ start < size)) : room size start = 0 := by
  unfold room
  split <;> omega

/-! ### Copies -/

theorem succ_emod {i d : Int} (hd : 0 < d) : (i + 1) % d = if i % d + 1 = d then 0 else i % d + 1 := by
  rw [← Int.emod_add_emod]
  have hnonneg := Int.emod_nonneg i (Int.ne_of_gt hd)
  have hlt := Int.emod_lt_of_pos i hd
  split
  case isTrue hlast => rw [hlast, Int.emod_self]
  case isFalse hlast => exact Int.emod_eq_of_lt (by omega) (by omega)

section Copy

variable {old new : Array Int} {dst src : Int} {m : Nat}

theorem Copied.none (old : Array Int) (dst src : Int) : Copied old old dst src 0 :=
  ⟨rfl, fun _ i hi => absurd hi (Nat.not_lt_zero i), fun _ i hi => absurd hi (Nat.not_lt_zero i), fun _ _ => rfl⟩

theorem Copied.cons (hsrc : 0 ≤ src ∧ src < old.size) (hdst : 0 ≤ dst ∧ dst < old.size)
    (h : Copied (old.setIfInBounds dst.toNat (old.getD src.toNat 0)) new (dst + 1) (src + 1) m) :
    Copied old new dst src (m + 1) := by
  have hread : ∀ c : Nat, (old.setIfInBounds dst.toNat (old.getD src.toNat 0))[c]? =
      if dst = c then old[src.toNat]? else old[c]? := by
    intro c
    have hlt : src.toNat < old.size := by omega
    rw [Array.getElem?_setIfInBounds, Array.getD_eq_getD_getElem?, Array.getElem?_eq_getElem hlt, Option.getD_some]
    by_cases hc : dst = c
    · rw [if_pos (by omega), if_pos (by omega), if_pos hc]
    · rw [if_neg (by omega), if_neg hc]
  -- The first cell of the target is before the rest of it, which does not change it any more.
  have hfirst : new[dst.toNat]? = old[src.toNat]? := by
    rw [h.others dst.toNat (by omega), hread, if_pos (by omega)]
  refine ⟨by rw [h.size, Array.size_setIfInBounds], fun hapart i hi => ?_, fun hlt i hi => ?_, fun c hc => ?_⟩
  · cases i with
    | zero => simpa using hfirst
    | succ i =>
      have hrest := h.apart (by omega) i (by omega)
      rw [hread, if_neg (by omega)] at hrest
      rw [show dst + (i + 1 : Nat) = dst + 1 + i by omega, hrest,
        show src + 1 + i = src + (i + 1 : Nat) by omega]
  · cases i with
    | zero => simpa using hfirst
    | succ i =>
      have hrest := h.periodic (by omega) i (by omega)
      have hperiod : dst + 1 - (src + 1) = dst - src := by omega
      have hnonneg := Int.emod_nonneg i (b := dst - src) (by omega)
      rw [hperiod, hread] at hrest
      rw [show dst + (i + 1 : Nat) = dst + 1 + i by omega, hrest, Int.natCast_succ, succ_emod (by omega)]
      -- At the end of a period the cell read is the first one of the target, which holds what the source began with.
      by_cases hlast : i % (dst - src) + 1 = dst - src
      · rw [if_pos (by omega), if_pos hlast, Int.add_zero]
      · rw [if_neg (by omega), if_neg hlast,
          show src + 1 + i % (dst - src) = src + (i % (dst - src) + 1) by omega]
  · rw [h.others c (by omega), hread, if_neg (by omega)]

/-- What a copy does, and when it stops. -/
theorem copyCells_spec (dst src : Int) (count : Nat) (old : Array Int) :
    match copyCells dst src count old with
    | .ok new => (count = 0 ∨ 0 ≤ src ∧ 0 ≤ dst ∧ src + count ≤ old.size ∧ dst + count ≤ old.size) ∧
        Copied old new dst src count
    | .error new => (0 < count ∧ (src < 0 ∨ dst < 0 ∨ old.size < src + count ∨ old.size < dst + count)) ∧
        Copied old new dst src (min (room old.size src) (room old.size dst)) := by
  fun_induction copyCells dst src count old with
  | case1 dst src old => exact ⟨.inl rfl, .none old dst src⟩
  | case2 dst src count old hcells ih =>
    simp only [Bool.and_eq_true, decide_eq_true_eq] at hcells
    obtain ⟨⟨⟨hsrc, hsrc'⟩, hdst⟩, hdst'⟩ := hcells
    rw [Array.size_setIfInBounds] at ih
    split at ih
    case h_1 new hnew => exact ⟨.inr (by omega), ih.2.cons ⟨hsrc, hsrc'⟩ ⟨hdst, hdst'⟩⟩
    case h_2 new hnew =>
      have hcopied := ih.2.cons ⟨hsrc, hsrc'⟩ ⟨hdst, hdst'⟩
      rw [← Nat.add_min_add_right, room_succ ⟨hsrc, hsrc'⟩, room_succ ⟨hdst, hdst'⟩] at hcopied
      exact ⟨by omega, hcopied⟩
  | case3 dst src count old hcells =>
    simp only [Bool.and_eq_true, decide_eq_true_eq] at hcells
    have hroom : min (room old.size src) (room old.size dst) = 0 := by
      by_cases hsrc : 0 ≤ src ∧ src < old.size
      · rw [@room_eq_zero _ dst (by omega), Nat.min_zero]
      · rw [room_eq_zero hsrc, Nat.zero_min]
    rw [hroom]
    exact ⟨by omega, .none old dst src⟩

end Copy

/-! ### Fills -/

section Fill

variable {old new : Array Int} {dst value : Int} {m : Nat}

theorem Filled.none (old : Array Int) (dst value : Int) : Filled old old dst value 0 :=
  ⟨rfl, fun i hi => absurd hi (Nat.not_lt_zero i), fun _ _ => rfl⟩

theorem Filled.cons (hdst : 0 ≤ dst ∧ dst < old.size)
    (h : Filled (old.setIfInBounds dst.toNat value) new (dst + 1) value m) : Filled old new dst value (m + 1) := by
  refine ⟨by rw [h.size, Array.size_setIfInBounds], fun i hi => ?_, fun c hc => ?_⟩
  · cases i with
    | zero =>
      rw [h.others _ (by omega), Array.getElem?_setIfInBounds, if_pos (by omega), if_pos (by omega)]
    | succ i => rw [show dst + (i + 1 : Nat) = dst + 1 + i by omega, h.filled i (by omega)]
  · rw [h.others c (by omega), Array.getElem?_setIfInBounds, if_neg (by omega)]

/-- What a fill does, and when it stops. -/
theorem fillCells_spec (dst value : Int) (count : Nat) (old : Array Int) :
    match fillCells dst value count old with
    | .ok new => (count = 0 ∨ 0 ≤ dst ∧ dst + count ≤ old.size) ∧ Filled old new dst value count
    | .error new => (0 < count ∧ (dst < 0 ∨ old.size < dst + count)) ∧
        Filled old new dst value (room old.size dst) := by
  fun_induction fillCells dst value count old with
  | case1 dst old => exact ⟨.inl rfl, .none old dst value⟩
  | case2 dst count old hcell ih =>
    simp only [Bool.and_eq_true, decide_eq_true_eq] at hcell
    rw [Array.size_setIfInBounds] at ih
    split at ih
    case h_1 new hnew => exact ⟨.inr (by omega), ih.2.cons hcell⟩
    case h_2 new hnew =>
      have hfilled := ih.2.cons hcell
      rw [room_succ hcell] at hfilled
      exact ⟨by omega, hfilled⟩
  | case3 dst count old hcell =>
    simp only [Bool.and_eq_true, decide_eq_true_eq] at hcell
    rw [room_eq_zero hcell]
    exact ⟨by omega, .none old dst value⟩

end Fill

/-- **What the instructions that move blocks of cells do.** They stop exactly if there is something to copy or fill and
the source or the target is not in the frame. Otherwise they copy or fill all the cells that they were asked to, and
where they stop, as many as there are in the frame. The other cells stay as they are. -/
theorem block_moves {img : Image} {s : State} {arg : Option Int} {rest : List Int} {count : Int} (hcount : 0 ≤ count) :
    (∀ dst src, img.fetch s.pc = .ok ⟨.memcpyLocals, arg⟩ → s.stack = count :: src :: dst :: rest → ∃ new,
      if 0 < count ∧ (src < 0 ∨ dst < 0 ∨ s.locals.size < src + count ∨ s.locals.size < dst + count) then
        step img s = .fault (.copyRange src dst count s.locals.size) ⟨s.pc + 1, rest, new, s.calls⟩ ∧
          Copied s.locals new dst src (min (room s.locals.size src) (room s.locals.size dst))
      else
        step img s = .next ⟨s.pc + 1, rest, new, s.calls⟩ none ∧ Copied s.locals new dst src count.toNat) ∧
    ∀ dst value, img.fetch s.pc = .ok ⟨.memsetLocals, arg⟩ → s.stack = count :: value :: dst :: rest → ∃ new,
      if 0 < count ∧ (dst < 0 ∨ s.locals.size < dst + count) then
        step img s = .fault (.fillRange dst count s.locals.size) ⟨s.pc + 1, rest, new, s.calls⟩ ∧
          Filled s.locals new dst value (room s.locals.size dst)
      else
        step img s = .next ⟨s.pc + 1, rest, new, s.calls⟩ none ∧ Filled s.locals new dst value count.toNat := by
  have hnat : count.toNat = count := Int.toNat_of_nonneg hcount
  refine ⟨fun dst src hfetch hstack => ?_, fun dst value hfetch hstack => ?_⟩
  · have hspec := copyCells_spec dst src count.toNat s.locals
    rw [step_of_fetch hfetch]
    simp only [execute, State.pop₃, hstack, copyLocals, if_neg (Int.not_lt.2 hcount)]
    cases hcopy : copyCells dst src count.toNat s.locals with
    | ok new =>
      rw [hcopy] at hspec
      refine ⟨new, ?_⟩
      rw [if_neg (by omega)]
      exact ⟨rfl, hspec.2⟩
    | error new =>
      rw [hcopy] at hspec
      refine ⟨new, ?_⟩
      rw [if_pos (by omega)]
      exact ⟨rfl, hspec.2⟩
  · have hspec := fillCells_spec dst value count.toNat s.locals
    rw [step_of_fetch hfetch]
    simp only [execute, State.pop₃, hstack, fillLocals, if_neg (Int.not_lt.2 hcount)]
    cases hfill : fillCells dst value count.toNat s.locals with
    | ok new =>
      rw [hfill] at hspec
      refine ⟨new, ?_⟩
      rw [if_neg (by omega)]
      exact ⟨rfl, hspec.2⟩
    | error new =>
      rw [hfill] at hspec
      refine ⟨new, ?_⟩
      rw [if_pos (by omega)]
      exact ⟨rfl, hspec.2⟩

/-- A copy and a fill. -/
def blockImage : Image where
  code := #[⟨.memcpyLocals, none⟩, ⟨.memsetLocals, none⟩]
  functions := #[]
  strings := []

/-- Four cells are to be copied from the first one to the third one of five. The first two are repeated, and the copy
stops when it comes to the end of the frame. A fill of four cells from the fourth one on stops there as well. -/
theorem blockImage_stops :
    (step blockImage ⟨0, [4, 0, 2], #[1, 2, 3, 4, 5], []⟩ =
        .fault (.copyRange 0 2 4 5) ⟨1, [], #[1, 2, 1, 2, 1], []⟩ ∧
      Copied #[1, 2, 3, 4, 5] #[1, 2, 1, 2, 1] 2 0 3) ∧
    step blockImage ⟨1, [4, 7, 3], #[1, 2, 3, 4, 5], []⟩ = .fault (.fillRange 3 4 5) ⟨2, [], #[1, 2, 3, 7, 7], []⟩ ∧
      Filled #[1, 2, 3, 4, 5] #[1, 2, 3, 7, 7] 3 7 2 := by
  constructor
  · obtain ⟨new, hnew⟩ :=
      (@block_moves blockImage ⟨0, [4, 0, 2], #[1, 2, 3, 4, 5], []⟩ none [] 4 (by decide)).1 2 0 rfl rfl
    rw [if_pos (by decide)] at hnew
    obtain ⟨hstep, hcopied⟩ := hnew
    cases hstep
    exact ⟨rfl, hcopied⟩
  · obtain ⟨new, hnew⟩ :=
      (@block_moves blockImage ⟨1, [4, 7, 3], #[1, 2, 3, 4, 5], []⟩ none [] 4 (by decide)).2 3 7 rfl rfl
    rw [if_pos (by decide)] at hnew
    obtain ⟨hstep, hfilled⟩ := hnew
    cases hstep
    exact ⟨rfl, hfilled⟩

end Workbench.Machine
