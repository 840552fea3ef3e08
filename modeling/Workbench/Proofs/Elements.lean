import Workbench.Proofs.Sealed

/-!
# Elements of arrays

The elements of an array are cells of the frame among those of the other variables, and an access adds the index to the
number of the first one. Every cell of a frame is one of exactly one variable (`Owns`). The check of a store is that the
sum is a cell of the frame, so a store at an index past the array goes to the variable that owns that cell, or stops the
machine (`element_access`). A load has no check but that of an index, which may count from the end of the frame.
-/

namespace Workbench.Bytecode

open Machine (Instr Op Image State Fault FunctionInfo step cellAt)
open Typing (Note)

/-! ### Who owns a cell -/

namespace Slots

/-- The cell is one of those of the variable. -/
def Owns (s : Slots) (x : String) (c : Nat) : Prop := ∃ k, s.cell? x = some k ∧ k ≤ c ∧ c < k + s.width x

/-- The array has `n` elements from the cell `base` on. -/
structure Holds (s : Slots) (a : String) (base n : Nat) : Prop where
  cell : s.cell? a = some base
  length : s.length? a = some n

section Owns

variable {s : Slots} {x y a : String} {c base n : Nat}

theorem Owns.lt (hs : s.Sound) (h : s.Owns x c) : c < s.size := by
  obtain ⟨k, hk, -, hlt⟩ := h
  exact hlt.trans_le (hs.bound x k hk)

theorem Owns.unique (hs : s.Sound) (hx : s.Owns x c) (hy : s.Owns y c) : x = y := by
  obtain ⟨k, hk, hle, hlt⟩ := hx
  obtain ⟨l, hl, hle', hlt'⟩ := hy
  by_contra hne
  have hapart := hs.apart x y k l hne hk hl
  omega

theorem Holds.width (h : s.Holds a base n) : s.width a = n := by
  rw [Slots.width, h.length, Option.getD_some]

theorem Holds.arrayCell? (h : s.Holds a base n) : s.arrayCell? a = some base := by
  rw [Slots.arrayCell?, h.length, Option.isSome_some, if_pos rfl, h.cell]

theorem Holds.owns_iff (h : s.Holds a base n) : s.Owns a c ↔ base ≤ c ∧ c < base + n := by
  constructor
  · rintro ⟨k, hk, hbounds⟩
    obtain rfl : base = k := Option.some.inj (h.cell.symm.trans hk)
    rwa [h.width] at hbounds
  · intro hbounds
    exact ⟨base, h.cell, by rwa [h.width]⟩

theorem Holds.bound (hs : s.Sound) (h : s.Holds a base n) : base + n ≤ s.size := by
  have hbound := hs.bound a base h.cell
  rwa [h.width] at hbound

end Owns

/-- Every cell has an owner. -/
def Covered (s : Slots) : Prop := ∀ c < s.size, ∃ x, s.Owns x c

theorem Covered.addDeclared {s : Slots} (hs : s.Sound) (h : s.Covered) (x : String) (t : Option String) :
    (s.addDeclared x t).Covered := by
  cases hx : s.cell? x with
  | some k => rwa [addDeclared_of_isSome x t (by simp [hx])]
  | none =>
    intro c hc
    rw [size_addDeclared x t hx] at hc
    by_cases hold : c < s.size
    · obtain ⟨y, k, hk, hbounds⟩ := h c hold
      have hne : y ≠ x := by
        rintro rfl
        rw [hx] at hk
        cases hk
      exact ⟨y, k, by rw [cell?_addDeclared x y t hx, if_neg hne, hk],
        by rwa [width_addDeclared hs t hx, if_neg hne]⟩
    · refine ⟨x, s.size, by rw [cell?_addDeclared x x t hx, if_pos rfl], by omega, ?_⟩
      rwa [width_addDeclared hs t hx, if_pos rfl]

variable {ds : List (String × Option String)} {α : Type}

theorem Covered.addDecls : ∀ {s : Slots}, s.Sound → s.Covered → (s.addDecls ds).Covered := by
  induction ds with
  | nil => exact fun _ h => h
  | cons d ds ih => exact fun hs h => ih (hs.addDeclared d.1 d.2) (h.addDeclared hs d.1 d.2)

theorem covered_ofFunction (f : Function α) : (ofFunction f).Covered := by
  rw [ofFunction_eq]
  exact .addDecls sound_empty fun c hc => absurd hc (Nat.not_lt_zero c)

/-! ### Arrays -/

theorem exists_holds_of_length? {α : Type} {f : Function α} {x : String} {n : Nat}
    (h : (ofFunction f).length? x = some n) : ∃ base, (ofFunction f).Holds x base n := by
  cases hx : (ofFunction f).cell? x with
  | none =>
    rw [(sound_ofFunction f).arrays x hx] at h
    cases h
  | some base => exact ⟨base, hx, h⟩

end Slots

/-! ### Accesses -/

section Step

theorem cellAt_eq {size c : Nat} {i : Int} (h : cellAt size i = .ok c) :
    (c : Int) = i ∨ i < 0 ∧ (c : Int) = i + size := by
  unfold cellAt at h
  split at h
  · cases h
    omega
  · split at h
    · cases h
      omega
    · split at h <;> cases h

variable {img : Image} {s : State} {base : Nat} {i v : Int} {rest : List Int}

theorem step_storeElement (hi : img.fetch s.pc = .ok ⟨.storeLocalIdx, some (base : Int)⟩)
    (hstack : s.stack = i :: v :: rest) : step img s =
      if 0 ≤ base + i ∧ base + i < s.locals.size then
        .next ⟨s.pc + 1, rest, s.locals.setIfInBounds (base + i).toNat v, s.calls⟩ none
      else .fault (.storeElement base i s.locals.size) ⟨s.pc + 1, rest, s.locals, s.calls⟩ := by
  rw [Machine.step_of_fetch hi]
  simp [Machine.execute, State.pop₂, hstack, Machine.withArg, State.hasCell]

theorem step_loadElement (hi : img.fetch s.pc = .ok ⟨.loadLocalIdx, some (base : Int)⟩)
    (hstack : s.stack = i :: rest) : step img s =
      match cellAt s.locals.size (base + i) with
      | .ok c => .next ⟨s.pc + 1, s.locals.getD c 0 :: rest, s.locals, s.calls⟩ none
      | .error e => .fault (.ofRead e) ⟨s.pc + 1, rest, s.locals, s.calls⟩ := by
  rw [Machine.step_of_fetch hi]
  simp only [Machine.execute, State.pop₁, hstack, Machine.withArg, State.load]
  cases cellAt s.locals.size (base + i) <;> rfl

end Step

/-- What the accesses to an array compile to: the code of the operands, and an instruction that names the first cell. -/
structure AccessCode (env : Env) (a : String) (base : Nat) : Prop where
  assign : ∀ p (x y : Note) i v, assignCode env p (.index x (.var y a) i) v =
    let cv := exprCode env p v
    cv ++ exprCode env (p.after cv) i ++ .arg .storeLocalIdx base
  push : ∀ p (x y : Note) i v, exprCode env p (.call x "array_push" [.var y a, i, v]) =
    let cv := exprCode env p v
    let c := cv ++ exprCode env (p.after cv) i ++ .arg .storeLocalIdx base
    c ++ exprCode env (p.after c) i ++ .push 1 ++ .op .add
  index : ∀ p (x y : Note) i, exprCode env p (.index x (.var y a) i) = exprCode env p i ++ .arg .loadLocalIdx base
  pop : ∀ p (x y : Note) n, exprCode env p (.call x "array_pop" [.var y a, n]) =
    exprCode env p n ++ .push 1 ++ .op .sub ++ .arg .loadLocalIdx base

theorem accessCode {env : Env} {a : String} {base n : Nat} (h : env.slots.Holds a base n) : AccessCode env a base := by
  have hcell (y : Note) : env.arrayCell? (.var y a) = some base := h.arrayCell?
  constructor
  · intro p x y i v
    simp only [assignCode, hcell]
  · intro p x y i v
    simp only [exprCode, hcell]
  · intro p x y i
    simp only [exprCode, hcell]
  · intro p x y n
    simp only [exprCode, hcell]

theorem frame_size {source : String} {prog : Program Note} {obj : Object} (hprog : checkedProgram source = .ok prog)
    (hobj : emit prog = .ok obj) {k : Nat} {f : Function Note} (hf : prog.functions[k]? = some f) {s : State}
    {ks : List Nat} (ha : obj.image.Active s (k :: ks)) : s.locals.size = (Slots.ofFunction f).size := by
  have hnodup := (accepted_of_source hprog).entered.nodup
  obtain ⟨info, hk, -, -, hsize⟩ : obj.image.Within k ⟨s.pc, s.locals⟩ := by
    cases (sealed_of_emit hnodup (valued_of_source hprog) hobj).within ha with
    | cons h _ => exact h
  obtain ⟨hname, hidx⟩ := idxOf_image hnodup hobj hk
  obtain ⟨fn, hfn, hfname⟩ := exists_function hname
  obtain rfl : fn = f := by
    rw [hidx] at hfn
    exact Option.some.inj (hfn.symm.trans hf)
  obtain ⟨info', pc, hinfo', -, hlocals, -⟩ := (linked_of_emit hnodup hobj).function info.name hname
  rw [hidx] at hinfo'
  obtain rfl : info = info' := Option.some.inj (hk.symm.trans hinfo')
  obtain ⟨j, hj⟩ := exists_routine hnodup hf
  rw [← hfname, hj] at hlocals
  exact Int.ofNat.inj (hsize.trans hlocals)

/-- **What an access to an array can do.** A store goes to the cell at the index, counted from the first element, and
changes nothing else, if this is a cell of the frame, and stops the machine if not. The cell is the element at an index
from 0 to `n - 1`, and that of another variable at any other one. A load finds the element at these indices, and stops
or finds some cell at others. -/
theorem element_access {source : String} {prog : Program Note} {obj : Object} (hprog : checkedProgram source = .ok prog)
    (hobj : emit prog = .ok obj) {k : Nat} {f : Function Note} (hf : prog.functions[k]? = some f) {a t : String}
    {n : Nat} {ds es : List (String × Option String)} (hdecls : Slots.declsOf f = ds ++ (a, some t) :: es)
    (hfirst : a ∉ ds.map (·.1)) (ht : Ty.arrayLength? t = some n) :
    ∃ base, (∀ c, (Slots.ofFunction f).Owns a c ↔ base ≤ c ∧ c < base + n) ∧
      (∀ env : Env, env.slots = Slots.ofFunction f → AccessCode env a base) ∧
      ∀ s ks, obj.image.Active s (k :: ks) → s.locals.size = (Slots.ofFunction f).size ∧
        (∀ i v rest, obj.image.fetch s.pc = .ok ⟨.storeLocalIdx, some (base : Int)⟩ → s.stack = i :: v :: rest →
          (∃ (c : Nat) (y : String), (c : Int) = base + i ∧ c < s.locals.size ∧
            (∀ z, (Slots.ofFunction f).Owns z c ↔ z = y) ∧ (y = a ↔ 0 ≤ i ∧ i < n) ∧
            step obj.image s = .next ⟨s.pc + 1, rest, s.locals.setIfInBounds c v, s.calls⟩ none) ∨
          ¬ (0 ≤ base + i ∧ base + i < s.locals.size) ∧ ¬ (0 ≤ i ∧ i < n) ∧
            step obj.image s = .fault (.storeElement base i s.locals.size) ⟨s.pc + 1, rest, s.locals, s.calls⟩) ∧
        (∀ i rest, obj.image.fetch s.pc = .ok ⟨.loadLocalIdx, some (base : Int)⟩ → s.stack = i :: rest →
          (∃ c : Nat, c < s.locals.size ∧ ((c : Int) = base + i ∨ base + i < 0 ∧ (c : Int) = base + i + s.locals.size) ∧
            step obj.image s = .next ⟨s.pc + 1, s.locals.getD c 0 :: rest, s.locals, s.calls⟩ none) ∨
          ¬ (0 ≤ i ∧ i < n) ∧ ∃ e,
            step obj.image s = .fault (.ofRead e) ⟨s.pc + 1, rest, s.locals, s.calls⟩) := by
  have hlength : (Slots.ofFunction f).length? a = some n := by
    have hnone : ds.lookup a = none := List.lookup_eq_none_iff.2 fun d hd => bne_iff_ne.2 fun heq =>
      hfirst (List.mem_map.2 ⟨d, hd, heq.symm⟩)
    rw [Slots.length?_ofFunction, hdecls, List.lookup_append, hnone]
    simpa using ht
  obtain ⟨base, hholds⟩ := Slots.exists_holds_of_length? hlength
  have hbound := hholds.bound (Slots.sound_ofFunction f)
  refine ⟨base, fun c => hholds.owns_iff, fun env henv => accessCode (henv ▸ hholds), fun s ks hactive => ?_⟩
  have hsize := frame_size hprog hobj hf hactive
  refine ⟨hsize, fun i v rest hfetch hstack => ?_, fun i rest hfetch hstack => ?_⟩
  · rw [step_storeElement hfetch hstack]
    by_cases hcell : 0 ≤ base + i ∧ base + i < s.locals.size
    · obtain ⟨c, hc⟩ : ∃ c : Nat, c = base + i := ⟨_, Int.toNat_of_nonneg hcell.1⟩
      obtain ⟨y, howns⟩ := Slots.covered_ofFunction f c (by omega)
      have hy : ∀ z, (Slots.ofFunction f).Owns z c ↔ z = y :=
        fun z => ⟨fun hz => hz.unique (Slots.sound_ofFunction f) howns, fun h => h ▸ howns⟩
      refine .inl ⟨c, y, hc, by omega, hy, ?_, ?_⟩
      · rw [eq_comm, ← hy a, hholds.owns_iff]
        omega
      · rw [if_pos hcell, ← hc, Int.toNat_natCast]
    · exact .inr ⟨hcell, by omega, if_neg hcell⟩
  · rw [step_loadElement hfetch hstack]
    cases hcell : cellAt s.locals.size (base + i) with
    | ok c => exact .inl ⟨c, Machine.cellAt_lt hcell, cellAt_eq hcell, rfl⟩
    | error e =>
      refine .inr ⟨fun hi => ?_, e, rfl⟩
      obtain ⟨c, hc⟩ : ∃ c : Nat, c = base + i := ⟨base + i.toNat, by omega⟩
      rw [← hc, Machine.cellAt_ofNat (by omega)] at hcell
      cases hcell

/-- Stores past the end of an array of one element. -/
def pastEnd : String := "fn main(): int \x7b let a: int[1]; let b: int; a[1] = 9; return b; \x7d"

/-- The code of `pastEnd`. -/
def pastEndImage : Image where
  code := #[⟨.pushInt, some 0⟩, ⟨.storeLocal, some 0⟩, ⟨.pushInt, some 0⟩, ⟨.storeLocal, some 1⟩, ⟨.pushInt, some 9⟩,
    ⟨.pushInt, some 1⟩, ⟨.storeLocalIdx, some 0⟩, ⟨.loadLocal, some 1⟩, ⟨.ret, none⟩, ⟨.pushInt, some 0⟩, ⟨.ret, none⟩]
  functions := #[⟨"main", 0, 2, 0⟩]
  strings := []

theorem exists_pastEnd : ∃ prog f obj, checkedProgram pastEnd = .ok prog ∧ emit prog = .ok obj ∧
    obj.image = pastEndImage ∧ prog.functions[0]? = some f ∧
    Slots.declsOf f = [("a", some "int[1]"), ("b", some "int")] := by
  obtain ⟨prog, hprog, obj, hobj, himg, f, hf, hdecls⟩ : ∃ prog, checkedProgram pastEnd = .ok prog ∧
      ∃ obj, emit prog = .ok obj ∧ obj.image = pastEndImage ∧ ∃ f, prog.functions[0]? = some f ∧
        Slots.declsOf f = [("a", some "int[1]"), ("b", some "int")] := by
    rw [checkedProgram, show Token.tokens pastEnd = _ from Token.tokens_ofList _]
    decide +kernel
  exact ⟨prog, f, obj, hprog, hobj, himg, hf, hdecls⟩

/-- The store of `pastEnd` goes to a cell that its array does not own. -/
theorem pastEnd_access : Ty.arrayLength? "int[1]" = some 1 ∧
    ∃ prog f obj, checkedProgram pastEnd = .ok prog ∧ emit prog = .ok obj ∧ prog.functions[0]? = some f ∧
      obj.image.Active ⟨6, [1, 9], #[0, 0], []⟩ [0] ∧
      ∃ y ≠ "a", (Slots.ofFunction f).Owns y 1 ∧
        step obj.image ⟨6, [1, 9], #[0, 0], []⟩ = .next ⟨7, [], #[0, 9], []⟩ none := by
  obtain ⟨prog, f, obj, hprog, hobj, himg, hf, hdecls⟩ := exists_pastEnd
  have hlength : Ty.arrayLength? "int[1]" = some 1 := by decide +kernel
  have hactive : pastEndImage.Active ⟨6, [1, 9], #[0, 0], []⟩ [0] := by
    have h0 : pastEndImage.Active (.start ⟨"main", 0, 2, 0⟩) [0] := .start (by decide) rfl
    have h1 : pastEndImage.Active ⟨1, [0], #[0, 0], []⟩ [0] :=
      .other (o := none) h0 (i := ⟨.pushInt, some 0⟩) rfl (by decide) (by decide) rfl
    have h2 : pastEndImage.Active ⟨2, [], #[0, 0], []⟩ [0] :=
      .other (o := none) h1 (i := ⟨.storeLocal, some 0⟩) rfl (by decide) (by decide) rfl
    have h3 : pastEndImage.Active ⟨3, [0], #[0, 0], []⟩ [0] :=
      .other (o := none) h2 (i := ⟨.pushInt, some 0⟩) rfl (by decide) (by decide) rfl
    have h4 : pastEndImage.Active ⟨4, [], #[0, 0], []⟩ [0] :=
      .other (o := none) h3 (i := ⟨.storeLocal, some 1⟩) rfl (by decide) (by decide) rfl
    have h5 : pastEndImage.Active ⟨5, [9], #[0, 0], []⟩ [0] :=
      .other (o := none) h4 (i := ⟨.pushInt, some 9⟩) rfl (by decide) (by decide) rfl
    exact .other (o := none) h5 (i := ⟨.pushInt, some 1⟩) rfl (by decide) (by decide) rfl
  have hfirst : Slots.declsOf f = [] ++ ("a", some "int[1]") :: [("b", some "int")] := hdecls
  obtain ⟨base, howns, -, hstates⟩ := element_access hprog hobj hf hfirst (by simp) hlength
  have hbase : base = 0 := by
    have howner : (Slots.ofFunction f).Owns "a" 0 := by
      rw [Slots.Owns, Slots.ofFunction_eq, hdecls]
      exact ⟨0, by decide +kernel, Nat.le_refl 0, by decide +kernel⟩
    exact Nat.le_zero.1 ((howns 0).1 howner).1
  subst hbase
  rw [himg] at hstates
  obtain ⟨-, hstore, -⟩ := hstates _ _ hactive
  rcases hstore 1 9 [] rfl rfl with ⟨c, y, hc, -, howner, hother, hstep⟩ | ⟨hframe, -⟩
  · obtain rfl : c = 1 := by omega
    have hne : y ≠ "a" := fun heq => absurd (hother.1 heq).2 (by decide)
    exact ⟨hlength, prog, f, obj, hprog, hobj, hf, himg ▸ hactive, y, hne, (howner y).2 rfl, himg ▸ hstep⟩
  · exact absurd ⟨by decide, by decide⟩ hframe

/-- A store past the end of an array is not refused: it changes the variable behind it. -/
theorem pastEnd_overwrites : imageOf pastEnd = .ok pastEndImage ∧ pastEndImage.Ends [] (.exit 9) :=
  ⟨by decide +kernel, ⟨by simp, 20, by decide⟩⟩

end Workbench.Bytecode
