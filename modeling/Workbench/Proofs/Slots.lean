import Workbench.Bytecode.Slots
import Workbench.Proofs.Syntax

/-!
# Slots do not overlap

The slots of a function are what its declarations get one after the other (`ofFunction_eq`), so what one
declaration preserves holds of every function: the cells of two variables do not overlap, and all of them
lie in the frame (`sound_ofFunction`). The first declaration of a name counts (`length?_ofFunction`).
-/

open List

namespace Workbench.Bytecode.Slots

/-- The number of cells of a variable. -/
def width (s : Slots) (x : String) : Nat := (s.length? x).getD 1

/-- Variables have cells of their own in the frame. -/
structure Sound (s : Slots) : Prop where
  bound : ∀ x k, s.cell? x = some k → k + s.width x ≤ s.size
  apart : ∀ x y k l, x ≠ y → s.cell? x = some k → s.cell? y = some l → k + s.width x ≤ l ∨ l + s.width y ≤ k
  arrays : ∀ x, s.cell? x = none → s.length? x = none

/-- The slots after declarations. -/
def addDecls (s : Slots) (ds : List (String × Option String)) : Slots :=
  ds.foldl (fun s d => s.addDeclared d.1 d.2) s

theorem addDecls_cons (s : Slots) (d : String × Option String) (ds : List (String × Option String)) :
    s.addDecls (d :: ds) = (s.addDeclared d.1 d.2).addDecls ds := rfl

theorem addDecls_append (s : Slots) (ds es : List (String × Option String)) :
    s.addDecls (ds ++ es) = (s.addDecls ds).addDecls es := foldl_append

theorem addStmts_eq {α : Type} (ss : List (Stmt α)) : ∀ s : Slots, s.addStmts ss = s.addDecls (Stmt.decls ss) := by
  induction ss using Stmt.parts_induction (P := fun st => ∀ s : Slots, s.addStmt st = s.addDecls (Stmt.declsOf st)) with
  | nil => exact fun s => rfl
  | cons st ss ihs ih => exact fun s => by rw [addStmts, ihs, ih, Stmt.decls, addDecls_append]
  | cond c yes b ihy ihn => rw [addStmt, ihy, ihn, Stmt.declsOf, addDecls_append]
  | condThen c body ihb | loop c body ihb => rw [addStmt, ihb, Stmt.declsOf]
  | _ => rfl

/-- What a function declares: its parameters, and what its body declares. -/
def declsOf {α : Type} (f : Function α) : List (String × Option String) :=
  f.params.map (fun p => (p.name, none)) ++ Stmt.decls f.body

theorem ofFunction_eq {α : Type} (f : Function α) : ofFunction f = addDecls {} (declsOf f) := by
  rw [ofFunction, addStmts_eq, declsOf, addDecls_append]
  congr 1
  simp only [addDecls, foldl_map]
  rfl

section Declared

variable {s : Slots} (x y : String) (t : Option String)

theorem addDeclared_of_isSome (h : (s.cell? x).isSome = true) : s.addDeclared x t = s := by
  unfold addDeclared
  cases t.bind Ty.arrayLength? <;> simp [addScalar, addArray, h]

theorem cell?_addDeclared (hx : s.cell? x = none) :
    (s.addDeclared x t).cell? y = if y = x then some s.size else s.cell? y := by
  have hcells : (s.addDeclared x t).cells = s.cells ++ [(x, s.size)] := by
    unfold addDeclared
    cases t.bind Ty.arrayLength? <;> simp [addScalar, addArray, hx]
  rw [cell?, hcells, lookup_append]
  by_cases hy : y = x
  · subst hy
    rw [show s.cells.lookup y = none from hx]
    simp
  · have hyx : (y == x) = false := by simpa using hy
    simp [lookup_cons, hyx, hy, cell?]

theorem length?_addDeclared (hx : s.cell? x = none) (hs : s.length? x = none) :
    (s.addDeclared x t).length? y = if y = x then t.bind Ty.arrayLength? else s.length? y := by
  unfold addDeclared
  cases t.bind Ty.arrayLength? with
  | none =>
    by_cases hy : y = x
    · subst hy
      simpa [addScalar, hx, length?] using hs
    · simp [addScalar, hx, length?, hy]
  | some n =>
    by_cases hy : y = x
    · subst hy
      have hs' : s.arrays.lookup y = none := hs
      simp [addArray, hx, length?, lookup_append, hs']
    · have hyx : (y == x) = false := by simpa using hy
      simp [addArray, hx, length?, lookup_append, lookup_cons, hyx, hy]

theorem size_addDeclared (hx : s.cell? x = none) :
    (s.addDeclared x t).size = s.size + (t.bind Ty.arrayLength?).getD 1 := by
  unfold addDeclared
  cases t.bind Ty.arrayLength? <;> simp [addScalar, addArray, hx]

end Declared

theorem sound_empty : Sound {} := ⟨by simp [cell?], by simp [cell?], by simp [length?]⟩

theorem width_addDeclared {s : Slots} (hs : s.Sound) {x : String} (t : Option String) (hx : s.cell? x = none)
    (y : String) : (s.addDeclared x t).width y = if y = x then (t.bind Ty.arrayLength?).getD 1 else s.width y := by
  rw [width, length?_addDeclared x y t hx (hs.arrays x hx)]
  split <;> rfl

/-- A declaration takes cells that no other variable has. -/
theorem Sound.addDeclared {s : Slots} (h : s.Sound) (x : String) (t : Option String) : (s.addDeclared x t).Sound := by
  cases hx : s.cell? x with
  | some k => rwa [addDeclared_of_isSome x t (by simp [hx])]
  | none =>
    have hwidth := width_addDeclared h t hx
    constructor
    · intro y k hy
      rw [cell?_addDeclared x y t hx] at hy
      rw [size_addDeclared x t hx, hwidth]
      split at hy
      · cases hy
        simp [*]
      · have := h.bound y k hy
        simp only [*, if_false]
        omega
    · intro y z k l hyz hy hz
      rw [cell?_addDeclared x _ t hx] at hy hz
      rw [hwidth, hwidth]
      by_cases hyx : y = x
      · rw [if_pos hyx] at hy
        rw [if_neg (hyx ▸ hyz.symm)] at hz
        cases hy
        exact .inr (by rw [if_neg (hyx ▸ hyz.symm)]; exact h.bound z l hz)
      · rw [if_neg hyx] at hy
        by_cases hzx : z = x
        · rw [if_pos hzx] at hz
          cases hz
          exact .inl (by rw [if_neg hyx]; exact h.bound y k hy)
        · rw [if_neg hzx] at hz
          rw [if_neg hyx, if_neg hzx]
          exact h.apart y z k l hyz hy hz
    · intro y hy
      rw [cell?_addDeclared x y t hx] at hy
      rw [length?_addDeclared x y t hx (h.arrays x hx)]
      split at hy
      · cases hy
      · simp only [*]
        exact h.arrays y hy

theorem Sound.addDecls {s : Slots} (h : s.Sound) (ds : List (String × Option String)) : (s.addDecls ds).Sound := by
  induction ds generalizing s with
  | nil => exact h
  | cons d ds ih => exact ih (h.addDeclared d.1 d.2)

theorem sound_ofFunction {α : Type} (f : Function α) : (ofFunction f).Sound :=
  ofFunction_eq f ▸ sound_empty.addDecls _

/-! ### Cells of what is declared -/

theorem cell?_addDecls {s : Slots} {x : String} {k : Nat} (h : s.cell? x = some k)
    (ds : List (String × Option String)) : (s.addDecls ds).cell? x = some k := by
  induction ds generalizing s with
  | nil => exact h
  | cons d ds ih =>
    rw [addDecls_cons]
    refine ih ?_
    cases hd : s.cell? d.1 with
    | some l => rwa [addDeclared_of_isSome d.1 d.2 (by simp [hd])]
    | none =>
      rw [cell?_addDeclared d.1 x d.2 hd, if_neg, h]
      rintro rfl
      rw [h] at hd
      cases hd

variable {ds : List (String × Option String)} {α : Type}

theorem isSome_cell?_addDecls : ∀ {s : Slots}, ∀ d ∈ ds, ((s.addDecls ds).cell? d.1).isSome = true := by
  induction ds with
  | nil => simp
  | cons e ds ih =>
    intro s d hd
    rcases mem_cons.1 hd with rfl | hd
    · have hcell : ∃ k, (s.addDeclared d.1 d.2).cell? d.1 = some k := by
        cases h : s.cell? d.1 with
        | some k => exact ⟨k, by rwa [addDeclared_of_isSome d.1 d.2 (by simp [h])]⟩
        | none => exact ⟨s.size, by rw [cell?_addDeclared d.1 d.1 d.2 h, if_pos rfl]⟩
      obtain ⟨k, hk⟩ := hcell
      exact Option.isSome_iff_exists.2 ⟨k, cell?_addDecls hk ds⟩
    · exact ih d hd

theorem cell?_addDecls_of_notMem {x : String} :
    ∀ {s : Slots}, x ∉ ds.map (·.1) → (s.addDecls ds).cell? x = s.cell? x := by
  induction ds with
  | nil => exact fun _ => rfl
  | cons d ds ih =>
    intro s hx
    rw [map_cons, mem_cons, not_or] at hx
    rw [addDecls_cons, ih hx.2]
    cases hd : s.cell? d.1 with
    | some k => rw [addDeclared_of_isSome d.1 d.2 (by simp [hd])]
    | none => rw [cell?_addDeclared d.1 x d.2 hd, if_neg hx.1]

/-- The length of an array is what the first declaration of the name writes. -/
theorem length?_addDecls_eq (x : String) : ∀ {s : Slots}, s.Sound →
    (s.addDecls ds).length? x =
      if (s.cell? x).isSome then s.length? x else (ds.lookup x).bind (·.bind Ty.arrayLength?) := by
  induction ds with
  | nil =>
    intro s hs
    cases hx : s.cell? x with
    | none => exact hs.arrays x hx
    | some k => rfl
  | cons d ds ih =>
    intro s hs
    obtain ⟨y, t⟩ := d
    rw [addDecls_cons, ih (hs.addDeclared y t)]
    cases hy : s.cell? y with
    | some k =>
      rw [addDeclared_of_isSome y t (by simp [hy])]
      by_cases hx : x = y
      · simp [hx, hy]
      · simp [lookup_cons, beq_false_of_ne hx]
    | none =>
      rw [cell?_addDeclared y x t hy, length?_addDeclared y x t hy (hs.arrays y hy)]
      by_cases hx : x = y
      · simp [hx, hy]
      · simp [hx, lookup_cons, beq_false_of_ne hx]

theorem length?_ofFunction (f : Function α) (x : String) :
    (ofFunction f).length? x = ((declsOf f).lookup x).bind (·.bind Ty.arrayLength?) := by
  rw [ofFunction_eq, length?_addDecls_eq x sound_empty]
  rfl

theorem isSome_cell?_iff (f : Function α) (x : String) :
    ((ofFunction f).cell? x).isSome = true ↔ x ∈ (declsOf f).map (·.1) := by
  rw [ofFunction_eq]
  constructor
  · intro h
    by_contra hx
    rw [cell?_addDecls_of_notMem hx] at h
    cases h
  · intro h
    obtain ⟨d, hd, rfl⟩ := mem_map.1 h
    exact isSome_cell?_addDecls d hd

theorem cell?_addDecls_scalars {xs : List String} : ∀ {s : Slots}, xs.Nodup → (∀ x ∈ xs, s.cell? x = none) →
    ∀ (i : Nat) (x : String), xs[i]? = some x → (s.addDecls (xs.map (·, none))).cell? x = some (s.size + i) := by
  induction xs with
  | nil => simp
  | cons y xs ih =>
    intro s hnodup hfresh i x hx
    rw [nodup_cons] at hnodup
    have hy := hfresh y (by simp)
    rw [map_cons, addDecls_cons]
    cases i with
    | zero =>
      obtain rfl : y = x := by simpa using hx
      exact cell?_addDecls (by rw [cell?_addDeclared y y none hy, if_pos rfl]; rfl) _
    | succ i =>
      have hfresh' : ∀ z ∈ xs, (s.addDeclared y none).cell? z = none := by
        intro z hz
        rw [cell?_addDeclared y z none hy, if_neg, hfresh z (by simp [hz])]
        rintro rfl
        exact hnodup.1 hz
      rw [show s.size + (i + 1) = (s.addDeclared y none).size + i by
        rw [size_addDeclared y none hy]; simp only [Option.bind_none, Option.getD_none]; omega]
      exact ih hnodup.2 hfresh' i x hx

theorem cell?_param {f : Function α} (hnodup : (f.params.map (·.name)).Nodup) {i : Nat} {x : String}
    (hx : (f.params.map (·.name))[i]? = some x) : (ofFunction f).cell? x = some i := by
  rw [ofFunction_eq, declsOf, addDecls_append]
  refine cell?_addDecls ?_ _
  have := cell?_addDecls_scalars (s := {}) hnodup (fun _ _ => rfl) i x hx
  simpa [Function.comp_def] using this

end Workbench.Bytecode.Slots
