import Workbench.Program.Walk
import Workbench.Proofs.ArrayLayout
import Workbench.Proofs.CallFree
import Workbench.Proofs.FramePlaces
import Workbench.Proofs.Generation

/-!
# Variables divide the frame

Every cell of a frame is one of exactly one variable: a parameter has the cell with its number, an array of `n` elements
has `n` cells in a row, and any other variable has one (`slots_partition`). Code is generated with these numbers, and a
store instruction that comes from a statement names a cell of a variable that the statement stores in
(`View.stmts_stores`). So a store in one variable leaves the others alone.
-/

namespace Workbench

/-! ### What is stored in by name -/

section Stored

variable {α : Type}

namespace Stmt

/-- Only what bare blocks declare is left out, and none is read. -/
theorem AllRead.allDecls_eq {ss : List (Stmt α)} : AllRead ss → allDecls ss = decls ss := by
  induction ss using Stmt.induction with
  | nil => exact fun _ => rfl
  | cond test yes no ss ihy ihn ih =>
    intro h
    cases no with
    | none => rw [allDecls, allDeclsOf, decls, declsOf, ihy h.yes, ih h.tail]
    | some no => rw [allDecls, allDeclsOf, decls, declsOf, ihy h.yes, ihn no rfl h.no, ih h.tail]
  | loop test body ss ihb ih =>
    intro h
    rw [allDecls, allDeclsOf, decls, declsOf, ihb h.body, ih h.tail]
  | block body ss _ _ => exact fun h => absurd h AllRead.not_block
  | decl _ _ _ ss ih | expr _ ss ih | assign _ _ ss ih | print _ _ ss ih | ret _ ss ih | asm _ ss ih | vmAsm _ ss ih =>
    intro h
    rw [allDecls, decls, ih h.tail]
    rfl

end Stmt

end Stored

end Workbench

namespace Workbench.Bytecode

open Machine (Instr Op Image State step)
open Typing (Note)

/-! ### Store instructions -/

/-- An instruction that stores in a cell that it names. -/
def IsStore (i : Instr) : Prop := i.op = .storeLocal ∨ i.op = .storeLocalIdx

/-- An instruction that stores in a cell of the variable: in one of its cells, or in an element of it. -/
inductive Slots.StoresIn (s : Slots) (x : String) : Instr → Prop
  | cell {c : Nat} (howns : s.Owns x c) : s.StoresIn x ⟨.storeLocal, some (c : Int)⟩
  | element {base n : Nat} (hholds : s.Holds x base n) : s.StoresIn x ⟨.storeLocalIdx, some (base : Int)⟩

/-- If the instruction is a store, it stores in one of the variables. -/
def Slots.StoresAmong (s : Slots) (xs : List String) (i : Instr) : Prop := IsStore i → ∃ x ∈ xs, s.StoresIn x i

theorem Slots.Owns.first {s : Slots} (hs : s.Framed) {x : String} {k : Nat} (hk : s.cell? x = some k) : s.Owns x k := by
  refine ⟨k, hk, Nat.le_refl k, ?_⟩
  have hpos := hs.pos x
  omega

theorem Slots.Emits.storesAmong {s : Slots} {neg : Prop} {xs ds : List String} {i : Instr} (h : s.Emits neg xs ds i)
    (hs : s.Framed) (hds : ∀ x ∈ ds, (s.cell? x).isSome = true) : s.StoresAmong xs i := by
  intro hstore
  cases h with
  | op ho =>
    have hall : ∀ o ∈ bareOps, ¬(o = .storeLocal ∨ o = .storeLocalIdx) := by decide
    exact absurd hstore (hall _ ho)
  | push | load | loadElement => exact absurd hstore (by simp [IsStore])
  | store hx hk => exact ⟨_, hx, .cell (.first hs hk)⟩
  | @declare x j hx hd hj =>
    obtain ⟨k, hk⟩ := Option.isSome_iff_exists.1 (hds x hd)
    rw [hk, Option.getD_some]
    exact ⟨x, hx, .cell ⟨k, hk, by omega, by omega⟩⟩
  | storeElement hx hbase =>
    unfold arrayCell? at hbase
    split at hbase
    · rename_i hlen
      obtain ⟨n, hn⟩ := Option.isSome_iff_exists.1 hlen
      exact ⟨_, hx, .element ⟨hbase, hn⟩⟩
    · cases hbase

/-- The stores in the code of statements go to the variables that the statements store in. -/
theorem View.stmts_stores {v : View} (hslots : v.slots.Framed) (ss : List (Stmt Note)) {xs : List String}
    (hstored : Stmt.stored ss ⊆ xs) (hdecls : ∀ d ∈ Stmt.decls ss, (v.slots.cell? d.1).isSome = true) :
    (v.stmts ss).All (v.slots.StoresAmong xs) ∧ (v.stmts ss).Fits fun _ => True := by
  have hemits : v.ClosedAll (v.slots.Emits True xs ((Stmt.decls ss).map (·.1)))
      (Shape.All (v.slots.StoresAmong xs)) :=
    { v.closed_all _ with instr := fun i hi => hi.storesAmong hslots (by simpa using hdecls) }
  refine ⟨hemits.stmts ss (.inl trivial) hstored (fun d => List.mem_map_of_mem) (.inl ?_),
    View.stmts_fits (fun _ _ => trivial) ss⟩
  refine ⟨fun _ => trivial, fun _ _ => trivial, fun newline hstore => ?_⟩
  cases newline <;> simp [IsStore, printOp] at hstore

theorem Shape.storesAmong_code {slots : Slots} {xs : List String} (number : String → Nat) {s : Shape}
    (h : s.All (slots.StoresAmong xs) ∧ s.Fits fun _ => True) (p : Place) :
    ∀ i ∈ (s.code number p).code, slots.StoresAmong xs i := by
  intro i hi hstore
  cases Shape.written number h.1 h.2 p.pc p.string i hi with
  | plain _ hP => exact hP hstore
  | print newline => cases newline <;> simp [IsStore, printOp] at hstore
  | jump hop => rcases hop with rfl | rfl | rfl <;> simp [IsStore] at hstore
  | push | call | ret => simp [IsStore] at hstore

/-! ### Stores in a frame -/

/-- The frame was changed in cells of `x` only. -/
structure Slots.KeptOutside (s : Slots) (x : String) (old new : Array Int) : Prop where
  size : new.size = old.size
  others : ∀ z c, s.Owns z c → z ≠ x → new[c]? = old[c]?

theorem Slots.keptOutside_set {s : Slots} (hs : s.Sound) {x : String} {c : Nat} (hx : s.Owns x c) (cells : Array Int)
    (v : Int) : s.KeptOutside x cells (cells.setIfInBounds c v) where
  size := Array.size_setIfInBounds
  others := by
    intro z d hz hne
    refine Array.getElem?_setIfInBounds_ne ?_
    rintro rfl
    exact hne (hz.unique hs hx)

/-- What store instructions do in the frame of a function: one that stores in a cell of a variable, and one that stores
in an element of an array, at an index within it. -/
structure Slots.StoresApart (s : Slots) : Prop where
  cell : ∀ x c, s.Owns x c → ∀ (img : Image) (st : State) v rest, st.locals.size = s.size →
    img.fetch st.pc = .ok ⟨.storeLocal, some (c : Int)⟩ → st.stack = v :: rest →
    ∃ new, step img st = .next ⟨st.pc + 1, rest, new, st.calls⟩ none ∧ new[c]? = some v ∧ s.KeptOutside x st.locals new
  element : ∀ a base n, s.Holds a base n → ∀ (img : Image) (st : State) (j : Nat) v rest, st.locals.size = s.size →
    img.fetch st.pc = .ok ⟨.storeLocalIdx, some (base : Int)⟩ → st.stack = (j : Int) :: v :: rest → j < n →
    ∃ new, step img st = .next ⟨st.pc + 1, rest, new, st.calls⟩ none ∧ new[base + j]? = some v ∧
      s.KeptOutside a st.locals new

theorem Slots.Sound.storesApart {s : Slots} (hs : s.Sound) : s.StoresApart where
  cell := by
    intro x c howns img st v rest hsize hfetch hstack
    have hlt := howns.lt hs
    refine ⟨st.locals.setIfInBounds c v, ?_, ?_, keptOutside_set hs howns st.locals v⟩
    · rw [Machine.step_of_fetch hfetch]
      simp only [Machine.execute, State.pop₁, hstack, Machine.withArg, State.store, Machine.cellAt_ofNat (hsize ▸ hlt)]
    · exact Array.getElem?_setIfInBounds_self_of_lt (hsize ▸ hlt)
  element := by
    intro a base n hholds img st j v rest hsize hfetch hstack hj
    have howns : s.Owns a (base + j) := hholds.owns_iff.2 (by omega)
    have hlt := howns.lt hs
    refine ⟨_, ?_, Array.getElem?_setIfInBounds_self_of_lt (hsize ▸ hlt), keptOutside_set hs howns st.locals v⟩
    rw [step_storeElement hfetch hstack, if_pos (by omega)]
    norm_cast

/-! ### The partition -/

namespace Slots

variable {α : Type} {f : Function α}

theorem lookup_declsOf (f : Function α) (x : String) : (declsOf f).lookup x =
    if x ∈ f.params.map (·.name) then some none else (Stmt.decls f.body).lookup x := by
  rw [declsOf, List.lookup_append]
  induction f.params with
  | nil => simp
  | cons p ps ih =>
    by_cases hx : x = p.name
    · simp [hx]
    · rw [List.map_cons, List.lookup_cons, beq_false_of_ne hx]
      simpa [hx] using ih

/-- The variables of a function divide its frame. A parameter has the cell with its number. Other variables have as many
cells as the first declaration says: `n` if it writes an array type of length `n`, and one if not. -/
structure Divide (s : Slots) (f : Function α) : Prop where
  params : ∀ i p, f.params[i]? = some p → s.cell? p.name = some i ∧ s.width p.name = 1
  declared : ∀ x, (s.cell? x).isSome = true ↔ x ∈ (declsOf f).map (·.1)
  width : ∀ x, x ∉ f.params.map (·.name) →
    s.width x = (((Stmt.decls f.body).lookup x).bind (·.bind Ty.arrayLength?)).getD 1
  apart : ∀ x y c, s.Owns x c → s.Owns y c → x = y
  covered : ∀ c, c < s.size ↔ ∃ x, s.Owns x c

theorem divide_ofFunction (hparams : (f.params.map (·.name)).Nodup) : (ofFunction f).Divide f where
  params := by
    intro i p hp
    have hname : (f.params.map (·.name))[i]? = some p.name := by rw [List.getElem?_map, hp, Option.map_some]
    constructor
    · exact cell?_param hparams hname
    · rw [Slots.width, length?_ofFunction, lookup_declsOf, if_pos (List.mem_of_getElem? hname)]
      rfl
  declared := isSome_cell?_iff f
  width := by
    intro x hx
    rw [Slots.width, length?_ofFunction, lookup_declsOf, if_neg hx]
  apart := fun x y c hx => hx.unique (sound_ofFunction f)
  covered := by
    intro c
    constructor
    · exact covered_ofFunction f c
    · rintro ⟨x, hx⟩
      exact hx.lt (sound_ofFunction f)

end Slots

/-- **Variables divide the frame.** The cells of the variables are pairwise disjoint and together are the frame. A store
instruction in the code of statements names the cells of a variable that the statements store in; a store in a variable,
at an index within it if it is an array, succeeds and leaves the cells of all others as they are. -/
theorem slots_partition {f : Function Note} (hparams : (f.params.map (·.name)).Nodup) :
    (Slots.ofFunction f).Divide f ∧ (Stmt.AllRead f.body → Stmt.allDecls f.body = Stmt.decls f.body) ∧
    (∀ (env : Env) p ss c, env.slots = Slots.ofFunction f → Stmt.decls ss ⊆ Slots.declsOf f →
      stmtsCode env p ss = .ok c → ∀ i ∈ c.code, IsStore i →
        ∃ x ∈ Stmt.stored ss, (Slots.ofFunction f).StoresIn x i) ∧
    (Slots.ofFunction f).StoresApart := by
  refine ⟨Slots.divide_ofFunction hparams, Stmt.AllRead.allDecls_eq, ?_, (Slots.sound_ofFunction f).storesApart⟩
  intro env p ss c henv hdecls hcode
  have hcells : ∀ d ∈ Stmt.decls ss, (env.view.slots.cell? d.1).isSome = true := by
    intro d hd
    rw [Env.view_slots, henv, Slots.isSome_cell?_iff]
    exact List.mem_map_of_mem (hdecls hd)
  have hframed : env.view.slots.Framed := by
    rw [Env.view_slots, henv]
    exact Slots.framed_ofFunction f
  rw [← henv, stmtsCode_eq env.numbered ss p c hcode]
  exact Shape.storesAmong_code env.number (View.stmts_stores hframed ss (List.Subset.refl _) hcells) p

/-- Has a parameter, an array in a branch and a variable after it. -/
def shelf : Function Note where
  name := "shelf"
  params := [⟨"n", "int"⟩]
  returnType := none
  body := [
    .cond (.lit (some .bool) (.bool true)) [.decl "a" (some "int[3]") none] none,
    .decl "b" (some "int") none,
    .assign (.index (some .int) (.var (some (.array "int[3]" 3)) "a") (.var (some .int) "n"))
      (.lit (some .int) (.int 7))]

/-- The frame of `shelf`: an array of three cells between a parameter and a variable, which a store in the last element
leaves alone. -/
theorem shelf_divided : (shelf.params.map (·.name)).Nodup ∧ (Slots.ofFunction shelf).Holds "a" 1 3 ∧
    (∀ c, c < 5 ↔ ∃ x, (Slots.ofFunction shelf).Owns x c) ∧
    ∃ new, step ⟨#[⟨.storeLocalIdx, some 1⟩], #[], []⟩ ⟨0, [2, 7], #[5, 0, 0, 0, 9], []⟩ = .next ⟨1, [], new, []⟩ none ∧
      new[3]? = some 7 ∧ (Slots.ofFunction shelf).KeptOutside "a" #[5, 0, 0, 0, 9] new := by
  have hparams : (shelf.params.map (·.name)).Nodup := by decide
  have hsize : (Slots.ofFunction shelf).size = 5 := by decide +kernel
  have hholds : (Slots.ofFunction shelf).Holds "a" 1 3 := ⟨by decide +kernel, by decide +kernel⟩
  obtain ⟨hdivide, -, -, hstores⟩ := slots_partition hparams
  refine ⟨hparams, hholds, hsize ▸ hdivide.covered, ?_⟩
  exact hstores.element "a" 1 3 hholds _ ⟨0, [2, 7], #[5, 0, 0, 0, 9], []⟩ 2 7 [] hsize.symm rfl rfl (by decide)

end Workbench.Bytecode
