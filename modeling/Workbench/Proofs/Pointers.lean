import Mathlib.Logic.Function.Basic
import Workbench.Proofs.FrameTurns

/-!
# Pointers within a frame

A cell is reached by the name of its variable, by an array and an index, or by its number, which is what the address of
a variable or of an element is. Within one frame the three ways agree. As long as statements only store in variables, in
elements and through pointers that point somewhere (`Slots.Update`), each of them changes one spot, and a load through a
pointer gives what the spot that it points to holds (`Env.Tracks`, `pointers_track`). The number of an element is the
sum of two numbers modulo `2 ^ 16`, so this needs a frame of at most that many cells.
-/

namespace Workbench

/-- Where pointers point, after `t` was written. If it is a variable, it now points to `aim`. -/
def Spot.aimed (aims : String → Option Spot) (t : Spot) (aim : Option Spot) : String → Option Spot :=
  match t with
  | .var p => Function.update aims p aim
  | .element _ _ => aims

namespace Bytecode

open Machine (Fault Op State wrap)
open Typing (Note)

/-! ### Targets -/

/-- The expression stands for the spot in a frame with the cells `cells`. -/
inductive Slots.Denotes (s : Slots) (cells : Array Int) : Expr Note → Spot → Prop
  | var (a : Note) {x : String} {c : Nat} (hx : s.spot? (.var x) = some c) : s.Denotes cells (.var a x) (.var x)
  | element (a b : Note) {x : String} {i : Expr Note} {j c : Nat} (hi : i.IsNumber)
      (hj : i.number s cells = .ok (j : Int)) (hx : s.spot? (.element x j) = some c) :
      s.Denotes cells (.index a (.var b x) i) (.element x j)

/-- The statement writes a value in a spot, or has a fault instead. It stores a plain value in a variable or a number in
an element; or it stores in a variable the address of a spot, and the variable then points there, or another variable,
and it then points where that one does, or what is loaded through a variable that points to a spot; or it stores a
number through such a variable, or through the address of a spot. -/
inductive Slots.Update (s : Slots) (cells : Array Int) (aims : String → Option Spot) :
    Stmt Note → Spot → Except Fault Int → Option Spot → Prop
  | set {x : String} {e : Expr Note} {st : Stmt Note} {c : Nat} (hst : Stmt.Lets x e st)
      (hx : s.spot? (.var x) = some c) (he : e.IsPlain) : s.Update cells aims st (.var x) (e.number s cells) none
  | setElement (a b : Note) {x : String} {i e : Expr Note} {j : Nat}
      (hx : s.Denotes cells (.index a (.var b x) i) (.element x j)) (he : e.IsNumber) :
      s.Update cells aims (.assign (.index a (.var b x) i) e) (.element x j) (e.number s cells) none
  | aim (a : Note) {p : String} {u : Expr Note} {t : Spot} {st : Stmt Note} {c d : Nat}
      (hst : Stmt.Lets p (.addr a u) st) (hp : s.spot? (.var p) = some d) (hu : s.Denotes cells u t)
      (ht : s.spot? t = some c) : s.Update cells aims st (.var p) (.ok c) (some t)
  | copy (a : Note) {p p' : String} {st : Stmt Note} {c d : Nat} (hst : Stmt.Lets p (.var a p') st)
      (hp : s.spot? (.var p) = some c) (hp' : s.spot? (.var p') = some d) :
      s.Update cells aims st (.var p) (.ok (s.get cells (.var p'))) (aims p')
  | load (a b : Note) {x p : String} {t : Spot} {st : Stmt Note} {c : Nat}
      (hst : Stmt.Lets x (.call a "load16" [.var b p]) st) (hx : s.spot? (.var x) = some c) (hp : aims p = some t) :
      s.Update cells aims st (.var x) (.ok (s.get cells t)) none
  | store (a b : Note) {p : String} {t : Spot} {e : Expr Note} (hp : aims p = some t) (he : e.IsNumber) :
      s.Update cells aims (.expr (.call a "store16" [.var b p, e])) t (e.number s cells) none
  | storeAt (a b : Note) {u e : Expr Note} {t : Spot} (hu : s.Denotes cells u t) (he : e.IsNumber) :
      s.Update cells aims (.expr (.call a "store16" [.addr b u, e])) t (e.number s cells) none

/-- A load through a pointer gives what the spot holds that it points to. -/
def Env.Sees (env : Env) (cells : Array Int) (aims : String → Option Spot) : Prop :=
  ∀ p t, aims p = some t → ∀ a b : Note,
    env.Computes cells (.call a "load16" [.var b p]) (env.slots.get cells t)

/-- As long as each statement is an update, it does to the frame what the update says, and loads through pointers see
it, before, between and after the statements. -/
def Env.Tracks (env : Env) : List (Stmt Note) → (cells : Array Int) → (aims : String → Option Spot) → Prop
  | [], cells, aims => env.Sees cells aims
  | st :: ss, cells, aims => env.Sees cells aims ∧
    ∀ t r aim, env.slots.Update cells aims st t r aim →
      match r with
      | .ok v => ∃ cells', env.Turns [st] cells (.ok cells') ∧ env.slots.Puts t v cells cells' ∧
          env.Tracks ss cells' (t.aimed aims aim)
      | .error f => env.Turns [st] cells (.error f)

/-! ### Loads and stores by number -/

section Code

variable {env : Env} {cells : Array Int} {e u : Expr Note} {t : Spot} {x : String} {c : Nat}

theorem Slots.Denotes.exists_spot {s : Slots} (h : s.Denotes cells u t) : ∃ c, s.spot? t = some c := by
  cases h with
  | var _ hx => exact ⟨_, hx⟩
  | element _ _ _ _ hx => exact ⟨_, hx⟩

theorem Env.yields_addr (hslots : env.slots.Framed) (hsize : cells.size = env.slots.size)
    (hsmall : env.slots.size ≤ 65536) (hu : env.slots.Denotes cells u t) (ht : env.slots.spot? t = some c) (a : Note) :
    env.Yields cells (.addr a u) (.ok c) := by
  have hlt := Slots.lt_of_spot? hslots.toSound ht
  cases hu with
  | @var b x _ hx =>
    obtain ⟨hcell, -⟩ := Slots.spot?_var.1 ht
    have hshape : env.view.expr (.addr a (.var b x)) = .push c := by simp [View.expr, hcell]
    exact ⟨by rw [hshape]; rfl, by rw [hshape]; rfl, fun _ _ _ _ => by rw [hshape]; rfl⟩
  | @element b b' x i j _ hi hj hx =>
    obtain ⟨base, n, hholds, hjn, rfl⟩ := Slots.spot?_element.1 ht
    have hindex := Env.yields_plain hslots hsize hi.isPlain
    have hwrap : wrap (j + base) = (base + j) := by
      rw [wrap, Int.emod_eq_of_lt (by omega) (by omega)]
      omega
    have hcell : env.view.arrayCell? (.var b' x) = some base := hholds.arrayCell?
    have hshape : env.view.expr (.addr a (.index b (.var b' x) i)) =
        .seq (env.view.expr i) (.seq (.push base) (.op .add)) := by
      rw [View.expr, hcell]
    rw [hj] at hindex
    constructor
    · rw [hshape]
      exact ⟨hindex.fits, rfl, rfl⟩
    · rw [hshape]
      simp [Shape.strings, hindex.strings, Shape.push, Shape.op]
    · intro lib go k stack
      rw [hshape, Shape.run, hindex.run]
      show Result.pure (Act.mk (wrap (j + base) :: stack) cells) = _
      rw [hwrap]
      rfl

theorem Env.Yields.load (hc : c < cells.size) (h : env.Yields cells u (.ok c)) (a : Note) :
    env.Yields cells (.call a "load16" [u]) (.ok (cells.getD c 0)) := by
  have hshape : env.view.expr (.call a "load16" [u]) = .seq (env.view.expr u) (.op .loadIndirect) := rfl
  constructor
  · rw [hshape]
    exact ⟨h.fits, rfl⟩
  · rw [hshape]
    simp [Shape.strings, h.strings, Shape.op]
  · intro lib go k stack
    have hload : Act.perform lib ⟨.loadIndirect, none⟩ ⟨c :: stack, cells⟩ =
        .pure ⟨cells.getD c 0 :: stack, cells⟩ := by
      simp [Act.perform, Machine.execute, State.pop₁, State.hasCell, hc, State.push, Result.pure]
    rw [hshape, Shape.run, h.run]
    exact hload

/-- A store through a number sets the cell with that number, and leaves a zero on the stack. -/
theorem Env.Yields.turns_store {r : Except Fault Int} (hc : c < cells.size) (h : env.Yields cells u (.ok c))
    (he : env.Yields cells e r) (a : Note) :
    env.Turns [.expr (.call a "store16" [u, e])] cells (r.map (cells.setIfInBounds c ·)) := by
  have hshape : env.view.stmt (.expr (.call a "store16" [u, e])) = .drop (.seq (env.view.expr u)
      (.seq (env.view.expr e) (.seq (.op .storeIndirect) (.push 0)))) := rfl
  refine Env.turns_of_run (fun p => ⟨_, rfl⟩) ?_ ?_ ?_
  · rw [hshape]
    exact ⟨h.fits, he.fits, rfl, rfl⟩
  · rw [hshape]
    simp [Shape.strings, h.strings, he.strings, Shape.op, Shape.push]
  · intro lib go k stack
    rw [hshape, Shape.run, Shape.run, h.run]
    simp only [Result.ofValue, Result.pure_bind, Act.push, Shape.run, he.run]
    cases r with
    | error f => exact ⟨rfl, rfl⟩
    | ok v =>
      have hstore : Act.perform lib ⟨.storeIndirect, none⟩ ⟨v :: c :: stack, cells⟩ =
          .pure ⟨stack, cells.setIfInBounds c v⟩ := by
        simp [Act.perform, Machine.execute, State.pop₂, State.hasCell, hc, Result.pure]
      simp only [Result.pure_bind, Shape.op, Shape.run, hstore]
      exact ⟨rfl, [0], rfl⟩

theorem Env.Yields.turns_element {r : Except Fault Int} (hslots : env.slots.Framed)
    (hsize : cells.size = env.slots.size) (he : env.Yields cells e r) {a b : Note} {i : Expr Note} {j : Nat}
    (hx : env.slots.Denotes cells (.index a (.var b x) i) (.element x j))
    (hc : env.slots.spot? (.element x j) = some c) :
    env.Turns [.assign (.index a (.var b x) i) e] cells (r.map (cells.setIfInBounds c ·)) := by
  obtain ⟨base, n, hholds, hj, rfl⟩ := Slots.spot?_element.1 hc
  have hlt : base + j < cells.size := hsize ▸ Slots.lt_of_spot? hslots.toSound hc
  cases hx with
  | element _ _ hi hnumber _ =>
    have hindex := Env.yields_plain hslots hsize hi.isPlain
    rw [hnumber] at hindex
    have hcell : env.view.arrayCell? (.var b x) = some base := hholds.arrayCell?
    have hshape : env.view.stmt (.assign (.index a (.var b x) i) e) = .seq (env.view.expr e)
        (.seq (env.view.expr i) (.instr ⟨.storeLocalIdx, some base⟩)) := by
      rw [View.stmt, View.assign, hcell]
    refine Env.turns_of_run (fun p => ⟨_, rfl⟩) ?_ ?_ ?_
    · rw [hshape]
      exact ⟨he.fits, hindex.fits, rfl⟩
    · rw [hshape]
      simp [Shape.strings, hindex.strings, he.strings]
    · intro lib go k stack
      rw [hshape, Shape.run, he.run]
      cases r with
      | error f => exact ⟨rfl, rfl⟩
      | ok v =>
        have hstore : Act.perform lib ⟨.storeLocalIdx, some base⟩ ⟨j :: v :: stack, cells⟩ =
            .pure ⟨stack, cells.setIfInBounds (base + j) v⟩ := perform_storeElement ⟨stack, cells⟩ v hlt
        simp only [Result.ofValue, Result.pure_bind, Act.push, Shape.run, hindex.run, hstore]
        exact ⟨rfl, [], rfl⟩

end Code

/-! ### Runs -/

/-- Variables that point to a spot hold the number of its cell. -/
structure Env.Aimed (env : Env) (cells : Array Int) (aims : String → Option Spot) : Prop where
  size : cells.size = env.slots.size
  points : ∀ p t, aims p = some t → ∃ c d, env.slots.spot? (.var p) = some d ∧ env.slots.spot? t = some c ∧
    env.slots.get cells (.var p) = (c : Int)

section Aimed

variable {env : Env} {cells cells' : Array Int} {aims : String → Option Spot} {st : Stmt Note} {t : Spot}
  {r : Except Fault Int} {aim : Option Spot}

theorem Env.Aimed.yields (h : env.Aimed cells aims) (hslots : env.slots.Framed) {p : String} (hp : aims p = some t)
    (a : Note) : ∃ c, env.slots.spot? t = some c ∧ c < cells.size ∧ env.Yields cells (.var a p) (.ok c) := by
  obtain ⟨c, d, hd, hc, hvalue⟩ := h.points p t hp
  have hyields := Env.yields_var hslots h.size hd a
  rw [hvalue] at hyields
  exact ⟨c, hc, h.size ▸ Slots.lt_of_spot? hslots.toSound hc, hyields⟩

theorem Env.Aimed.sees (h : env.Aimed cells aims) (hslots : env.slots.Framed) : env.Sees cells aims := by
  intro p t hp a b
  obtain ⟨c, hc, hlt, hyields⟩ := h.yields hslots hp b
  rw [Slots.get_eq hc]
  exact (hyields.load hlt a).computes

theorem Env.Aimed.turns (h : env.Aimed cells aims) (hslots : env.slots.Framed) (hsmall : env.slots.size ≤ 65536)
    (hup : env.slots.Update cells aims st t r aim) :
    ∃ c, env.slots.spot? t = some c ∧ env.Turns [st] cells (r.map (cells.setIfInBounds c ·)) := by
  have hsize := h.size
  cases hup with
  | set hst hx he =>
    have hyields := Env.yields_plain hslots hsize he
    exact ⟨_, hx, hyields.turns_var hslots hsize hx hst⟩
  | setElement a b hx he =>
    obtain ⟨c, hc⟩ := hx.exists_spot
    exact ⟨c, hc, (Env.yields_plain hslots hsize he.isPlain).turns_element hslots hsize hx hc⟩
  | aim a hst hp hu ht =>
    have hyields := Env.yields_addr hslots hsize hsmall hu ht a
    exact ⟨_, hp, hyields.turns_var hslots hsize hp hst⟩
  | copy a hst hp hp' =>
    have hyields := Env.yields_var hslots hsize hp' a
    exact ⟨_, hp, hyields.turns_var hslots hsize hp hst⟩
  | load a b hst hx hp =>
    obtain ⟨c, hc, hlt, hyields⟩ := h.yields hslots hp b
    rw [Slots.get_eq hc]
    exact ⟨_, hx, (hyields.load hlt a).turns_var hslots hsize hx hst⟩
  | store a b hp he =>
    obtain ⟨c, hc, hlt, hyields⟩ := h.yields hslots hp b
    exact ⟨c, hc, hyields.turns_store hlt (Env.yields_plain hslots hsize he.isPlain) a⟩
  | storeAt a b hu he =>
    obtain ⟨c, hc⟩ := hu.exists_spot
    have hlt : c < cells.size := hsize ▸ Slots.lt_of_spot? hslots.toSound hc
    have hyields := Env.yields_addr hslots hsize hsmall hu hc b
    exact ⟨c, hc, hyields.turns_store hlt (Env.yields_plain hslots hsize he.isPlain) a⟩

/-- A variable that an update makes point to a spot gets the number of its cell. -/
theorem Env.Aimed.exists_address (h : env.Aimed cells aims) {v : Int} {u : Spot}
    (hup : env.slots.Update cells aims st t (.ok v) (some u)) :
    ∃ p c d, t = .var p ∧ env.slots.spot? (.var p) = some d ∧ env.slots.spot? u = some c ∧ v = c := by
  generalize hr : Except.ok v = r at hup
  generalize ha : some u = aim at hup
  cases hup with
  | set | setElement | load | store | storeAt => cases ha
  | aim a hst hp hu ht =>
    cases hr
    cases ha
    exact ⟨_, _, _, rfl, hp, ht, rfl⟩
  | copy a hst hp hp' =>
    cases hr
    obtain ⟨c, d, hd, hc, hvalue⟩ := h.points _ _ ha.symm
    exact ⟨_, c, _, rfl, hp, hc, hvalue⟩

/-- After an update, what pointed to a spot still does, unless it was written. -/
theorem Env.Aimed.puts (h : env.Aimed cells aims) {v : Int} (hup : env.slots.Update cells aims st t (.ok v) aim)
    (hputs : env.slots.Puts t v cells cells') : env.Aimed cells' (t.aimed aims aim) where
  size := hputs.size.trans h.size
  points := by
    -- Only the variable that was written points elsewhere, and all others hold what they held.
    have hkept p u (hne : .var p ≠ t) (hp : aims p = some u) : ∃ c d,
        env.slots.spot? (.var p) = some d ∧ env.slots.spot? u = some c ∧ env.slots.get cells' (.var p) = c := by
      obtain ⟨c, d, hd, hc, hvalue⟩ := h.points p u hp
      exact ⟨c, d, hd, hc, (hputs.others _ hne).trans hvalue⟩
    intro p u hp
    cases t with
    | element a i => exact hkept p u (by simp) hp
    | var x =>
      by_cases hpx : p = x
      · subst hpx
        rw [Spot.aimed, Function.update_self] at hp
        subst hp
        obtain ⟨p', c, d, heq, hd, hc, rfl⟩ := h.exists_address hup
        cases heq
        exact ⟨c, d, hd, hc, hputs.self⟩
      · rw [Spot.aimed, Function.update_of_ne hpx] at hp
        exact hkept p u (by simp [hpx]) hp

theorem Env.Aimed.tracks (hslots : env.slots.Framed) (hsmall : env.slots.size ≤ 65536) (ss : List (Stmt Note)) :
    ∀ {cells aims}, env.Aimed cells aims → env.Tracks ss cells aims := by
  induction ss with
  | nil => exact fun h => h.sees hslots
  | cons st ss ih =>
    intro cells aims h
    refine ⟨h.sees hslots, fun t r aim hup => ?_⟩
    obtain ⟨c, hc, hturns⟩ := h.turns hslots hsmall hup
    cases r with
    | error f => exact hturns
    | ok v =>
      have hputs := Slots.puts_set hslots.toSound h.size hc v
      exact ⟨_, hturns, hputs, ih (h.puts hup hputs)⟩

end Aimed

/-- **Pointers within a frame.** Whatever is stored in variables, in elements within their arrays, through pointers to
spots and through the addresses of spots, in any order, each store gives its spot the value that the expression had and
changes no other one, and a load through a variable gives the value of the spot whose address it was given last. -/
theorem pointers_track {source : String} {prog : Program Note} {obj : Object} (hprog : checkedProgram source = .ok prog)
    (hobj : emit prog = .ok obj) {k : Nat} {f : Function Note} (hf : prog.functions[k]? = some f)
    (hsmall : (Slots.ofFunction f).size ≤ 65536) {env : Env} (henv : env.slots = Slots.ofFunction f) {s : State}
    {ks : List Nat} (hactive : obj.image.Active s (k :: ks)) :
    (∀ x w, (Slots.declsOf f).lookup x = some w →
      match w.bind Ty.arrayLength? with
      | none => ∃ c, env.slots.spot? (.var x) = some c
      | some n => ∀ i < n, ∃ c, env.slots.spot? (.element x i) = some c) ∧
    ∀ ss, env.Tracks ss s.locals fun _ => none := by
  rw [henv]
  constructor
  · intro x w hx
    split
    · exact Slots.exists_spot_of_lookup hx ‹_›
    · rename_i n hn
      obtain ⟨t, rfl, ht⟩ := Option.bind_eq_some_iff.1 hn
      obtain ⟨base, hholds⟩ := Slots.exists_holds_of_lookup hx ht
      exact fun i hi => ⟨base + i, Slots.spot?_element.2 ⟨base, n, hholds, hi, rfl⟩⟩
  · intro ss
    refine Env.Aimed.tracks (henv ▸ Slots.framed_ofFunction f) (henv ▸ hsmall) ss ⟨?_, ?_⟩
    · rw [henv, frame_size hprog hobj hf hactive]
    · intro p t hp
      cases hp

def storeThrough : String := "fn main(): int \x7b let x: int; let p = &x; store16(p, 5); return x; \x7d"

/-- In the first frame of `storeThrough`, a variable is aimed at another one, stored through and loaded through. -/
theorem storeThrough_tracks : ∃ prog f obj, checkedProgram storeThrough = .ok prog ∧ emit prog = .ok obj ∧
    prog.functions[0]? = some f ∧ (Slots.ofFunction f).size ≤ 65536 ∧
    obj.image.Active (.start ⟨"main", 0, 2, 0⟩) [0] ∧
    ∀ env : Env, env.slots = Slots.ofFunction f → ∀ a b c d : Note, ∃ cells cells',
      env.Turns [.decl "p" none (some (.addr a (.var b "x")))] #[0, 0] (.ok cells) ∧
      env.Turns [.expr (.call c "store16" [.var d "p", .lit (some .int) (.int 5)])] cells (.ok cells') ∧
      env.slots.get cells' (.var "x") = 5 ∧ env.Computes cells' (.call a "load16" [.var b "p"]) 5 := by
  obtain ⟨prog, f, obj, hprog, hobj, hf, hdecls, hactive⟩ : ∃ prog f obj, checkedProgram storeThrough = .ok prog ∧
      emit prog = .ok obj ∧ prog.functions[0]? = some f ∧ Slots.declsOf f = [("x", some "int"), ("p", none)] ∧
      obj.image.Active (.start ⟨"main", 0, 2, 0⟩) [0] := by
    refine exists_started (by decide) ?_
    rw [checkedProgram, show Token.tokens storeThrough = _ from Token.tokens_ofList _]
    decide +kernel
  have hslots : Slots.ofFunction f = Slots.addDecls {} [("x", some "int"), ("p", none)] := by
    rw [Slots.ofFunction_eq, hdecls]
  have hsmall : (Slots.ofFunction f).size ≤ 65536 := by
    rw [hslots]
    decide +kernel
  refine ⟨prog, f, obj, hprog, hobj, hf, hsmall, hactive, fun env henv a b c d => ?_⟩
  have hx : env.slots.spot? (.var "x") = some 0 := by
    rw [henv, hslots]
    decide +kernel
  have hp : env.slots.spot? (.var "p") = some 1 := by
    rw [henv, hslots]
    decide +kernel
  have hnumber : (Expr.lit (some Ty.int) (.int 5)).IsNumber := ⟨rfl, [], [], .lit (.int 5)⟩
  obtain ⟨-, htracks⟩ := pointers_track hprog hobj hf hsmall henv hactive
  obtain ⟨cells, hturns, -, hnext⟩ := (htracks [.decl "p" none (some (.addr a (.var b "x"))),
    .expr (.call c "store16" [.var d "p", .lit (some .int) (.int 5)])]).2 _ _ _ (.aim a (.decl none) hp (.var b hx) hx)
  obtain ⟨cells', hturns', hputs, hsees⟩ := hnext.2 (.var "x") _ _ (.store c d (by simp [Spot.aimed]) hnumber)
  refine ⟨cells, cells', hturns, hturns', hputs.self, ?_⟩
  have hload := hsees "p" (.var "x") (by simp [Spot.aimed, Function.update]) a b
  rwa [hputs.self] at hload

end Bytecode

end Workbench
