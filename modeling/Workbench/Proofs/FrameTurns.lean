import Workbench.Proofs.FrameValues
import Workbench.Proofs.NamedStores
import Workbench.Proofs.Select

/-!
# What statements do to a frame

A frame is seen through its spots: the variables that are one cell, and the elements of arrays (`Spot`). No two spots
share a cell, so a store in one of them is read there and nowhere else (`Slots.puts_set`).

`Env.Yields` says what the code of an expression pushes, and `Env.Turns` what the code of statements makes of a frame,
wherever it stands.
-/

namespace Workbench

open Machine (Fault cellAt ofBool wrap)
open Typing (Note Signatures Scope HasType)

/-! ### Spots -/

/-- A variable that is one cell, or an element of an array. -/
inductive Spot where
  | var (x : String)
  | element (a : String) (i : Nat)
  deriving DecidableEq, Repr

/-- The variable that a spot belongs to. -/
def Spot.name : Spot → String
  | .var x => x
  | .element a _ => a

namespace Bytecode.Slots

/-- The cell of a spot of the frame. -/
def spot? (s : Slots) : Spot → Option Nat
  | .var x => match s.length? x with
    | some _ => none
    | none => s.cell? x
  | .element a i => match s.length? a with
    | some n => if i < n then (s.cell? a).map (· + i) else none
    | none => none

/-- What a spot holds; zero if it is none of the frame. -/
def get (s : Slots) (cells : Array Int) (t : Spot) : Int := ((s.spot? t).map (cells.getD · 0)).getD 0

/-- `new` is `old` with `v` in the spot `t`. -/
structure Puts (s : Slots) (t : Spot) (v : Int) (old new : Array Int) : Prop where
  size : new.size = old.size
  self : s.get new t = v
  others : ∀ u, u ≠ t → s.get new u = s.get old u

section Spots

variable {s : Slots} {x a : String} {i c : Nat} {t u : Spot} {cells : Array Int} {v : Int}

theorem spot?_var : s.spot? (.var x) = some c ↔ s.cell? x = some c ∧ s.length? x = none := by
  rw [spot?]
  cases s.length? x <;> simp

theorem spot?_element : s.spot? (.element a i) = some c ↔ ∃ base n, s.Holds a base n ∧ i < n ∧ c = base + i := by
  rw [spot?]
  constructor
  · intro h
    split at h
    · rename_i n hn
      split at h
      · obtain ⟨base, hbase, rfl⟩ := Option.map_eq_some_iff.1 h
        exact ⟨base, n, ⟨hbase, hn⟩, ‹_›, rfl⟩
      · cases h
    · cases h
  · rintro ⟨base, n, hholds, hi, rfl⟩
    simp [hholds.length, hholds.cell, hi]

theorem get_eq (h : s.spot? t = some c) : s.get cells t = cells.getD c 0 := by
  rw [get, h]
  rfl

theorem owns_of_spot? (h : s.spot? t = some c) : s.Owns t.name c := by
  cases t with
  | var x =>
    obtain ⟨hcell, hlength⟩ := spot?_var.1 h
    exact ⟨c, hcell, Nat.le_refl c, by simp [width, Spot.name, hlength]⟩
  | element a i =>
    obtain ⟨base, n, hholds, hi, rfl⟩ := spot?_element.1 h
    exact hholds.owns_iff.2 (by omega)

theorem lt_of_spot? (hs : s.Sound) (h : s.spot? t = some c) : c < s.size := (owns_of_spot? h).lt hs

theorem spot?_inj (hs : s.Sound) (ht : s.spot? t = some c) (hu : s.spot? u = some c) : t = u := by
  have hname : t.name = u.name := (owns_of_spot? ht).unique hs (owns_of_spot? hu)
  cases t with
  | var x =>
    obtain ⟨hcell, hlength⟩ := spot?_var.1 ht
    cases u with
    | var y => exact congrArg Spot.var hname
    | element b j =>
      obtain ⟨base, n, hholds, -, -⟩ := spot?_element.1 hu
      obtain rfl : x = b := hname
      rw [hholds.length] at hlength
      cases hlength
  | element a i =>
    obtain ⟨base, n, hholds, -, rfl⟩ := spot?_element.1 ht
    cases u with
    | var y =>
      obtain ⟨-, hlength⟩ := spot?_var.1 hu
      obtain rfl : a = y := hname
      rw [hholds.length] at hlength
      cases hlength
    | element b j =>
      obtain ⟨base', n', hholds', -, heq⟩ := spot?_element.1 hu
      obtain rfl : a = b := hname
      obtain rfl : base = base' := Option.some.inj (hholds.cell.symm.trans hholds'.cell)
      obtain rfl : i = j := by omega
      rfl

theorem puts_set (hs : s.Sound) (hsize : cells.size = s.size) (ht : s.spot? t = some c) (v : Int) :
    s.Puts t v cells (cells.setIfInBounds c v) where
  size := Array.size_setIfInBounds
  self := by
    have hlt : c < cells.size := hsize ▸ lt_of_spot? hs ht
    rw [get_eq ht, Array.getD_eq_getD_getElem?, Array.getElem?_setIfInBounds_self_of_lt hlt, Option.getD_some]
  others := by
    intro u hne
    cases hu : s.spot? u with
    | none =>
      rw [get, get, hu]
      rfl
    | some d =>
      have hcd : c ≠ d := by
        rintro rfl
        exact hne (spot?_inj hs hu ht)
      rw [get_eq hu, get_eq hu, Array.getD_eq_getD_getElem?, Array.getD_eq_getD_getElem?,
        Array.getElem?_setIfInBounds_ne hcd]

end Spots

end Bytecode.Slots

open Bytecode (Slots)

/-! ### Numbers in a frame -/

namespace Expr

/-- A value that is computed from variables, numbers and truth values. -/
def IsPlain (e : Expr Note) : Prop := e.plain = true ∧ ∃ table scope t, HasType table scope e t

/-- A number that is computed without calls. -/
def IsNumber (e : Expr Note) : Prop := e.callees = [] ∧ ∃ table scope, HasType table scope e .int

theorem plain_of_isArray {table : Signatures} {scope : Scope} {e : Expr Note} {t : Ty} (h : HasType table scope e t)
    (ht : t.isArray = true) (hcalls : e.callees = []) : e.plain = true := by
  cases h with
  | lit l => cases l <;> cases ht
  | var => rfl
  | unary _ hop => obtain ⟨rfl, rfl | rfl⟩ := Typing.unaryType_cases hop <;> cases ht
  | binary _ _ hop => obtain rfl | ⟨rfl, -⟩ := Typing.binaryType_cases hop <;> cases ht
  | index | addrVar | addrIndex => cases ht
  | push | pop | call => cases hcalls

theorem IsNumber.isPlain {e : Expr Note} (h : e.IsNumber) : e.IsPlain := by
  obtain ⟨hcalls, table, scope, ht⟩ := h
  refine ⟨?_, table, scope, _, ht⟩
  induction e using Expr.induction with
  | lit a l =>
    cases l with
    | int n => rfl
    | bool | str | none => cases ht
  | var => rfl
  | unary a op e ih =>
    cases ht with
    | unary ht hop =>
      obtain ⟨rfl, -⟩ := Typing.unaryType_cases hop
      exact ih hcalls ht
  | binary a op l r ihl ihr =>
    obtain ⟨hcallsl, hcallsr⟩ := List.append_eq_nil_iff.1 hcalls
    cases ht with
    | binary hl hr hop =>
      obtain h | ⟨-, ⟨rfl, rfl⟩, -⟩ := Typing.binaryType_cases hop
      · cases h
      exact (Bool.and_eq_true _ _).mpr ⟨ihl hcallsl hl, ihr hcallsr hr⟩
  | index a x i _ ih =>
    obtain ⟨hcallsx, hcallsi⟩ := List.append_eq_nil_iff.1 hcalls
    cases ht with
    | index hx harray hi => exact (Bool.and_eq_true _ _).mpr ⟨plain_of_isArray hx harray hcallsx, ih hcallsi hi⟩
  | addrVar | addrIndex | addr => cases ht
  | call => cases hcalls
  | hole => cases ht

end Expr

/-- The statement stores the value of an expression in a variable. -/
inductive Stmt.Lets (x : String) (e : Expr Note) : Stmt Note → Prop
  | assign (a : Note) : Lets x e (.assign (.var a x) e)
  | decl (w : Option String) : Lets x e (.decl x w (some e))

namespace Bytecode

open Machine (Instr Op Image State Frame Runs step)

section Run

variable {view : View} {lib : Library} {go : Nat → Shape → Act → Result Act} {k : Nat}

theorem perform_storeElement (a : Act) {base j : Nat} (v : Int) (h : base + j < a.locals.size) :
    ((a.push v).push (j : Int)).perform lib ⟨.storeLocalIdx, some (base : Int)⟩ =
      .pure { a with locals := a.locals.setIfInBounds (base + j) v } := by
  have hcell : 0 ≤ base + j ∧ (base + j : Int) < a.locals.size := by omega
  simp [Act.perform, Act.push, Machine.execute, State.pop₂, Machine.withArg, State.hasCell, hcell]
  norm_cast

end Run

/-! ### What code yields and turns frames into -/

/-- In a frame with the cells `cells` the code of the expression pushes the value of `r`, or stops with its fault, and
changes nothing. -/
structure Env.Yields (env : Env) (cells : Array Int) (e : Expr Note) (r : Except Fault Int) : Prop where
  fits : (env.view.expr e).Fits fun _ => False
  strings : (env.view.expr e).strings = []
  run : ∀ lib go k stack, (env.view.expr e).run lib go k ⟨stack, cells⟩ = .ofValue ⟨stack, cells⟩ r

/-- The code of the statements turns the cells `cells` into those of `r`, or stops with the fault of `r`: it can be
generated at any place, and where it stands in an image, over any operands and below any calls, the machine runs through
it and prints nothing. Statements may leave values on the stack. -/
def Env.Turns (env : Env) (ss : List (Stmt Note)) (cells : Array Int) (r : Except Fault (Array Int)) : Prop :=
  ∀ p, ∃ c, stmtsCode env p ss = .ok c ∧
    ∀ (img : Image) (stack : List Int) (calls : List Frame), img.Has p.pc c.code →
      match r with
      | .ok cells' => ∃ n left, Runs img calls.length n [] ⟨p.pc, stack, cells, calls⟩
          ⟨(p.after c).pc, left ++ stack, cells', calls⟩
      | .error f => ∃ n s s', Runs img calls.length n [] ⟨p.pc, stack, cells, calls⟩ s ∧ step img s = .fault f s'

/-- A run of a shape that turns the cells of a frame. -/
def Result.Turned (stack : List Int) (r : Except Fault (Array Int)) (res : Result Act) : Prop :=
  texts res.log = [] ∧ match r with
    | .ok cells => ∃ left, res.flow = .done ⟨left ++ stack, cells⟩
    | .error f => res.flow = .fault f

section Code

variable {env : Env} {cells cells' : Array Int} {e : Expr Note}

/-- An expression without calls and strings yields its value. -/
theorem Env.yields_plain (hslots : env.slots.Framed) (hsize : cells.size = env.slots.size) (he : e.IsPlain) :
    env.Yields cells e (e.number env.slots cells) := by
  obtain ⟨hplain, table, scope, t, ht⟩ := he
  obtain ⟨hfits, hstrings⟩ := shape_plain env.view hplain
  exact ⟨hfits, hstrings, fun _ _ => run_number ht hplain fun _ _ _ => hsize ▸ hslots.lt⟩

theorem Env.yields_var (hslots : env.slots.Framed) (hsize : cells.size = env.slots.size) {x : String} {c : Nat}
    (hx : env.slots.spot? (.var x) = some c) (a : Note) :
    env.Yields cells (.var a x) (.ok (env.slots.get cells (.var x))) := by
  obtain ⟨hcell, -⟩ := Slots.spot?_var.1 hx
  have hlt : c < cells.size := hsize ▸ hslots.lt hcell
  have hshape : env.view.expr (.var a x) = .instr ⟨.loadLocal, some c⟩ := by simp [View.expr, hcell]
  refine ⟨by rw [hshape]; rfl, by rw [hshape]; rfl, fun lib go k stack => ?_⟩
  rw [hshape, Slots.get_eq hx]
  exact Act.perform_loadLocal (by simp [Array.getElem?_eq_getElem hlt])

theorem Env.Yields.computes {v : Int} (h : env.Yields cells e (.ok v)) : env.Computes cells e v := by
  intro img p stack calls hcode
  rw [exprCode_eq env.numbered] at hcode ⊢
  obtain ⟨lib, go, hshows⟩ := Shape.shows h.fits (by simp [h.strings]) hcode stack cells calls
  rw [h.run] at hshows
  obtain ⟨n, t, hruns, rfl⟩ := hshows
  exact ⟨n, hruns⟩

variable {r : Except Fault (Array Int)} {ss ss' : List (Stmt Note)} {st : Stmt Note}

/-- What the shape of a statement does is what its code does. -/
theorem Env.turns_of_run (hcode : ∀ p, ∃ c, stmtCode env p st = .ok c)
    (hfits : (env.view.stmt st).Fits fun _ => False) (hstrings : (env.view.stmt st).strings = [])
    (hrun : ∀ lib go k stack, Result.Turned stack r ((env.view.stmt st).run lib go k ⟨stack, cells⟩)) :
    env.Turns [st] cells r := by
  intro p
  obtain ⟨c, hc⟩ := hcode p
  have hgenerated : stmtsCode env p [st] = .ok (c ++ .ofCode []) := by
    rw [stmtsCode, hc]
    rfl
  refine ⟨_, hgenerated, fun img stack calls hhas => ?_⟩
  have hshape := stmtsCode_eq env.numbered [st] p _ hgenerated
  rw [hshape] at hhas ⊢
  obtain ⟨lib, go, hshows⟩ :=
    Shape.shows (s := env.view.stmts [st]) ⟨hfits, trivial⟩ (by simp [View.stmts, Shape.strings, hstrings]) hhas
      stack cells calls
  have hbind : (env.view.stmts [st]).run lib go p.string ⟨stack, cells⟩ =
      (env.view.stmt st).run lib go p.string ⟨stack, cells⟩ := Result.bind_pure _
  rw [hbind] at hshows
  obtain ⟨hlog, hflow⟩ := hrun lib go p.string stack
  obtain ⟨n, t, hruns, hend⟩ := hshows
  rw [hlog] at hruns
  cases r with
  | ok cells' =>
    obtain ⟨left, hflow⟩ := hflow
    rw [hflow] at hend
    obtain rfl := hend
    exact ⟨n, left, hruns⟩
  | error f =>
    rw [hflow] at hend
    obtain ⟨u, hu⟩ := hend
    exact ⟨n, t, u, hruns, hu⟩

theorem stmtsCode_append : ∀ {p : Place} {c c' : Piece}, stmtsCode env p ss = .ok c →
    stmtsCode env (p.after c) ss' = .ok c' → stmtsCode env p (ss ++ ss') = .ok (c ++ c') := by
  induction ss with
  | nil =>
    intro p c c' h h'
    cases h
    exact h'
  | cons s ss ih =>
    intro p c c' h h'
    simp only [stmtsCode, bind_eq_ok, pure_eq_ok] at h
    obtain ⟨cs, hs, css, hss, rfl⟩ := h
    rw [Place.after_append] at h'
    simp only [List.cons_append, stmtsCode, bind_eq_ok, pure_eq_ok]
    exact ⟨cs, hs, css ++ c', ih hss h', (Piece.append_assoc _ _ _).symm⟩

theorem Env.Turns.nil : env.Turns [] cells (.ok cells) :=
  fun _ => ⟨_, rfl, fun _ _ _ _ => ⟨0, [], .refl le_rfl⟩⟩

theorem Env.Turns.append (h : env.Turns ss cells (.ok cells')) (h' : env.Turns ss' cells' r) :
    env.Turns (ss ++ ss') cells r := by
  intro p
  obtain ⟨c, hc, hrun⟩ := h p
  obtain ⟨c', hc', hrun'⟩ := h' (p.after c)
  refine ⟨c ++ c', stmtsCode_append hc hc', fun img stack calls hcode => ?_⟩
  obtain ⟨n, left, hruns⟩ := hrun img stack calls hcode.left
  have hrest := hrun' img (left ++ stack) calls hcode.right
  cases r with
  | ok cells'' =>
    obtain ⟨n', left', hruns'⟩ := hrest
    rw [Place.after_append]
    refine ⟨n + n', left' ++ left, ?_⟩
    rw [List.append_assoc]
    exact hruns.trans hruns'
  | error f =>
    obtain ⟨n', s, s', hruns', hstep⟩ := hrest
    exact ⟨n + n', s, s', hruns.trans hruns', hstep⟩

theorem Env.Yields.turns_var {r : Except Fault Int} (h : env.Yields cells e r) (hslots : env.slots.Framed)
    (hsize : cells.size = env.slots.size) {x : String} {c : Nat} (hx : env.slots.spot? (.var x) = some c)
    (hst : Stmt.Lets x e st) : env.Turns [st] cells (r.map (cells.setIfInBounds c ·)) := by
  obtain ⟨hcell, hlength⟩ := Slots.spot?_var.1 hx
  have hshape : env.view.stmt st = .seq (env.view.expr e) (.instr ⟨.storeLocal, some c⟩) := by
    cases hst with
    | assign a => simp [View.stmt, View.assign, hcell]
    | decl w => simp [View.stmt, View.decl, hcell, hlength]
  refine Env.turns_of_run ?_ ?_ ?_ ?_
  · intro p
    cases hst with
    | assign | decl => exact ⟨_, rfl⟩
  · rw [hshape]
    exact ⟨h.fits, rfl⟩
  · rw [hshape]
    simp [Shape.strings, h.strings]
  · intro lib go k stack
    rw [hshape, Shape.run, h.run]
    cases r with
    | error f => exact ⟨rfl, rfl⟩
    | ok v =>
      rw [Result.ofValue, Result.pure_bind, Shape.run, Act.perform_storeLocal v (hsize ▸ hslots.lt hcell)]
      exact ⟨rfl, [], rfl⟩

end Code

/-! ### Spots of a function -/

namespace Slots

variable {α : Type} {f : Function α} {x : String}

theorem exists_spot_of_lookup {w : Option String} (hx : (declsOf f).lookup x = some w)
    (hw : w.bind Ty.arrayLength? = none) : ∃ c, (ofFunction f).spot? (.var x) = some c := by
  have hmem : x ∈ (declsOf f).map (·.1) := List.mem_map.2 ⟨(x, w), mem_of_lookup hx, rfl⟩
  obtain ⟨c, hc⟩ := Option.isSome_iff_exists.1 ((isSome_cell?_iff f x).2 hmem)
  refine ⟨c, spot?_var.2 ⟨hc, ?_⟩⟩
  rw [length?_ofFunction, hx]
  exact hw

theorem exists_holds_of_lookup {t : String} {n : Nat} (hx : (declsOf f).lookup x = some (some t))
    (ht : Ty.arrayLength? t = some n) : ∃ base, (ofFunction f).Holds x base n := by
  refine exists_holds_of_length? ?_
  rw [length?_ofFunction, hx]
  exact ht

end Slots

theorem exists_started {source : String} {decls : List (String × Option String)} {info : Machine.FunctionInfo}
    (hmain : (info.name == "main") = true)
    (h : ∃ prog, checkedProgram source = .ok prog ∧ ∃ obj, emit prog = .ok obj ∧ obj.image.functions = #[info] ∧
      ∃ f, prog.functions[0]? = some f ∧ Slots.declsOf f = decls) :
    ∃ prog f obj, checkedProgram source = .ok prog ∧ emit prog = .ok obj ∧ prog.functions[0]? = some f ∧
      Slots.declsOf f = decls ∧ obj.image.Active (.start info) [0] := by
  obtain ⟨prog, hprog, obj, hobj, hfunctions, f, hf, hdecls⟩ := h
  refine ⟨prog, f, obj, hprog, hobj, hf, hdecls, .start ?_ ?_⟩
  · rw [Image.main?, hfunctions]
    simp [hmain]
  · rw [hfunctions]
    rfl

end Bytecode

end Workbench
