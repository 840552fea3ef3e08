import Workbench.Proofs.FrameTurns

/-!
# A bounded stack in a frame

`array_push` and `array_pop` work on an array and a number that the program passes for its length, and keep neither of
them. With a variable for the length, the statements `len = array_push(a, len, e);` and
`v = array_pop(a, len); len = len - 1;` are the moves of a stack with room for the elements of the array
(`bounded_stack`). What is popped stays in the array until the next push, so the frame represents the stack up to the
length only (`Pile.Shows`).
-/

open List

namespace Workbench.Bytecode

open Machine (Fault Op wrap)
open Typing (Note)

/-! ### The stack and its moves -/

/-- An array that is used as a stack, the variable for its length, and the variable that takes what is popped. -/
structure Pile where
  array : String
  len : String
  top : String
  room : Nat

/-- A move of the stack. -/
inductive Move where
  | push (e : Expr Note)
  | pop

/-- The statements of a move. What is noted on the expressions does not matter. -/
inductive Pile.Written (q : Pile) : Move → List (Stmt Note) → Prop
  | push (a b c d : Note) (e : Expr Note) : q.Written (.push e)
      [.assign (.var a q.len) (.call b "array_push" [.var c q.array, .var d q.len, e])]
  | pop (a b c d a' b' c' d' : Note) : q.Written .pop
      [.assign (.var a q.top) (.call b "array_pop" [.var c q.array, .var d q.len]),
        .assign (.var a' q.len) (.binary b' .sub (.var c' q.len) (.lit d' (.int 1)))]

/-- What the moves made so far come to: how many there were, the values that were pushed and not popped, oldest first,
and the value that was popped last. -/
structure Stage where
  pushes : Nat
  pops : Nat
  held : List Int
  last : Int

def Stage.push (st : Stage) (v : Int) : Stage := { st with pushes := st.pushes + 1, held := st.held ++ [v] }

def Stage.pop (st : Stage) (vs : List Int) (v : Int) : Stage := { st with pops := st.pops + 1, held := vs, last := v }

/-- The variables of the stack are laid out as an array with the room and two single cells. -/
structure Pile.Laid (q : Pile) (s : Slots) : Prop where
  array : ∃ base, s.Holds q.array base q.room
  len : ∃ c, s.spot? (.var q.len) = some c
  top : ∃ c, s.spot? (.var q.top) = some c
  apart : q.len ≠ q.top
  small : q.room < 65536

/-- The frame `cells` represents the stage; all other variables are as in the frame `start`. -/
structure Pile.Shows (q : Pile) (s : Slots) (start cells : Array Int) (st : Stage) : Prop where
  size : cells.size = s.size
  fits : st.held.length ≤ q.room
  depth : st.held.length + st.pops = st.pushes
  len : s.get cells (.var q.len) = (st.pushes : Int) - st.pops
  elements : ∀ i v, st.held[i]? = some v → s.get cells (.element q.array i) = v
  top : s.get cells (.var q.top) = st.last
  others : ∀ t, t.name ≠ q.array → t ≠ .var q.len → t ≠ .var q.top → s.get cells t = s.get start t

/-- The statements `ss` have turned the frame `start` into one that represents the stage. -/
structure Pile.Reached (q : Pile) (env : Env) (start : Array Int) (ss : List (Stmt Note)) (cells : Array Int)
    (st : Stage) : Prop where
  shows : q.Shows env.slots start cells st
  turns : env.Turns ss start (.ok cells)

/-- The moves that come after the statements `ss` are those of a stack. A push where there is room adds the value that
the expression has in the frame, or the machine stops with its fault. A pop takes the value that was pushed last. The
frame represents the stage before, between and after the moves. -/
def Pile.Obeys (q : Pile) (env : Env) (start : Array Int) :
    List Move → (ss : List (Stmt Note)) → (cells : Array Int) → Stage → Prop
  | [], ss, cells, st => q.Reached env start ss cells st
  | .push e :: ms, ss, cells, st => q.Reached env start ss cells st ∧
    (e.IsNumber → st.held.length < q.room → ∀ ss', q.Written (.push e) ss' →
      match e.number env.slots cells with
      | .ok v => ∃ cells', env.Turns ss' cells (.ok cells') ∧ q.Obeys env start ms (ss ++ ss') cells' (st.push v)
      | .error f => env.Turns ss' cells (.error f))
  | .pop :: ms, ss, cells, st => q.Reached env start ss cells st ∧
    (∀ vs v, st.held = vs ++ [v] → ∀ ss', q.Written .pop ss' →
      ∃ cells', env.Turns ss' cells (.ok cells') ∧ q.Obeys env start ms (ss ++ ss') cells' (st.pop vs v))

/-! ### Representation -/

section Shows

variable {q : Pile} {s : Slots} {start cells cells₁ cells₂ : Array Int} {st : Stage}

theorem Pile.Shows.len_eq (h : q.Shows s start cells st) : s.get cells (.var q.len) = (st.held.length : Int) := by
  rw [h.len, ← h.depth]
  omega

theorem Pile.Shows.push (h : q.Shows s start cells st) (hlaid : q.Laid s) (hroom : st.held.length < q.room) {v : Int}
    (h₁ : s.Puts (.element q.array st.held.length) v cells cells₁)
    (h₂ : s.Puts (.var q.len) (st.held.length + 1) cells₁ cells₂) : q.Shows s start cells₂ (st.push v) := by
  have hlength : (st.push v).held.length = st.held.length + 1 := by
    rw [Stage.push, length_append, length_singleton]
  have hdepth := h.depth
  constructor
  case size => rw [h₂.size, h₁.size, h.size]
  case fits => omega
  case depth =>
    simp only [Stage.push] at hlength ⊢
    omega
  case len =>
    rw [h₂.self]
    simp only [Stage.push]
    omega
  case elements =>
    intro i w hi
    rw [h₂.others _ (by simp)]
    by_cases hnew : i = st.held.length
    · subst hnew
      rw [h₁.self]
      rw [Stage.push, getElem?_concat_length] at hi
      exact Option.some.inj hi
    · have hlt : i < st.held.length := by
        have hbound := (List.getElem?_eq_some_iff.1 hi).1
        omega
      rw [h₁.others _ (by simp [hnew])]
      rw [Stage.push, getElem?_append_left hlt] at hi
      exact h.elements i w hi
  case top =>
    rw [h₂.others _ (by simp [hlaid.apart.symm]), h₁.others _ (by simp)]
    exact h.top
  case others =>
    intro t hname hlen htop
    have hne : t ≠ .element q.array st.held.length := by
      rintro rfl
      exact hname rfl
    rw [h₂.others _ hlen, h₁.others _ hne, h.others t hname hlen htop]

theorem Pile.Shows.pop (h : q.Shows s start cells st) (hlaid : q.Laid s) {vs : List Int} {v : Int}
    (hheld : st.held = vs ++ [v]) (h₁ : s.Puts (.var q.top) (s.get cells (.element q.array vs.length)) cells cells₁)
    (h₂ : s.Puts (.var q.len) vs.length cells₁ cells₂) : q.Shows s start cells₂ (st.pop vs v) := by
  have hlength : st.held.length = vs.length + 1 := by rw [hheld, length_append, length_singleton]
  have hdepth := h.depth
  have hfits := h.fits
  constructor
  case size => rw [h₂.size, h₁.size, h.size]
  case fits =>
    simp only [Stage.pop]
    omega
  case depth =>
    simp only [Stage.pop]
    omega
  case len =>
    rw [h₂.self]
    simp only [Stage.pop]
    omega
  case elements =>
    intro i w hi
    have hlt : i < vs.length := (List.getElem?_eq_some_iff.1 hi).1
    rw [h₂.others _ (by simp), h₁.others _ (by simp)]
    refine h.elements i w ?_
    rw [hheld, getElem?_append_left hlt]
    exact hi
  case top =>
    rw [h₂.others _ (by simp [hlaid.apart.symm]), h₁.self]
    refine h.elements vs.length v ?_
    rw [hheld, getElem?_concat_length]
  case others =>
    intro t hname hlen htop
    rw [h₂.others _ hlen, h₁.others _ htop, h.others t hname hlen htop]

end Shows

/-! ### The code of the moves -/

section Shapes

variable {v : View} {a : String} {base n : Nat} (h : v.slots.Holds a base n)
include h

theorem View.expr_push (b c : Note) (i e : Expr Note) : v.expr (.call b "array_push" [.var c a, i, e]) =
    .seq (v.expr e) (.seq (v.expr i) (.seq (.instr ⟨.storeLocalIdx, some (base : Int)⟩)
      (.seq (v.expr i) (.seq (.push 1) (.op .add))))) := by
  have hbase : [.var c a, i, e].head?.bind v.arrayCell? = some base := h.arrayCell?
  rw [View.expr, hbase]
  rfl

theorem View.expr_pop (b c : Note) (i : Expr Note) : v.expr (.call b "array_pop" [.var c a, i]) =
    .seq (v.expr i) (.seq (.push 1) (.seq (.op .sub) (.instr ⟨.loadLocalIdx, some (base : Int)⟩))) := by
  have hbase : [.var c a, i].head?.bind v.arrayCell? = some base := h.arrayCell?
  rw [View.expr, hbase]
  rfl

end Shapes

section Code

variable {env : Env} {cells : Array Int} {a x : String} {base m n c : Nat}

/-- A push at the length stores the value there, and then the next length. The length is read again after the first
store, which is not one in the length. -/
theorem Env.turns_push (hslots : env.slots.Framed) (hsize : cells.size = env.slots.size)
    (hholds : env.slots.Holds a base m) (hx : env.slots.spot? (.var x) = some c)
    (hlen : env.slots.get cells (.var x) = n) (hn : n < m) (hm : m < 65536) {e : Expr Note} (he : e.IsNumber)
    (b b' b'' d : Note) :
    env.Turns [.assign (.var b x) (.call b' "array_push" [.var b'' a, .var d x, e])] cells
      ((e.number env.slots cells).map fun v => (cells.setIfInBounds (base + n) v).setIfInBounds c (n + 1)) := by
  have helement : env.slots.spot? (.element a n) = some (base + n) :=
    Slots.spot?_element.2 ⟨base, m, hholds, hn, rfl⟩
  have hputs v := Slots.puts_set hslots.toSound hsize helement v
  have hvalue := Env.yields_plain hslots hsize he.isPlain
  have hcount := Env.yields_var hslots hsize hx d
  have hagain v := Env.yields_var hslots ((hputs v).size.trans hsize) hx d
  have hkept v := (hputs v).others (.var x) (by simp)
  have hwrap : wrap (n + 1) = n + 1 := Int.emod_eq_of_lt (by omega) (by omega)
  obtain ⟨hcell, -⟩ := Slots.spot?_var.1 hx
  have hshape : env.view.stmt (.assign (.var b x) (.call b' "array_push" [.var b'' a, .var d x, e])) =
      .seq (.seq (env.view.expr e) (.seq (env.view.expr (.var d x)) (.seq (.instr ⟨.storeLocalIdx, some base⟩)
        (.seq (env.view.expr (.var d x)) (.seq (.push 1) (.op .add)))))) (.instr ⟨.storeLocal, some c⟩) := by
    rw [View.stmt, View.assign, Env.view_slots, hcell, View.expr_push hholds]
  refine Env.turns_of_run (fun p => ⟨_, rfl⟩) ?_ ?_ ?_
  · rw [hshape]
    exact ⟨⟨hvalue.fits, hcount.fits, rfl, hcount.fits, rfl, rfl⟩, rfl⟩
  · rw [hshape]
    simp [Shape.strings, hvalue.strings, hcount.strings, Shape.push, Shape.op]
  · intro lib go k stack
    rw [hshape, Shape.run, Shape.run, hvalue.run]
    cases e.number env.slots cells with
    | error f => exact ⟨rfl, rfl⟩
    | ok v =>
      have hfirst : Act.perform lib ⟨.storeLocalIdx, some base⟩ ⟨n :: v :: stack, cells⟩ =
          .pure ⟨stack, cells.setIfInBounds (base + n) v⟩ :=
        perform_storeElement ⟨stack, cells⟩ v (hsize ▸ Slots.lt_of_spot? hslots.toSound helement)
      have hlt : c < (cells.setIfInBounds (base + n) v).size := by
        rw [(hputs v).size, hsize]
        exact hslots.lt hcell
      have hsecond : Act.perform lib ⟨.storeLocal, some c⟩
          ⟨(n + 1) :: stack, cells.setIfInBounds (base + n) v⟩ =
            .pure ⟨stack, (cells.setIfInBounds (base + n) v).setIfInBounds c (n + 1)⟩ :=
        @Act.perform_storeLocal lib c ⟨stack, _⟩ (n + 1) hlt
      simp only [Result.ofValue, Result.pure_bind, Act.push, Shape.run, hcount.run, hlen, hfirst, (hagain v).run, hkept]
      show Result.Turned stack _ (Act.perform lib ⟨.storeLocal, some c⟩
        ⟨wrap (n + 1) :: stack, cells.setIfInBounds (base + n) v⟩)
      rw [hwrap, hsecond]
      exact ⟨rfl, [], rfl⟩

theorem wrap_add_sub_one (hn : n < 65536) : wrap ((n : Int) + 1 - 1) = n := by
  rw [Int.add_sub_cancel]
  exact Int.emod_eq_of_lt (by omega) (by omega)

theorem Env.yields_pop (hslots : env.slots.Framed) (hsize : cells.size = env.slots.size)
    (hholds : env.slots.Holds a base m) (hx : env.slots.spot? (.var x) = some c)
    (hlen : env.slots.get cells (.var x) = (n : Int) + 1) (hn : n < m) (hm : m < 65536) (b b' b'' : Note) :
    env.Yields cells (.call b "array_pop" [.var b' a, .var b'' x])
      (.ok (env.slots.get cells (.element a n))) := by
  have helement : env.slots.spot? (.element a n) = some (base + n) :=
    Slots.spot?_element.2 ⟨base, m, hholds, hn, rfl⟩
  have hlt : base + n < cells.size := hsize ▸ Slots.lt_of_spot? hslots.toSound helement
  have hcount := Env.yields_var hslots hsize hx b''
  constructor
  · rw [View.expr_pop hholds]
    exact ⟨hcount.fits, rfl, rfl, rfl⟩
  · rw [View.expr_pop hholds]
    simp [Shape.strings, hcount.strings, Shape.push, Shape.op]
  · intro lib go k stack
    have hload : Act.perform lib ⟨.loadLocalIdx, some base⟩ ⟨n :: stack, cells⟩ =
        .pure ⟨cells.getD (base + n) 0 :: stack, cells⟩ := by
      have hcell : Expr.loaded cells (base + n) = .ok (cells.getD (base + n) 0) := by
        rw [Expr.loaded, show (base : Int) + n = (base + n : Nat) by omega, Machine.cellAt_ofNat hlt]
      exact (perform_loadElement ⟨stack, cells⟩).trans (by rw [hcell]; rfl)
    rw [View.expr_pop hholds, Shape.run, hcount.run, hlen, Slots.get_eq helement]
    show Act.perform lib ⟨.loadLocalIdx, some base⟩ ⟨wrap (n + 1 - 1) :: stack, cells⟩ = _
    rw [wrap_add_sub_one (hn.trans hm), hload]
    rfl

theorem Env.yields_pred (hslots : env.slots.Framed) (hsize : cells.size = env.slots.size)
    (hx : env.slots.spot? (.var x) = some c) (hlen : env.slots.get cells (.var x) = (n : Int) + 1) (hn : n < 65536)
    (b b' b'' : Note) : env.Yields cells (.binary b .sub (.var b' x) (.lit b'' (.int 1))) (.ok n) := by
  have hcount := Env.yields_var hslots hsize hx b'
  have hshape : env.view.expr (.binary b .sub (.var b' x) (.lit b'' (.int 1))) =
      .seq (env.view.expr (.var b' x)) (.seq (.push 1) (.plain [⟨.sub, none⟩])) := rfl
  constructor
  · rw [hshape]
    exact ⟨hcount.fits, rfl, rfl, trivial⟩
  · rw [hshape]
    simp [Shape.strings, hcount.strings, Shape.push, Shape.plain]
  · intro lib go k stack
    rw [hshape, Shape.run, hcount.run, hlen]
    show Result.pure (Act.mk (wrap (n + 1 - 1) :: stack) cells) = _
    rw [wrap_add_sub_one hn]
    rfl

end Code

/-! ### Runs -/

section Reached

variable {q : Pile} {env : Env} {start cells : Array Int} {ss ss' : List (Stmt Note)} {st : Stage}

theorem Pile.Reached.push (h : q.Reached env start ss cells st) (hslots : env.slots.Framed) (hlaid : q.Laid env.slots)
    {e : Expr Note} (he : e.IsNumber) (hroom : st.held.length < q.room) (hss : q.Written (.push e) ss') :
    match e.number env.slots cells with
    | .ok v => ∃ cells', env.Turns ss' cells (.ok cells') ∧ q.Reached env start (ss ++ ss') cells' (st.push v)
    | .error f => env.Turns ss' cells (.error f) := by
  obtain ⟨base, hholds⟩ := hlaid.array
  obtain ⟨c, hc⟩ := hlaid.len
  have hsize := h.shows.size
  have helement : env.slots.spot? (.element q.array st.held.length) = some (base + st.held.length) :=
    Slots.spot?_element.2 ⟨base, q.room, hholds, hroom, rfl⟩
  cases hss with
  | push a b b' b'' =>
    have hturns := Env.turns_push hslots hsize hholds hc h.shows.len_eq hroom hlaid.small he a b b' b''
    cases hv : e.number env.slots cells with
    | error f =>
      rw [hv] at hturns
      exact hturns
    | ok v =>
      rw [hv] at hturns
      have hfirst := Slots.puts_set hslots.toSound hsize helement v
      have hsecond := Slots.puts_set hslots.toSound (hfirst.size.trans hsize) hc (st.held.length + 1)
      exact ⟨_, hturns, h.shows.push hlaid hroom hfirst hsecond, h.turns.append hturns⟩

theorem Pile.Reached.pop (h : q.Reached env start ss cells st) (hslots : env.slots.Framed) (hlaid : q.Laid env.slots)
    {vs : List Int} {v : Int} (hheld : st.held = vs ++ [v]) (hss : q.Written .pop ss') :
    ∃ cells', env.Turns ss' cells (.ok cells') ∧ q.Reached env start (ss ++ ss') cells' (st.pop vs v) := by
  obtain ⟨base, hholds⟩ := hlaid.array
  obtain ⟨c, hc⟩ := hlaid.len
  obtain ⟨d, hd⟩ := hlaid.top
  have hsize := h.shows.size
  have hsmall := hlaid.small
  have hfits := h.shows.fits
  have hlen : env.slots.get cells (.var q.len) = vs.length + 1 := by
    rw [h.shows.len_eq, hheld, length_append, length_singleton]
    omega
  have hlast : vs.length < q.room := by
    rw [hheld, length_append, length_singleton] at hfits
    omega
  cases hss with
  | pop a b b' b'' a' c' c'' d' =>
    have hpop := Env.yields_pop hslots hsize hholds hc hlen hlast hsmall b b' b''
    have hfirst := Slots.puts_set hslots.toSound hsize hd (env.slots.get cells (.element q.array vs.length))
    have hkept : env.slots.get _ (.var q.len) = _ := (hfirst.others (.var q.len) (by simp [hlaid.apart])).trans hlen
    have hpred := Env.yields_pred hslots (hfirst.size.trans hsize) hc hkept (by omega) c' c'' d'
    have hsecond := Slots.puts_set hslots.toSound (hfirst.size.trans hsize) hc vs.length
    have hturns := (hpop.turns_var hslots hsize hd (.assign a)).append
      (hpred.turns_var hslots (hfirst.size.trans hsize) hc (.assign a'))
    exact ⟨_, hturns, h.shows.pop hlaid hheld hfirst hsecond, h.turns.append hturns⟩

theorem Pile.Reached.obeys (hslots : env.slots.Framed) (hlaid : q.Laid env.slots) (ms : List Move) :
    ∀ {ss cells st}, q.Reached env start ss cells st → q.Obeys env start ms ss cells st := by
  induction ms with
  | nil => exact fun h => h
  | cons m ms ih =>
    intro ss cells st h
    cases m with
    | push e =>
      refine ⟨h, fun he hroom ss' hss' => ?_⟩
      have hpush := h.push hslots hlaid he hroom hss'
      split at hpush
      · obtain ⟨cells', hturns, hreached⟩ := hpush
        exact ⟨cells', hturns, ih hreached⟩
      · exact hpush
    | pop =>
      refine ⟨h, fun vs v hheld ss' hss' => ?_⟩
      obtain ⟨cells', hturns, hreached⟩ := h.pop hslots hlaid hheld hss'
      exact ⟨cells', hturns, ih hreached⟩

end Reached

/-- **A bounded stack.** From a frame in which the length is zero, whatever is pushed and popped, the length is the
number of pushes less that of pops, the array holds the values that were pushed and not popped, in order, a pop gives
the one that was pushed last, and all other variables are as they were. -/
theorem bounded_stack {source : String} {prog : Program Note} {obj : Object} (hprog : checkedProgram source = .ok prog)
    (hobj : emit prog = .ok obj) {k : Nat} {f : Function Note} (hf : prog.functions[k]? = some f) {q : Pile}
    {t : String} (harray : (Slots.declsOf f).lookup q.array = some (some t)) (ht : Ty.arrayLength? t = some q.room)
    (hroom : q.room < 65536) {w w' : Option String} (hlen : (Slots.declsOf f).lookup q.len = some w)
    (hw : w.bind Ty.arrayLength? = none) (htop : (Slots.declsOf f).lookup q.top = some w')
    (hw' : w'.bind Ty.arrayLength? = none) (hne : q.len ≠ q.top) {env : Env} (henv : env.slots = Slots.ofFunction f)
    {s : Machine.State} {ks : List Nat} (hactive : obj.image.Active s (k :: ks))
    (hzero : env.slots.get s.locals (.var q.len) = 0) (ms : List Move) :
    q.Obeys env s.locals ms [] s.locals ⟨0, 0, [], env.slots.get s.locals (.var q.top)⟩ := by
  have hslots : env.slots.Framed := henv ▸ Slots.framed_ofFunction f
  have hlaid : q.Laid env.slots := by
    rw [henv]
    exact ⟨Slots.exists_holds_of_lookup harray ht, Slots.exists_spot_of_lookup hlen hw,
      Slots.exists_spot_of_lookup htop hw', hne, hroom⟩
  refine Pile.Reached.obeys hslots hlaid ms ⟨?_, .nil⟩
  constructor
  case size => rw [henv, frame_size hprog hobj hf hactive]
  case fits => exact Nat.zero_le _
  case depth => rfl
  case len => exact hzero
  case elements =>
    intro i v hi
    cases hi
  case top => rfl
  case others => exact fun _ _ _ _ => rfl

def pushOnce : String :=
  "fn main(): int \x7b let a: int[2]; let len: int; let v: int; len = array_push(a, len, 7); return a[0]; \x7d"

/-- The stack of `pushOnce`. -/
def oncePile : Pile := ⟨"a", "len", "v", 2⟩

/-- A push and a pop in the first frame of `pushOnce`. -/
theorem oncePile_obeys : Ty.arrayLength? "int[2]" = some oncePile.room ∧
    ∃ prog f obj, checkedProgram pushOnce = .ok prog ∧ emit prog = .ok obj ∧ prog.functions[0]? = some f ∧
      Slots.declsOf f = [("a", some "int[2]"), ("len", some "int"), ("v", some "int")] ∧
      obj.image.Active (.start ⟨"main", 0, 4, 0⟩) [0] ∧
      ∀ env : Env, env.slots = Slots.ofFunction f → env.slots.get #[0, 0, 0, 0] (.var "len") = 0 ∧
        ∀ ss ss', oncePile.Written (.push (.lit (some .int) (.int 7))) ss → oncePile.Written .pop ss' →
          ∃ cells cells', env.Turns ss #[0, 0, 0, 0] (.ok cells) ∧ env.slots.get cells (.element "a" 0) = 7 ∧
            env.slots.get cells (.var "len") = 1 ∧ env.Turns ss' cells (.ok cells') ∧
            env.slots.get cells' (.var "v") = 7 ∧ env.slots.get cells' (.var "len") = 0 := by
  have hlength : Ty.arrayLength? "int[2]" = some oncePile.room := by decide +kernel
  obtain ⟨prog, f, obj, hprog, hobj, hf, hdecls, hactive⟩ : ∃ prog f obj, checkedProgram pushOnce = .ok prog ∧
      emit prog = .ok obj ∧ prog.functions[0]? = some f ∧
      Slots.declsOf f = [("a", some "int[2]"), ("len", some "int"), ("v", some "int")] ∧
      obj.image.Active (.start ⟨"main", 0, 4, 0⟩) [0] := by
    refine exists_started (by decide) ?_
    rw [checkedProgram, show Token.tokens pushOnce = _ from Token.tokens_ofList _]
    decide +kernel
  refine ⟨hlength, prog, f, obj, hprog, hobj, hf, hdecls, hactive, fun env henv => ?_⟩
  have hzero : env.slots.get #[0, 0, 0, 0] (.var "len") = 0 := by
    rw [henv, Slots.ofFunction_eq, hdecls]
    decide +kernel
  refine ⟨hzero, fun ss ss' hss hss' => ?_⟩
  have hlookup (x : String) (w : Option String)
      (h : [("a", some "int[2]"), ("len", some "int"), ("v", some "int")].lookup x = some w) :
      (Slots.declsOf f).lookup x = some w := hdecls ▸ h
  have hnumber : (Expr.lit (some Ty.int) (.int 7)).IsNumber := ⟨rfl, [], [], .lit (.int 7)⟩
  have hobeys := bounded_stack hprog hobj hf (hlookup oncePile.array _ rfl) hlength (by decide)
    (hlookup oncePile.len _ rfl) (by decide +kernel) (hlookup oncePile.top _ rfl) (by decide +kernel) (by decide) henv
    hactive hzero [.push (.lit (some .int) (.int 7)), .pop]
  obtain ⟨cells, hturns, hnext⟩ := hobeys.2 hnumber (show 0 < 2 by decide) ss hss
  obtain ⟨cells', hturns', hreached⟩ := hnext.2 [] 7 rfl ss' hss'
  exact ⟨cells, cells', hturns, hnext.1.shows.elements 0 7 rfl, hnext.1.shows.len, hturns', hreached.shows.top,
    hreached.shows.len⟩

end Workbench.Bytecode
