import Mathlib.Data.Int.ModEq
import Mathlib.Tactic.Ring
import Workbench.Proofs.CallFree
import Workbench.Proofs.FrameWords

/-!
# Selection by a mask

`ct_select(m, x, y)` is to be `x` where `m` is not zero and `y` where it is. The processor turns the mask into a word
of equal bits and selects with it (`Assembly.select_gives`). The machine computes `y + m * (x - y)` instead
(`Env.Computes.select`), modulo `2 ^ 16`, which is the selected value for the masks 0 and 1, and for another mask only
where `(m - 1) * (x - y)` is a multiple of `2 ^ 16`.
-/

namespace Workbench

open Machine (wrap)
open Typing (Note Signatures Scope HasType)

/-! ### Numbers without calls -/

variable {table : Signatures} {scope : Scope}

namespace Expr

/-- The code of a number without calls has no strings, so that its value does not depend on how strings are
numbered. -/
theorem textFree_of_int {slots : Bytecode.Slots} (e : Expr Note) :
    HasType table scope e .int → e.callFree slots = true →
      e.texts = [] ∧ ∀ locals k, e.value slots locals k = e.value slots locals 0 := by
  induction e using Expr.induction with
  | lit a l =>
    intro ht he
    cases l with
    | int n => exact ⟨rfl, fun _ _ => rfl⟩
    | bool | str => cases ht
    | none => cases he
  | var a x => exact fun _ _ => ⟨rfl, fun _ _ => rfl⟩
  | unary a op e ih =>
    intro ht he
    cases ht with
    | unary ht hop =>
      obtain ⟨rfl, -⟩ := Typing.unaryType_cases hop
      obtain ⟨htexts, hvalue⟩ := ih ht he
      exact ⟨htexts, fun locals k => by rw [value, value, hvalue]⟩
  | binary a op l r ihl ihr =>
    intro ht he
    rw [callFree, Bool.and_eq_true] at he
    cases ht with
    | binary hl hr hop =>
      obtain h | ⟨-, ⟨rfl, rfl⟩, hand, hor⟩ := Typing.binaryType_cases hop
      · cases h
      obtain ⟨htextsl, hvaluel⟩ := ihl hl he.1
      obtain ⟨htextsr, hvaluer⟩ := ihr hr he.2
      refine ⟨by rw [texts, htextsl, htextsr, List.append_nil], fun locals k => ?_⟩
      rw [value_binary _ _ _ _ _ _ hand hor, value_binary _ _ _ _ _ _ hand hor, hvaluel, htextsl]
      simp only [hvaluer locals (_ + _)]
  | index a x i _ ih =>
    intro ht he
    rw [callFree, Bool.and_eq_true] at he
    cases ht with
    | index _ _ hi =>
      obtain ⟨htexts, hvalue⟩ := ih hi he.2
      exact ⟨htexts, fun locals k => by rw [value, value, hvalue]⟩
  | addrVar | addrIndex | addr =>
    intro ht
    cases ht
  | call | hole =>
    intro _ he
    cases he

end Expr

/-! ### The machine -/

namespace Bytecode

open Machine (Image Frame Op Runs step_of_code)

/-- In a frame with the cells `locals` the expression has the value `v`: wherever its code stands, over any operands
and below any calls, the machine runs through it, pushes `v` and changes nothing else. -/
def Env.Computes (env : Env) (locals : Array Int) (e : Expr Note) (v : Int) : Prop :=
  ∀ (img : Image) (p : Place) (stack : List Int) (calls : List Frame), img.Has p.pc (exprCode env p e).code →
    ∃ n, Runs img calls.length n [] ⟨p.pc, stack, locals, calls⟩
      ⟨(p.after (exprCode env p e)).pc, v :: stack, locals, calls⟩

section Computes

variable {env : Env} {locals : Array Int} {note : Note} {m x y : Expr Note} {vm vx vy : Int}

section Chain

variable {img : Image} {p : Place} {c : Piece} {stack : List Int} {calls : List Frame} {s : Machine.State}

/-- A run through code that the code of an expression follows. -/
theorem Env.Computes.after {e : Expr Note} {v : Int} (h : env.Computes locals e v)
    (hcode : img.Has p.pc (c ++ exprCode env (p.after c) e).code)
    (hc : ∃ n, Runs img calls.length n [] s ⟨(p.after c).pc, stack, locals, calls⟩) :
    ∃ n, Runs img calls.length n [] s
      ⟨(p.after (c ++ exprCode env (p.after c) e)).pc, v :: stack, locals, calls⟩ := by
  obtain ⟨n, hruns⟩ := hc
  obtain ⟨k, hruns'⟩ := h img (p.after c) stack calls hcode.right
  rw [Place.after_append]
  exact ⟨n + k, hruns.trans hruns'⟩

theorem runs_op {o : Op} {operands : List Int} {v : Int} (hcode : img.Has p.pc (c ++ .op o).code)
    (ho : ∀ pc, Machine.execute img ⟨o, none⟩ ⟨pc, operands, locals, calls⟩ =
      .next ⟨pc, v :: stack, locals, calls⟩ none)
    (hc : ∃ n, Runs img calls.length n [] s ⟨(p.after c).pc, operands, locals, calls⟩) :
    ∃ n, Runs img calls.length n [] s ⟨(p.after (c ++ .op o)).pc, v :: stack, locals, calls⟩ := by
  obtain ⟨n, hruns⟩ := hc
  have hstep : Machine.step img ⟨(p.after c).pc, operands, locals, calls⟩ =
      .next ⟨(p.after c).pc + 1, v :: stack, locals, calls⟩ none :=
    (step_of_code (Image.Has.head hcode.right) rfl).trans (ho _)
  rw [Place.after_append]
  exact ⟨n + 1, hruns.trans (.one le_rfl hstep le_rfl)⟩

end Chain

/-- The machine takes the difference of the choices times the mask, and adds the second choice, which is evaluated
again. -/
theorem Env.Computes.select (hm : env.Computes locals m vm) (hx : env.Computes locals x vx)
    (hy : env.Computes locals y vy) :
    env.Computes locals (.call note "ct_select" [m, x, y]) (wrap (wrap (wrap (vx - vy) * vm) + vy)) := by
  intro img p stack calls hcode
  have hfirst := hx img p stack calls hcode.left.left.left.left.left.left
  have hsecond := hy.after hcode.left.left.left.left.left hfirst
  have hsub := runs_op hcode.left.left.left.left (fun _ => rfl) hsecond
  have hmask := hm.after hcode.left.left.left hsub
  have hmul := runs_op hcode.left.left (fun _ => rfl) hmask
  have hagain := hy.after hcode.left hmul
  exact runs_op hcode (fun _ => rfl) hagain

theorem wrap_select (vm vx vy : Int) : wrap (wrap (wrap (vx - vy) * vm) + vy) = wrap (vy + vm * (vx - vy)) := by
  have hmod : wrap (vx - vy) * vm + vy ≡ vy + vm * (vx - vy) [ZMOD 65536] := by
    rw [Int.add_comm vy, Int.mul_comm vm]
    exact ((Int.mod_modEq _ _).mul_right vm).add_right vy
  exact (Int.ModEq.add_right vy (Int.mod_modEq _ _)).trans hmod

theorem wrap_select_eq_iff (hx : 0 ≤ vx ∧ vx ≤ 65535) (hy : 0 ≤ vy ∧ vy ≤ 65535) :
    wrap (vy + vm * (vx - vy)) = (if vm ≠ 0 then vx else vy) ↔ vm = 0 ∨ 65536 ∣ (vm - 1) * (vx - vy) := by
  by_cases hm : vm = 0
  · subst hm
    have hwrap : wrap vy = vy := Int.emod_eq_of_lt hy.1 (by omega)
    simp [hwrap]
  · have hwrap : wrap vx = vx := Int.emod_eq_of_lt hx.1 (by omega)
    have hdiff : vy + vm * (vx - vy) - vx = (vm - 1) * (vx - vy) := by ring
    have hwraps : wrap (vy + vm * (vx - vy)) = wrap vx ↔ 65536 ∣ vy + vm * (vx - vy) - vx :=
      eq_comm.trans Int.modEq_iff_dvd
    rw [if_pos hm, or_iff_right hm, ← hdiff, ← hwraps, hwrap]

end Computes

end Bytecode

/-! ### The processor -/

namespace Assembly

open Processor (Gives)

section Select

variable {lines : List Line} {f : Frame} {s t : Processor}

/-- A condition in `ax` becomes a word of equal bits. -/
theorem mask_gives (h : Stands lines s.pc maskLines) :
    Gives lines s (some (if s.ax = 0 then 0 else -1)) (Left s (s.pc + 2)) := by
  have hcarry (a : BitVec 16) : ((-a).toNat : Int) ≠ -a.toNat ↔ a ≠ 0 := by
    constructor
    · rintro hne rfl
      exact hne rfl
    · intro hne heq
      have hzero : a.toNat = 0 := by omega
      exact hne (BitVec.eq_of_toNat_eq hzero)
  refine gives_instr h rfl (gives_instr h.tail rfl (.here (.of_registers rfl rfl rfl ?_ rfl)))
  show -s.ax - -s.ax - BitVec.ofNat 16 (decide (((-s.ax).toNat : Int) ≠ -(s.ax.toNat : Int))).toNat = _
  rw [decide_eq_decide.2 (hcarry s.ax), BitVec.sub_self]
  by_cases hax : s.ax = 0
  · rw [decide_eq_false (not_not_intro hax), if_pos hax]
    rfl
  · rw [decide_eq_true hax, if_neg hax]
    rfl

/-- The words on the stack are the second choice, the first choice and the mask. -/
theorem selectLines_gives (h : Stands lines s.pc selectLines) :
    Gives lines s (some (s.wordAt (s.sp + 2) &&& s.wordAt (s.sp + 2 + 2) |||
      s.wordAt s.sp &&& ~~~s.wordAt (s.sp + 2 + 2)))
      (fun w t => t.bp = s.bp ∧ t.sp = s.sp + 2 + 2 + 2 ∧ t.memory = s.memory ∧ t.ax = w ∧ t.pc = s.pc + 8) :=
  gives_instr h rfl <| gives_instr h.tail rfl <| gives_instr h.tail.tail rfl <| gives_instr h.tail.tail.tail rfl <|
    gives_instr h.tail.tail.tail.tail rfl <| gives_instr h.tail.tail.tail.tail.tail rfl <|
    gives_instr h.tail.tail.tail.tail.tail.tail rfl <| gives_instr h.tail.tail.tail.tail.tail.tail.tail rfl <|
    .here ⟨rfl, rfl, rfl, rfl, rfl⟩

def selectCode (cm cx cy : List Line) : List Line :=
  cm ++ (maskLines ++ .one .push .ax :: (cx ++ .one .push .ax :: (cy ++ .one .push .ax :: selectLines)))

variable {wm wx wy : BitVec 16} {cm cx cy : List Line} {m x y : Expr Note}

theorem exprLines_select {note : Note} {p q q' q'' : Pool} (hm : exprLines f m p = .ok (cm, q))
    (hx : exprLines f x q = .ok (cx, q')) (hy : exprLines f y q' = .ok (cy, q'')) :
    exprLines f (.call note "ct_select" [m, x, y]) p = .ok (selectCode cm cx cy, q'') := by
  rw [exprLines]
  simp only [bind, StateT.bind, hm, hx, hy, Except.bind]
  change Except.ok (_, q'') = Except.ok (_, q'')
  simp [selectCode]

theorem labels_selectCode (cm cx cy : List Line) :
    labels (selectCode cm cx cy) = labels cm ++ (labels cx ++ labels cy) := by
  have hnil : labels [] = [] := rfl
  have hinstr : ∀ i c, labels (.instr i :: c) = labels c := fun _ _ => rfl
  simp [selectCode, labels_append, maskLines, selectLines, Line.one, Line.two, Line.movR, Line.mov, hnil, hinstr]

theorem masked (m x y : BitVec 16) :
    x &&& (if m = 0 then 0 else -1) ||| y &&& ~~~(if m = 0 then (0 : BitVec 16) else -1) = if m = 0 then y else x := by
  split
  · rw [show ~~~0 = BitVec.allOnes 16 from rfl, BitVec.and_allOnes]
    simp
  · rw [show (-1) = BitVec.allOnes 16 from rfl, BitVec.and_allOnes]
    simp

/-- **Selection on the processor**: the lines leave the first choice in `ax` if the condition is not zero, and the
second one if it is. -/
theorem select_gives (hnodup : (labels lines).Nodup)
    (hframe : ∀ x k, f.offset? x = some k → s.sp.toNat + k ≤ s.bp.toNat) (hm : Lowered f m cm)
    (hx : Lowered f x cx) (hy : Lowered f y cy) (hwm : wordIn f s m = some wm) (hwx : wordIn f s x = some wx)
    (hwy : wordIn f s y = some wy) (hstands : Stands lines s.pc (selectCode cm cx cy))
    (hrooms : 6 ≤ s.sp.toNat ∧ 2 * m.waiting ≤ s.sp.toNat ∧
      2 * (x.waiting + 1) ≤ s.sp.toNat ∧ 2 * (y.waiting + 2) ≤ s.sp.toNat) :
    Gives lines s (some (if wm = 0 then wy else wx)) (Left s (s.pc + (selectCode cm cx cy).length)) := by
  have hmask := hm.gives_wordIn hnodup hframe s wm (.refl s) hstands.left hrooms.2.1 hwm
  refine gives_then (g := fun _ => some (if wm = 0 then wy else wx)) hstands hmask fun v t hv ht hlate => ?_
  obtain rfl := Option.some.inj hv
  refine gives_then (g := fun _ => some (if wm = 0 then wy else wx)) hlate (mask_gives hlate.left)
    fun k u hk hu hkeep => ?_
  obtain rfl := Option.some.inj hk
  have hbelow : Under s u := ht.toUnder.trans hu.toUnder
  have hlevel : u.sp.toNat = s.sp.toNat := by rw [hu.level, ht.level]
  have hlt := s.sp.isLt
  -- The mask waits while the first choice is evaluated, and both wait while the second one is.
  refine gives_kept (r := some wx) (g := fun a => some (if wm = 0 then wy else a)) hkeep (by omega)
    (fun z hz hsp hstand => hx.gives_wordIn hnodup hframe z wx (hbelow.trans hz) hstand (by omega) hwx)
    fun a ha hasp hamask hapc hkeep => ?_
  refine gives_kept (r := some wy) (g := fun b => some (if wm = 0 then b else a.ax)) hkeep (by omega)
    (fun z hz hsp hstand => hy.gives_wordIn hnodup hframe z wy ((hbelow.trans ha).trans hz) hstand (by omega) hwy)
    fun b hb hbsp hbword hbpc hkeep => ?_
  refine gives_push hkeep (by omega) fun c hc hcsp hcword hcpc => ?_
  have hselect : Stands lines c.pc selectLines := hcpc ▸ hkeep.tail
  have hfirst : c.sp + 2 = b.sp := by bv_omega
  have hsecond : b.sp + 2 = a.sp := by bv_omega
  have hthird : a.sp + 2 = u.sp := by bv_omega
  have hgives := selectLines_gives hselect
  rw [hfirst, hsecond, hcword, hc.wordAt_of_le (Nat.le_refl _) (by omega), hbword,
    (hb.trans hc).wordAt_of_le (Nat.le_refl _) (by omega), hamask, hu.ax, ht.ax, masked] at hgives
  refine hgives.mono fun w d hd => ?_
  obtain ⟨hdbp, hdsp, hdmemory, hdax, hdpc⟩ := hd
  have hall : Under u c := (ha.trans hb).trans hc
  have hlast : d.sp = u.sp := hdsp.trans hthird
  refine ⟨⟨hdbp.trans hall.bp, by rw [hlast], fun e he => by rw [hdmemory, hall.memory e he]⟩, hlast, hdax, ?_⟩
  rw [hdpc, hcpc, hbpc, hapc]
  simp [selectLines]
  omega

theorem exprLines_select_gives
    (htypes : ∀ e ∈ [m, x, y], HasType table scope e .int ∧ e.isWord = true ∧
      ∀ z ∈ e.vars, (f.offset? z).isSome = true) (hpc : s.pc = 0)
    (hframe : ∀ x k, f.offset? x = some k → s.sp.toNat + k ≤ s.bp.toNat) (hwm : wordIn f s m = some wm)
    (hwx : wordIn f s x = some wx) (hwy : wordIn f s y = some wy)
    (hrooms : 6 ≤ s.sp.toNat ∧ 2 * m.waiting ≤ s.sp.toNat ∧ 2 * (x.waiting + 1) ≤ s.sp.toNat ∧
      2 * (y.waiting + 2) ≤ s.sp.toNat) (note : Note) (pool : Pool) :
    ∃ lines pool', exprLines f (.call note "ct_select" [m, x, y]) pool = .ok (lines, pool') ∧
      Gives lines s (some (if wm = 0 then wy else wx)) (Left s lines.length) := by
  simp only [List.forall_mem_cons] at htypes
  obtain ⟨⟨hm, hmw, hml⟩, ⟨hx, hxw, hxl⟩, ⟨hy, hyw, hyl⟩, -⟩ := htypes
  obtain ⟨cm, q, hcm, hlowm, hnumm⟩ := exists_lowered hm hmw hml pool
  obtain ⟨cx, q', hcx, hlowx, hnumx⟩ := exists_lowered hx hxw hxl q
  obtain ⟨cy, q'', hcy, hlowy, hnumy⟩ := exists_lowered hy hyw hyl q'
  refine ⟨_, q'', exprLines_select hcm hcx hcy, ?_⟩
  have hnodup : (labels (selectCode cm cx cy)).Nodup := by
    rw [labels_selectCode]
    exact (hnumm.append (hnumx.append hnumy)).nodup
  have hgives := select_gives hnodup hframe hlowm hlowx hlowy hwm hwx hwy (by rw [hpc]; exact List.prefix_refl _) hrooms
  rwa [hpc, Nat.zero_add] at hgives

end Select

end Assembly

/-! ### Both -/

/-- **Selection by a mask.** The machine pushes `vy + vm * (vx - vy)` modulo `2 ^ 16`, which is the choice that the mask
asks for exactly if the mask is zero or `(vm - 1) * (vx - vy)` is a multiple of `2 ^ 16`. The processor always leaves
that choice in `ax`. -/
theorem selection_by_mask {env : Bytecode.Env} (hslots : env.slots.Framed) {locals : Array Int}
    (hsize : locals.size = env.slots.size) (hlocals : ∀ v ∈ locals, 0 ≤ v) :
    (∀ (table : Signatures) (scope : Scope) (e : Expr Note) (v : Int), HasType table scope e .int → e.valued = true →
      e.callFree env.slots = true → e.value env.slots locals 0 = .ok v → env.Computes locals e v) ∧
    (∀ (note : Note) (m x y : Expr Note) (vm vx vy : Int), env.Computes locals m vm → env.Computes locals x vx →
      env.Computes locals y vy → 0 ≤ vx ∧ vx ≤ 65535 → 0 ≤ vy ∧ vy ≤ 65535 →
      env.Computes locals (.call note "ct_select" [m, x, y]) (wrap (vy + vm * (vx - vy))) ∧
        (wrap (vy + vm * (vx - vy)) = (if vm ≠ 0 then vx else vy) ↔ vm = 0 ∨ 65536 ∣ (vm - 1) * (vx - vy))) ∧
    ∀ (table : Signatures) (scope : Scope) (note : Note) (m x y : Expr Note) (fn : Function Note)
      (s : Assembly.Processor) (wm wx wy : BitVec 16) (pool : Assembly.Pool),
      (∀ e ∈ [m, x, y], HasType table scope e .int ∧ e.isWord = true ∧
        ∀ z ∈ e.vars, ((Assembly.Frame.ofFunction fn).offset? z).isSome = true) →
      s.pc = 0 → s.sp.toNat + (Assembly.Frame.ofFunction fn).size ≤ s.bp.toNat →
      (6 ≤ s.sp.toNat ∧ 2 * m.waiting ≤ s.sp.toNat ∧ 2 * (x.waiting + 1) ≤ s.sp.toNat ∧
        2 * (y.waiting + 2) ≤ s.sp.toNat) →
      Assembly.wordIn (Assembly.Frame.ofFunction fn) s m = some wm →
      Assembly.wordIn (Assembly.Frame.ofFunction fn) s x = some wx →
      Assembly.wordIn (Assembly.Frame.ofFunction fn) s y = some wy →
      ∃ lines pool' u, Assembly.exprLines (Assembly.Frame.ofFunction fn) (.call note "ct_select" [m, x, y]) pool =
          .ok (lines, pool') ∧ Assembly.Processor.Runs lines s u ∧
        Assembly.Left s lines.length (if wm ≠ 0 then wx else wy) u := by
  refine ⟨fun table scope e v ht hv he hvalue => ?_, fun note m x y vm vx vy hm hx hy hvx hvy => ?_, ?_⟩
  · intro img p stack calls hcode
    obtain ⟨htexts, hany⟩ := e.textFree_of_int ht he
    have hshows := Bytecode.exprCode_shows ht hv he hcode (by simp [htexts]) hslots hsize hlocals stack calls
    rw [hany, hvalue] at hshows
    obtain ⟨n, t, hruns, rfl⟩ := hshows
    exact ⟨n, hruns⟩
  · refine ⟨?_, Bytecode.wrap_select_eq_iff hvx hvy⟩
    rw [← Bytecode.wrap_select]
    exact hm.select hx hy
  · intro table scope note m x y fn s wm wx wy pool htypes hpc hframe hrooms hwm hwx hwy
    obtain ⟨lines, pool', hlines, u, hruns, hleft⟩ :=
      Assembly.exprLines_select_gives htypes hpc (Assembly.Frame.place_ofFunction hframe) hwm hwx hwy hrooms note pool
    rw [ite_not]
    exact ⟨lines, pool', u, hlines, hruns, hleft⟩

section Chosen

/-- `let m: int; let x: int; let y: int;` -/
def chosen : Function Note where
  name := "main"
  params := []
  returnType := some "int"
  body := [.decl "m" (some "int") none, .decl "x" (some "int") none, .decl "y" (some "int") none]

def chosenVar (x : String) : Expr Note := .var (some .int) x

/-- The frame base is 100; 2 stands at 98 for `m`, 5 at 96 for `x`, and 3 at 94 for `y`, where the stack begins. -/
def chosenState : Assembly.Processor :=
  { bp := 100, sp := 94, memory := fun a => if a = 98 then 2 else if a = 96 then 5 else if a = 94 then 3 else 0 }

/-- Where the mask is 2 and the choices are 5 and 3, the machine pushes 7 and the processor leaves 5. -/
theorem chosen_by_two :
    Bytecode.Env.Computes ⟨Bytecode.Slots.ofFunction chosen, []⟩ #[2, 5, 3]
      (.call (some .int) "ct_select" [chosenVar "m", chosenVar "x", chosenVar "y"]) 7 ∧
    ∃ lines pool' u, Assembly.exprLines (Assembly.Frame.ofFunction chosen)
        (.call (some .int) "ct_select" [chosenVar "m", chosenVar "x", chosenVar "y"]) {} = .ok (lines, pool') ∧
      Assembly.Processor.Runs lines chosenState u ∧ u.ax = 5 := by
  have hframe : Assembly.Frame.ofFunction chosen = { offsets := [("m", 2), ("x", 4), ("y", 6)], size := 6 } := by decide
  obtain ⟨hvalue, hselect, hlines⟩ := @selection_by_mask ⟨Bytecode.Slots.ofFunction chosen, []⟩
    (Bytecode.Slots.framed_ofFunction chosen) #[2, 5, 3] (by decide) (by decide)
  have htype (x : String) (hx : x = "m" ∨ x = "x" ∨ x = "y") :
      HasType [] [[("m", .int), ("x", .int), ("y", .int)]] (chosenVar x) .int := by
    rcases hx with rfl | rfl | rfl <;> exact .var rfl
  have hm := hvalue _ _ (chosenVar "m") 2 (htype "m" (by simp)) rfl (by decide) rfl
  have hx := hvalue _ _ (chosenVar "x") 5 (htype "x" (by simp)) rfl (by decide) rfl
  have hy := hvalue _ _ (chosenVar "y") 3 (htype "y" (by simp)) rfl (by decide) rfl
  refine ⟨(hselect (some .int) _ _ _ 2 5 3 hm hx hy (by decide) (by decide)).1, ?_⟩
  have htypes : ∀ e ∈ [chosenVar "m", chosenVar "x", chosenVar "y"],
      HasType [] [[("m", .int), ("x", .int), ("y", .int)]] e .int ∧ e.isWord = true ∧
        ∀ z ∈ e.vars, ((Assembly.Frame.ofFunction chosen).offset? z).isSome = true := by
    rw [hframe]
    simp only [List.forall_mem_cons]
    exact ⟨⟨htype "m" (by simp), rfl, by decide⟩, ⟨htype "x" (by simp), rfl, by decide⟩,
      ⟨htype "y" (by simp), rfl, by decide⟩, by simp⟩
  obtain ⟨lines, pool', u, hcode, hruns, hleft⟩ := hlines [] _ (some .int) _ _ _ chosen chosenState 2 5 3 {} htypes rfl
    (by rw [hframe]; decide) (by decide) (by rw [hframe]; decide) (by rw [hframe]; decide) (by rw [hframe]; decide)
  exact ⟨lines, pool', u, hcode, hruns, hleft.ax⟩

end Chosen

/-- A selection by the mask 2. -/
def byTwo : String := "fn main(): int \x7b return ct_select(2, 5, 3); \x7d"

/-- The code of `byTwo`. -/
def byTwoImage : Machine.Image where
  code := #[⟨.pushInt, some 5⟩, ⟨.pushInt, some 3⟩, ⟨.sub, none⟩, ⟨.pushInt, some 2⟩, ⟨.mul, none⟩, ⟨.pushInt, some 3⟩,
    ⟨.add, none⟩, ⟨.ret, none⟩, ⟨.pushInt, some 0⟩, ⟨.ret, none⟩]
  functions := #[⟨"main", 0, 0, 0⟩]
  strings := []

/-- The mask is not zero, and the selection is neither the first choice, 5, nor the second one, 3. -/
theorem byTwo_selects_neither : imageOf byTwo = .ok byTwoImage ∧ byTwoImage.Ends [] (.exit 7) :=
  ⟨by
    rw [imageOf, checkedProgram, show Token.tokens byTwo = _ from Token.tokens_ofList _]
    decide +kernel, by simp, 10, by decide⟩

end Workbench
