import Workbench.Proofs.RegisterUse

/-!
# Operands that wait in registers

The built-in functions that write to memory evaluate their operands one after the other and keep the values in registers:
an address in `bx` or `di`, an offset or a source in `si`, a number or a byte in `dx`. A later operand may use the same
register, and then the value that waited there is lost. What the functions write is worked out here for all operands
without calls, from the registers that these use (`memory_builtins`).

The two loops are followed round by round: `fill_round` and `copy_round` are one round, and `loop_run` is all of them.
-/

open List

namespace Workbench.Assembly

open Processor (Gives)
open Typing (Note Signatures Scope HasType)

/-! ### Loops -/

section Loops

variable {lines rest : List Line} {s : Processor} {top done : String}

def fillCode (top done : String) : List Line :=
  [.label top, .twoImm .cmp .cx 0, .jump .e done, .mov (.at .di) (.reg .dl), .one .inc .di, .one .dec .cx,
    .jump .always top, .label done]

def copyCode (top done : String) : List Line :=
  [.label top, .twoImm .cmp .cx 0, .jump .e done, .mov (.reg .al) (.at .si), .mov (.at .di) (.reg .al), .one .inc .si,
    .one .inc .di, .one .dec .cx, .jump .always top, .label done]

theorem gives_test_count {k : Nat} {P : Unit → Processor → Prop} (hnodup : (labels lines).Nodup)
    (h : Stands lines s.pc (.label top :: .twoImm .cmp .cx 0 :: .jump .e done :: rest))
    (hdone : lines[k]? = some (.label done))
    (hnext : Gives lines { s with flags := .compare s.cx 0, pc := if s.cx = 0 then k else s.pc + 3 } (some ()) P) :
    Gives lines s (some ()) P := by
  refine gives_label h (gives_instr (t := { s with flags := .compare s.cx 0, pc := s.pc + 1 + 1 }) h.tail rfl ?_)
  refine gives_jump hnodup h.tail.tail (Processor.taken?_compare s.cx 0 .e) hdone ?_
  by_cases hcx : s.cx = 0 <;> simpa [Jump.holds, hcx] using hnext

/-- `t` comes after `s` when a loop before `k` has set the `cx` bytes from `di` on to `new`. -/
structure Looped (s : Processor) (k : Nat) (new : BitVec 16 → BitVec 8) (t : Processor) : Prop where
  bp : t.bp = s.bp
  sp : t.sp = s.sp
  pc : t.pc = k
  inside : ∀ a, (a - s.di).toNat < s.cx.toNat → t.memory a = new a
  outside : ∀ a, s.cx.toNat ≤ (a - s.di).toNat → t.memory a = s.memory a

/-- `t` comes after `s` when one round of a loop has set the byte at `di` to what `new` says. The rounds that follow set
bytes to what `new'` says. -/
structure Round (s : Processor) (new new' : BitVec 16 → BitVec 8) (t : Processor) : Prop where
  bp : t.bp = s.bp
  sp : t.sp = s.sp
  pc : t.pc = s.pc
  di : t.di = s.di + 1
  cx : t.cx = s.cx - 1
  memory : t.memory = Function.update s.memory s.di (new s.di)
  others : ∀ a, a ≠ s.di → (a - s.di).toNat < s.cx.toNat → new' a = new a

theorem Round.looped {t u : Processor} {k : Nat} {new new' : BitVec 16 → BitVec 8} (h : Round s new new' t)
    (hcx : s.cx ≠ 0) (hu : Looped t k new' u) : Looped s k new u := by
  have hlt := s.cx.isLt
  have hcount : t.cx.toNat + 1 = s.cx.toNat := by
    rw [h.cx]
    bv_omega
  have hnext : ∀ a, a ≠ s.di → (a - t.di).toNat + 1 = (a - s.di).toNat := by
    intro a ha
    rw [h.di]
    bv_omega
  refine ⟨hu.bp.trans h.bp, hu.sp.trans h.sp, hu.pc, fun a ha => ?_, fun a ha => ?_⟩
  · by_cases hfirst : a = s.di
    · have hlast : t.cx.toNat ≤ (a - t.di).toNat := by
        rw [h.di, hfirst]
        bv_omega
      rw [hu.outside a hlast, h.memory, hfirst, Function.update_self]
    · have := hnext a hfirst
      rw [hu.inside a (by omega), h.others a hfirst ha]
  · have hne : a ≠ s.di := by
      rintro rfl
      rw [BitVec.sub_self] at ha
      have : 0 < s.cx.toNat := by bv_omega
      exact absurd ha (Nat.not_le.2 this)
    have := hnext a hne
    rw [hu.outside a (by omega), h.memory, Function.update_of_ne hne]

/-- **Loops**: if every round sets the next byte to what `w` says, all of them set `cx` bytes from `di` on. -/
theorem loop_run {pc k : Nat} {w : Processor → BitVec 16 → BitVec 8} {I : Processor → Prop}
    (hnodup : (labels lines).Nodup)
    (h : Stands lines pc (.label top :: .twoImm .cmp .cx 0 :: .jump .e done :: rest))
    (hdone : lines[k]? = some (.label done))
    (hround : ∀ s, s.pc = pc → I s → s.cx ≠ 0 →
      Gives lines s (some ()) fun _ t => Round s (w s) (w t) t ∧ I t) (s : Processor) (hpc : s.pc = pc)
    (hs : I s) : Gives lines s (some ()) fun _ => Looped s (k + 1) (w s) := by
  induction hn : s.cx.toNat generalizing s with
  | zero =>
    have hcx : s.cx = 0 := BitVec.eq_of_toNat_eq hn
    refine gives_test_count hnodup (hpc ▸ h) hdone ?_
    rw [if_pos hcx]
    refine .step (t := { s with flags := .compare s.cx 0, pc := k + 1 }) ?_
      (.here ⟨rfl, rfl, rfl, fun a ha => ?_, fun _ _ => rfl⟩)
    · rw [Processor.step, hdone]
    · rw [hn] at ha
      exact absurd ha (Nat.not_lt_zero _)
  | succ n ih =>
    have hcx : s.cx ≠ 0 := by
      rintro hzero
      rw [hzero] at hn
      cases hn
    obtain ⟨t, hrun, ht, hinv⟩ := hround s hpc hs hcx
    obtain ⟨u, hrun', hu⟩ := ih t (ht.pc.trans hpc) hinv (by rw [ht.cx]; bv_omega)
    exact ⟨u, hrun.trans hrun', ht.looped hcx hu⟩

section Rounds

variable (hnodup : (labels lines).Nodup)

include hnodup

theorem fill_round (h : Stands lines s.pc (fillCode top done)) (hcx : s.cx ≠ 0) :
    Gives lines s (some ()) fun _ t => Round s (fun _ => low s.dx) (fun _ => low t.dx) t := by
  have hbody := h.tail.tail.tail
  refine gives_test_count hnodup h h.tail.tail.tail.tail.tail.tail.tail.head ?_
  rw [if_neg hcx]
  refine gives_instr hbody rfl (gives_instr hbody.tail rfl (gives_instr hbody.tail.tail rfl ?_))
  refine gives_jump hnodup hbody.tail.tail.tail rfl h.head (.here ?_)
  exact ⟨rfl, rfl, rfl, rfl, rfl, rfl, fun _ _ _ => rfl⟩

/-- The byte that is to be copied to `a`. -/
def source (s : Processor) (a : BitVec 16) : BitVec 8 := s.memory (s.si + (a - s.di))

/-- The byte goes through the lower half of `ax`. -/
theorem copy_round (h : Stands lines s.pc (copyCode top done)) (hcx : s.cx ≠ 0)
    (hapart : s.cx.toNat ≤ (s.di - s.si).toNat) :
    Gives lines s (some ()) fun _ t => Round s (source s) (source t) t ∧ t.si = s.si + 1 := by
  have hbody := h.tail.tail.tail
  refine gives_test_count hnodup h h.tail.tail.tail.tail.tail.tail.tail.tail.tail.head ?_
  rw [if_neg hcx]
  refine gives_instr hbody rfl (gives_instr hbody.tail rfl (gives_instr hbody.tail.tail rfl
    (gives_instr hbody.tail.tail.tail rfl (gives_instr hbody.tail.tail.tail.tail rfl ?_))))
  refine gives_jump hnodup hbody.tail.tail.tail.tail.tail rfl h.head (.here ?_)
  refine ⟨⟨rfl, rfl, rfl, rfl, rfl, ?_, fun a _ hin => ?_⟩, rfl⟩
  · show Function.update s.memory s.di (low (high s.ax ++ s.memory s.si)) = _
    rw [source, low_append, BitVec.sub_self, BitVec.add_zero]
  · have hnext : s.si + 1 + (a - (s.di + 1)) = s.si + (a - s.di) := by bv_omega
    have hsource : s.si + (a - s.di) ≠ s.di := by bv_omega
    show Function.update s.memory s.di _ (s.si + 1 + (a - (s.di + 1))) = _
    rw [hnext, Function.update_of_ne hsource]
    rfl

/-- **Filling**: `cx` bytes from `di` on become the lower byte of `dx`. -/
theorem fill_run (h : Stands lines s.pc (fillCode top done)) :
    Gives lines s (some ()) fun _ => Looped s (s.pc + 8) fun _ => low s.dx := by
  refine loop_run (w := fun s _ => low s.dx) (I := fun _ => True) hnodup h
    h.tail.tail.tail.tail.tail.tail.tail.head (fun t hpc _ hcx => ?_) s rfl trivial
  exact (fill_round hnodup (hpc ▸ h) hcx).mono fun _ _ ht => ⟨ht, trivial⟩

/-- **Copying**: `cx` bytes from `di` on become those from `si` on, if none of these is written before it is read. -/
theorem copy_run (h : Stands lines s.pc (copyCode top done)) (hapart : s.cx.toNat ≤ (s.di - s.si).toNat) :
    Gives lines s (some ()) fun _ => Looped s (s.pc + 10) (source s) := by
  refine loop_run (I := fun s => s.cx.toNat ≤ (s.di - s.si).toNat) hnodup h
    h.tail.tail.tail.tail.tail.tail.tail.tail.tail.head (fun t hpc hapart hcx => ?_) s rfl hapart
  refine (copy_round hnodup (hpc ▸ h) hcx hapart).mono ?_
  rintro - u ⟨hu, hsi⟩
  refine ⟨hu, ?_⟩
  rw [hu.cx, hu.di, hsi]
  bv_omega

end Rounds

end Loops

/-! ### Arguments one after the other -/

section Arguments

variable {table : Signatures} {scope : Scope} {f : Frame} {s t : Processor} {lines c d : List Line} {e : Expr Note}
  {r : Effect}

/-- `t` has the frame and the stack of `s`. -/
structure Level (s t : Processor) : Prop extends Under s t where
  level : t.sp = s.sp

/-- An argument that is accepted and has an effect, with room on the stack for what waits in it. -/
structure Argument (table : Signatures) (scope : Scope) (f : Frame) (s : Processor) (e : Expr Note) (t : Ty) (r : Effect) :
    Prop where
  typed : HasType table scope e t
  effect : effect f s e = some r
  room : 2 * e.stacked ≤ s.sp.toNat

/-- The lines of an argument that there is room for. -/
structure Passes (f : Frame) (s : Processor) (e : Expr Note) (r : Effect) (code : List Line) : Prop
    extends Computes f s e r code where
  room : 2 * e.stacked ≤ s.sp.toNat

theorem Argument.exists_code {ty : Ty} (h : Argument table scope f s e ty r) : ∃ code, Passes f s e r code := by
  obtain ⟨code, hcode⟩ := exists_computes h.typed h.effect
  exact ⟨code, hcode, h.room⟩

theorem Passes.next (h : Passes f s e r c) (ht : Level s t) (hstands : Stands lines t.pc (c ++ d)) :
    ∃ u, Processor.Runs lines t u ∧ Evaluated t (t.pc + c.length) r u ∧ Level s u ∧ Stands lines u.pc d := by
  obtain ⟨u, hrun, hu⟩ := h.runs ht.toUnder hstands.left (by rw [ht.level]; exact h.room)
  refine ⟨u, hrun, hu, ⟨ht.toUnder.trans hu.toUnder, hu.level.trans ht.level⟩, ?_⟩
  rw [hu.pc]
  exact hstands.right

theorem step_instr {i : Instr} (h : Stands lines s.pc (.instr i :: d))
    (hi : Processor.execute lines { s with pc := s.pc + 1 } i = .next t) : Processor.step lines s = .next t := by
  rw [Processor.step, h.head]
  exact hi

end Arguments

/-! ### The lines of the functions -/

section Functions

variable {f : Frame} {s : Processor} {lines ca cb cc : List Line} {a b c : Expr Note} {p q r : Effect}
  (ha : Passes f s a p ca) (hb : Passes f s b q cb) (hc : Passes f s c r cc)

/-- `u` comes after `s` when the lines before `k` have been carried out, with the frame base and the stack pointer as they
were. -/
structure Ends (s : Processor) (k : Nat) (u : Processor) : Prop where
  bp : u.bp = s.bp
  sp : u.sp = s.sp
  pc : u.pc = k

/-- Only the word at `x` has changed from the stack pointer on, and is `w` now. -/
structure StoredAt (s : Processor) (x w : BitVec 16) (u : Processor) : Prop where
  word : u.wordAt x = w
  others : ∀ y : BitVec 16, s.sp.toNat ≤ y.toNat → y ≠ x → y ≠ x + 1 → u.memory y = s.memory y

def storeCode (ca cb : List Line) : List Line := ca ++ Line.movR .bx .ax :: (cb ++ [Line.mov (.at .bx) (.reg .ax)])

include ha hb in
theorem store_runs (h : Stands lines s.pc (storeCode ca cb)) :
    ∃ u, Processor.Runs lines s u ∧ Ends s (s.pc + (storeCode ca cb).length) u ∧
      StoredAt s (q.bx.getD p.ax) q.ax u := by
  obtain ⟨t, hrun, ht, hlevel, hpark⟩ := ha.next ⟨.refl s, rfl⟩ h
  have hlevel' : Level s { t with bx := t.ax, pc := t.pc + 1 } :=
    ⟨⟨hlevel.bp, hlevel.sp, hlevel.memory⟩, hlevel.level⟩
  obtain ⟨u, hrun', hu, hlast, hstore⟩ := hb.next hlevel' hpark.tail
  have hbx : u.bx = q.bx.getD p.ax := by
    rw [hu.bx]
    exact congrArg _ ht.ax
  refine ⟨{ u.setWordAt u.bx u.ax with pc := u.pc + 1 }, ?_, ⟨hlast.bp, hlast.level, ?_⟩, ?_, fun y hy hne hne' => ?_⟩
  · exact (hrun.tail (step_instr hpark rfl)).trans (hrun'.tail (step_instr hstore rfl))
  · show u.pc + 1 = _
    rw [hu.pc]
    show t.pc + 1 + cb.length + 1 = _
    rw [ht.pc]
    simp only [storeCode, length_append, length_cons, length_nil]
    omega
  · rw [← hbx, ← hu.ax]
    exact Processor.wordAt_setWordAt _ _ _
  · rw [← hbx] at hne hne'
    exact (Processor.memory_setWordAt _ _ hne hne').trans (hlast.memory y hy)

/-- The lines of `array_push` on an array that has its place at `k`. -/
def pushCode (k : Nat) (ca cb : List Line) : List Line :=
  ca ++ Line.movR .dx .ax :: (indexLines ++ (cb ++ [Line.mov (.element k) (.reg .ax), .movR .ax .dx, .one .inc .ax]))

include ha hb in
/-- The number of elements waits in `dx`, and the offset in `si`. -/
theorem push_runs {k : Nat} (h : Stands lines s.pc (pushCode k ca cb)) :
    ∃ u, Processor.Runs lines s u ∧ Ends s (s.pc + (pushCode k ca cb).length) u ∧ u.ax = q.dx.getD p.ax + 1 ∧
      StoredAt s (s.bp + q.si.getD (scaled p.ax) - .ofNat 16 k) q.ax u := by
  obtain ⟨t, hrun, ht, hlevel, hpark⟩ := ha.next ⟨.refl s, rfl⟩ h
  have hindex : ∃ flags, Processor.Runs lines t
      { t with dx := t.ax, si := scaled t.ax, flags := flags, pc := t.pc + 3 } :=
    ⟨_, .head (step_instr hpark rfl) (.head (step_instr hpark.tail rfl) (.single (step_instr hpark.tail.tail rfl)))⟩
  obtain ⟨flags, hrunIndex⟩ := hindex
  have hlevel' : Level s { t with dx := t.ax, si := scaled t.ax, flags := flags, pc := t.pc + 3 } :=
    ⟨⟨hlevel.bp, hlevel.sp, hlevel.memory⟩, hlevel.level⟩
  obtain ⟨u, hrun', hu, hlast, hstore⟩ := hb.next hlevel' hpark.tail.tail.tail
  have hdx : u.dx = q.dx.getD p.ax := by
    rw [hu.dx]
    exact congrArg _ ht.ax
  have hsi : u.si = q.si.getD (scaled p.ax) := by
    rw [hu.si]
    exact congrArg (fun w => q.si.getD (scaled w)) ht.ax
  have hend : ∃ flags, Processor.Runs lines u { u.setWordAt (u.bp + u.si - .ofNat 16 k) u.ax with
      ax := u.dx + 1, flags := flags, pc := u.pc + 3 } :=
    ⟨_, .head (step_instr hstore rfl) (.head (step_instr hstore.tail rfl) (.single (step_instr hstore.tail.tail rfl)))⟩
  obtain ⟨flags, hrunEnd⟩ := hend
  have hplace : u.bp + u.si - .ofNat 16 k = s.bp + q.si.getD (scaled p.ax) - .ofNat 16 k := by rw [hlast.bp, hsi]
  rw [hplace, hdx, hu.ax] at hrunEnd
  refine ⟨_, ((hrun.trans hrunIndex).trans hrun').trans hrunEnd, ⟨hlast.bp, hlast.level, ?_⟩, rfl, ?_,
    fun y hy hne hne' => ?_⟩
  · show u.pc + 3 = _
    rw [hu.pc]
    show t.pc + 3 + cb.length + 3 = _
    rw [ht.pc]
    simp only [pushCode, indexLines, length_append, length_cons, length_nil]
    omega
  · exact Processor.wordAt_setWordAt u _ _
  · exact (u.memory_setWordAt _ hne hne').trans (hlast.memory y hy)

def memsetCode (top done : String) (ca cb cc : List Line) : List Line :=
  ca ++ Line.movR .di .ax :: (cb ++ Line.movR .dl .al :: (cc ++ Line.movR .cx .ax :: fillCode top done))

def memcpyCode (top done : String) (ca cb cc : List Line) : List Line :=
  ca ++ Line.movR .di .ax :: (cb ++ Line.movR .si .ax :: (cc ++ Line.movR .cx .ax :: copyCode top done))

/-- The `n` bytes from `x` on are as `P` says, and from the stack pointer on nothing else has changed. -/
structure BytesAt (s : Processor) (x n : BitVec 16) (P : BitVec 16 → BitVec 8 → Prop) (u : Processor) : Prop where
  bytes : ∀ y, (y - x).toNat < n.toNat → P y (u.memory y)
  others : ∀ y : BitVec 16, s.sp.toNat ≤ y.toNat → n.toNat ≤ (y - x).toNat → u.memory y = s.memory y

theorem Looped.bytesAt {v w : Processor} {k : Nat} {x n : BitVec 16} {new : BitVec 16 → BitVec 8}
    {P : BitVec 16 → BitVec 8 → Prop} (h : Looped { v with cx := v.ax, pc := v.pc + 1 } k new w) (hlevel : Level s v)
    (hdi : v.di = x) (hax : v.ax = n) (hnew : ∀ y, P y (new y)) : Ends s k w ∧ BytesAt s x n P w := by
  subst hdi hax
  refine ⟨⟨h.bp.trans hlevel.bp, h.sp.trans hlevel.level, h.pc⟩, fun y hy => ?_, fun y hy hout => ?_⟩
  · rw [h.inside y hy]
    exact hnew y
  · exact (h.outside y hout).trans (hlevel.memory y hy)

section Loops

variable {top done : String}

include ha hb hc

/-- The arguments of a loop: the first one waits in `di`, the second one in a register that the instruction `i` writes, and
the third one becomes the count. -/
theorem loop_arguments {i : Instr} {g m : Processor → BitVec 16} {d : List Line}
    (hi : ∀ u : Processor, Processor.execute lines { u with pc := u.pc + 1 } i =
      .next { u with dx := g u, si := m u, pc := u.pc + 1 })
    (h : Stands lines s.pc (ca ++ Line.movR .di .ax :: (cb ++ Line.instr i :: (cc ++ Line.movR .cx .ax :: d)))) :
    ∃ u v, Processor.Runs lines s { v with cx := v.ax, pc := v.pc + 1 } ∧ u.ax = q.ax ∧ v.dx = r.dx.getD (g u) ∧
      v.si = r.si.getD (m u) ∧ v.di = p.ax ∧ v.ax = r.ax ∧ Level s v ∧
      v.pc + 1 = s.pc + ca.length + cb.length + cc.length + 3 ∧ Stands lines (v.pc + 1) d := by
  obtain ⟨t, hrun, ht, hlevel, hpark⟩ := ha.next ⟨.refl s, rfl⟩ h
  have hlevel' : Level s { t with di := t.ax, pc := t.pc + 1 } :=
    ⟨⟨hlevel.bp, hlevel.sp, hlevel.memory⟩, hlevel.level⟩
  obtain ⟨u, hrun', hu, hlevelu, hpark'⟩ := hb.next hlevel' hpark.tail
  have hlevelu' : Level s { u with dx := g u, si := m u, pc := u.pc + 1 } :=
    ⟨⟨hlevelu.bp, hlevelu.sp, hlevelu.memory⟩, hlevelu.level⟩
  obtain ⟨v, hrun'', hv, hlevelv, hcount⟩ := hc.next hlevelu' hpark'.tail
  refine ⟨u, v, ?_, hu.ax, hv.dx, hv.si, ?_, hv.ax, hlevelv, ?_, hcount.tail⟩
  · refine (hrun.tail (step_instr hpark rfl)).trans ((hrun'.tail (step_instr hpark' (hi u))).trans ?_)
    exact hrun''.tail (step_instr hcount rfl)
  · rw [hv.di]
    exact hu.di.trans ht.ax
  · rw [hv.pc]
    show u.pc + 1 + cc.length + 1 = _
    rw [hu.pc]
    show t.pc + 1 + cb.length + 1 + cc.length + 1 = _
    rw [ht.pc]
    omega

variable (hnodup : (labels lines).Nodup)

include hnodup

theorem memset_runs (h : Stands lines s.pc (memsetCode top done ca cb cc)) :
    ∃ u, Processor.Runs lines s u ∧ Ends s (s.pc + (memsetCode top done ca cb cc).length) u ∧
      BytesAt s p.ax r.ax (fun _ v => v = low (r.dx.getD q.ax)) u := by
  obtain ⟨u, v, hrun, hax, hdx, -, hdi, hcx, hlevel, hpc, hloop⟩ := loop_arguments ha hb hc
    (g := fun u => high u.dx ++ low u.ax) (m := fun u => u.si) (fun _ => rfl) h
  obtain ⟨w, hrun', hw⟩ := fill_run (s := { v with cx := v.ax, pc := v.pc + 1 }) hnodup hloop
  have hbyte : low v.dx = low (r.dx.getD q.ax) := by
    rw [hdx, hax]
    cases r.dx with
    | none => exact low_append _ _
    | some w => rfl
  have hlength : v.pc + 1 + 8 = s.pc + (memsetCode top done ca cb cc).length := by
    rw [hpc]
    simp only [memsetCode, fillCode, length_append, length_cons, length_nil]
    omega
  refine ⟨w, hrun.trans hrun', ?_⟩
  rw [← hlength]
  exact hw.bytesAt hlevel hdi hcx fun _ => hbyte

theorem memcpy_runs (h : Stands lines s.pc (memcpyCode top done ca cb cc))
    (hapart : r.ax.toNat ≤ (p.ax - r.si.getD q.ax).toNat) :
    ∃ u, Processor.Runs lines s u ∧ Ends s (s.pc + (memcpyCode top done ca cb cc).length) u ∧
      BytesAt s p.ax r.ax (fun y v => s.sp.toNat ≤ (r.si.getD q.ax + (y - p.ax)).toNat →
        v = s.memory (r.si.getD q.ax + (y - p.ax))) u := by
  obtain ⟨u, v, hrun, hax, -, hsi, hdi, hcx, hlevel, hpc, hloop⟩ := loop_arguments ha hb hc
    (g := fun u => u.dx) (m := fun u => u.ax) (fun _ => rfl) h
  rw [hax] at hsi
  have hapart' : v.ax.toNat ≤ (v.di - v.si).toNat := by
    rw [hcx, hdi, hsi]
    exact hapart
  obtain ⟨w, hrun', hw⟩ := copy_run (s := { v with cx := v.ax, pc := v.pc + 1 }) hnodup hloop hapart'
  have hlength : v.pc + 1 + 10 = s.pc + (memcpyCode top done ca cb cc).length := by
    rw [hpc]
    simp only [memcpyCode, copyCode, length_append, length_cons, length_nil]
    omega
  refine ⟨w, hrun.trans hrun', ?_⟩
  rw [← hlength]
  refine hw.bytesAt hlevel hdi hcx fun y hy => ?_
  show v.memory (v.si + (y - v.di)) = _
  rw [hsi, hdi]
  exact hlevel.memory _ hy

end Loops

/-! ### Generation -/

section Generation

variable (note : Note) (pool : Pool)

include ha hb

theorem exprLines_store : exprLines f (.call note "store16" [a, b]) pool = .ok (storeCode ca cb, pool) := by
  rw [exprLines]
  simp only [bind, StateT.bind, ha.lines, hb.lines, Except.bind]
  change Except.ok (_, pool) = Except.ok (_, pool)
  simp [storeCode]

theorem exprLines_push {x : Expr Note} {k : Nat} (hk : f.varOffset? x = some k) :
    exprLines f (.call note "array_push" [x, a, b]) pool = .ok (pushCode k ca cb, pool) := by
  rw [exprLines, hk]
  simp only [bind, StateT.bind, ha.lines, hb.lines, Except.bind]
  change Except.ok (_, pool) = Except.ok (_, pool)
  simp [pushCode]

include hc

theorem exprLines_memset : exprLines f (.call note "memset" [a, b, c]) pool =
    .ok (memsetCode ("MEMSET_LOOP" ++ toString (pool.labels + 1)) ("MEMSET_END" ++ toString (pool.labels + 2)) ca cb cc,
      { pool with labels := pool.labels + 2 }) := by
  rw [exprLines]
  simp only [bind, StateT.bind, ha.lines, hb.lines, hc.lines, Except.bind, fillLines, fresh, Pool.fresh]
  change Except.ok (_, _) = Except.ok (_, _)
  simp [memsetCode, fillCode]

theorem exprLines_memcpy : exprLines f (.call note "memcpy" [a, b, c]) pool =
    .ok (memcpyCode ("MEMCPY_LOOP" ++ toString (pool.labels + 1)) ("MEMCPY_END" ++ toString (pool.labels + 2)) ca cb cc,
      { pool with labels := pool.labels + 2 }) := by
  rw [exprLines]
  simp only [bind, StateT.bind, ha.lines, hb.lines, hc.lines, Except.bind, copyLines, fresh, Pool.fresh]
  change Except.ok (_, _) = Except.ok (_, _)
  simp [memcpyCode, copyCode]

theorem labels_loop (i : Instr) (d : List Line) :
    labels (ca ++ Line.movR .di .ax :: (cb ++ Line.instr i :: (cc ++ Line.movR .cx .ax :: d))) = labels d := by
  rw [labels_append, ha.labels]
  show labels (cb ++ Line.instr i :: (cc ++ Line.movR .cx .ax :: d)) = _
  rw [labels_append, hb.labels]
  show labels (cc ++ Line.movR .cx .ax :: d) = _
  rw [labels_append, hc.labels]
  rfl

end Generation

end Functions

/-! ### What the functions write -/

/-- The lines of a call run from `s` to their end, with the frame base and the stack pointer as they were, and `P` holds
there. -/
def Performs (f : Frame) (s : Processor) (call : Expr Note) (P : Processor → Prop) : Prop :=
  ∀ pool, ∃ lines pool' u, exprLines f call pool = .ok (lines, pool') ∧ Processor.Runs lines s u ∧
    Ends s lines.length u ∧ P u

section Performs

variable {table : Signatures} {scope : Scope} {f : Frame} {s : Processor} {a b c : Expr Note} {p q r : Effect}

theorem performs_of {call : Expr Note} {P : Processor → Prop} {code : List Line} {pool pool' : Pool} (hpc : s.pc = 0)
    (hcode : exprLines f call pool = .ok (code, pool'))
    (hrun : Stands code s.pc code → ∃ u, Processor.Runs code s u ∧ Ends s (s.pc + code.length) u ∧ P u) :
    ∃ lines pool' u, exprLines f call pool = .ok (lines, pool') ∧ Processor.Runs lines s u ∧ Ends s lines.length u ∧
      P u := by
  obtain ⟨u, hruns, hends, hu⟩ := hrun (.self hpc)
  rw [hpc, Nat.zero_add] at hends
  exact ⟨code, pool', u, hcode, hruns, hends, hu⟩

theorem nodup_loop {code : List Line} {n : Nat} {base base' : String}
    (h : labels code = [base ++ toString (n + 1), base' ++ toString (n + 2)]) (hbase : endsPlain base = true)
    (hbase' : endsPlain base' = true) : (labels code).Nodup := by
  rw [h]
  exact ((Numbered.fresh hbase).append (Numbered.fresh hbase')).nodup

variable (hpc : s.pc = 0) (note : Note)

include hpc

theorem store_performs (ha : Argument table scope f s a .ptr p) (hb : Argument table scope f s b .int q) :
    Performs f s (.call note "store16" [a, b]) (StoredAt s (q.bx.getD p.ax) q.ax) := by
  intro pool
  obtain ⟨ca, hca⟩ := ha.exists_code
  obtain ⟨cb, hcb⟩ := hb.exists_code
  exact performs_of hpc (exprLines_store hca hcb note pool) (store_runs hca hcb)

theorem memcpy_performs (ha : Argument table scope f s a .ptr p) (hb : Argument table scope f s b .ptr q)
    (hc : Argument table scope f s c .int r) (hapart : r.ax.toNat ≤ (p.ax - r.si.getD q.ax).toNat) :
    Performs f s (.call note "memcpy" [a, b, c]) (BytesAt s p.ax r.ax fun y v =>
      s.sp.toNat ≤ (r.si.getD q.ax + (y - p.ax)).toNat → v = s.memory (r.si.getD q.ax + (y - p.ax))) := by
  intro pool
  obtain ⟨ca, hca⟩ := ha.exists_code
  obtain ⟨cb, hcb⟩ := hb.exists_code
  obtain ⟨cc, hcc⟩ := hc.exists_code
  refine performs_of hpc (exprLines_memcpy hca hcb hcc note pool) fun h =>
    memcpy_runs hca hcb hcc ?_ h hapart
  exact nodup_loop (labels_loop hca hcb hcc _ _) rfl rfl

end Performs

/-- **What the functions on memory write**, for arguments without calls. `store16` and `array_push` set one word,
`memset` and `memcpy` as many bytes as the third argument says, at the address and with the value that the arguments
give, unless a later argument has changed the register in which one of them waits. An array that has no place is not
written. Nothing else changes from the stack pointer on. An argument changes `bx` only if an operator is in it, `dx`
only if there is a product or a division, and `si` only if there is an element of an array. -/
theorem memory_builtins {table : Signatures} {scope : Scope} {f : Frame} {s : Processor} (hpc : s.pc = 0) (note : Note) :
    (∀ a b p q, Argument table scope f s a .ptr p → Argument table scope f s b .int q →
      Performs f s (.call note "store16" [a, b]) (StoredAt s (q.bx.getD p.ax) q.ax)) ∧
    (∀ x k a b p q, f.varOffset? x = some k → Argument table scope f s a .int p → Argument table scope f s b .int q →
      Performs f s (.call note "array_push" [x, a, b]) fun u =>
        u.ax = q.dx.getD p.ax + 1 ∧ StoredAt s (s.bp + q.si.getD (scaled p.ax) - .ofNat 16 k) q.ax u) ∧
    (∀ x a b pool, f.varOffset? x = none →
      exprLines f (.call note "array_push" [x, a, b]) pool = .ok ([.call "array_push"], pool)) ∧
    (∀ a b c p q r, Argument table scope f s a .ptr p → Argument table scope f s b .int q →
      Argument table scope f s c .int r →
      Performs f s (.call note "memset" [a, b, c]) (BytesAt s p.ax r.ax fun _ v => v = low (r.dx.getD q.ax))) ∧
    (∀ a b c p q r, Argument table scope f s a .ptr p → Argument table scope f s b .ptr q →
      Argument table scope f s c .int r → r.ax.toNat ≤ (p.ax - r.si.getD q.ax).toNat →
      Performs f s (.call note "memcpy" [a, b, c]) (BytesAt s p.ax r.ax fun y v =>
        s.sp.toNat ≤ (r.si.getD q.ax + (y - p.ax)).toNat → v = s.memory (r.si.getD q.ax + (y - p.ax)))) ∧
    ∀ e t r, Argument table scope f s e t r → r.UsedBy e.parts ∧ ∀ w, wordIn f s e = some w → r.ax = w := by
  refine ⟨fun a b p q ha hb => store_performs hpc note ha hb, fun x k a b p q hk ha hb pool => ?_,
    fun x a b pool hx => ?_, fun a b c p q r ha hb hc pool => ?_,
    fun a b c p q r ha hb hc hapart => memcpy_performs hpc note ha hb hc hapart,
    fun e t r he => ⟨effect_usedBy he.effect, fun w => effect_ax he.effect⟩⟩
  · obtain ⟨ca, hca⟩ := ha.exists_code
    obtain ⟨cb, hcb⟩ := hb.exists_code
    exact performs_of hpc (exprLines_push hca hcb note pool hk) (push_runs hca hcb)
  · rw [exprLines, hx]
    rfl
  · obtain ⟨ca, hca⟩ := ha.exists_code
    obtain ⟨cb, hcb⟩ := hb.exists_code
    obtain ⟨cc, hcc⟩ := hc.exists_code
    refine performs_of hpc (exprLines_memset hca hcb hcc note pool) (memset_runs hca hcb hcc ?_)
    exact nodup_loop (labels_loop hca hcb hcc _ _) rfl rfl

section Sums

/-- The frame of `let a: int[2]; let x: int;`. -/
def pairFrame : Frame := { offsets := [("a", 4), ("x", 6)], size := 6 }

/-- The names of `pairFrame`. -/
def pairScope : Scope := [[("a", .array "int[2]" 2), ("x", .int)]]

/-- The frame base is 100, so `a` begins at 96 and `x` is at 94. The second element of `a` is 7. -/
def pairState : Processor :=
  { bp := 100, sp := 94, memory := fun a => if a = 98 then 7 else 0 }

/-- `a` -/
def pair : Expr Note := .var (some (.array "int[2]" 2)) "a"

def addressX : Expr Note := .addr (some .ptr) (.var none "x")

def onePlus (m : Int) : Expr Note := .binary (some .int) .add (.lit (some .int) (.int 1)) (.lit (some .int) (.int m))

def pushSum : Expr Note := .call (some .int) "array_push" [pair, .lit (some .int) (.int 1), onePlus 2]

/-- `memcpy(&x, &a[1], 1 + 1)` -/
def copySum : Expr Note :=
  .call (some .void) "memcpy" [addressX, .addr (some .ptr) (.index none pair (.lit (some .int) (.int 1))), onePlus 1]

def storeSum : Expr Note := .call (some .void) "store16" [addressX, onePlus 2]

theorem onePlus_hasType (table : Signatures) (m : Int) : HasType table pairScope (onePlus m) .int :=
  .binary (.lit (.int 1)) (.lit (.int m)) rfl

theorem onePlus_argument (m : Int) :
    Argument [] pairScope pairFrame pairState (onePlus m) .int { ax := 1 + .ofInt 16 m, bx := some 1 } :=
  ⟨onePlus_hasType [] m, rfl, show 2 * 1 ≤ 94 by decide⟩

theorem addressX_argument : Argument [] pairScope pairFrame pairState addressX .ptr { ax := 94 } :=
  ⟨.addrVar rfl, rfl, by decide⟩

/-- What waits in `dx`, `si` and `di` is not lost in a sum. -/
theorem sums_kept :
    (∃ lines pool u, exprLines pairFrame pushSum {} = .ok (lines, pool) ∧ Processor.Runs lines pairState u ∧
      u.pc = lines.length ∧ u.ax = 2 ∧ u.wordAt 98 = 3) ∧
    ∃ lines pool u, exprLines pairFrame copySum {} = .ok (lines, pool) ∧ Processor.Runs lines pairState u ∧
      u.pc = lines.length ∧ u.memory 94 = 7 ∧ u.memory 95 = 0 ∧ u.memory 98 = 7 := by
  have helement : Argument [] pairScope pairFrame pairState
      (.addr (some .ptr) (.index none pair (.lit (some .int) (.int 1)))) .ptr { ax := 98, si := some 2 } :=
    ⟨.addrIndex (.var rfl) rfl (.lit (.int 1)), by decide, by decide⟩
  have hone : Argument [] pairScope pairFrame pairState (.lit (some .int) (.int 1)) .int { ax := 1 } :=
    ⟨.lit (.int 1), rfl, by decide⟩
  constructor
  · obtain ⟨-, hpush, -⟩ := memory_builtins (s := pairState) rfl (some .int)
    obtain ⟨lines, pool, u, hlines, hrun, hends, hax, hu⟩ := hpush pair 4 _ _ _ _ rfl hone (onePlus_argument 2) {}
    exact ⟨lines, pool, u, hlines, hrun, hends.pc, hax, hu.word⟩
  · obtain ⟨-, -, -, -, hcopy, -⟩ := memory_builtins (s := pairState) rfl (some .void)
    obtain ⟨lines, pool, u, hlines, hrun, hends, hu⟩ :=
      hcopy _ _ _ _ _ _ addressX_argument helement (onePlus_argument 1) (by decide) {}
    exact ⟨lines, pool, u, hlines, hrun, hends.pc, hu.bytes 94 (by decide) (by decide),
      hu.bytes 95 (by decide) (by decide), hu.others 98 (by decide) (by decide)⟩

/-- What waits in `bx` is: the sum goes to the address 1, and `x` stays as it was. -/
theorem sum_misplaced : HasType (Signatures.withBuiltins []) pairScope storeSum .void ∧
    ∃ lines pool u, exprLines pairFrame storeSum {} = .ok (lines, pool) ∧ Processor.Runs lines pairState u ∧
      u.pc = lines.length ∧ u.wordAt 1 = 3 ∧ u.memory 94 = 0 ∧ u.memory 95 = 0 := by
  constructor
  · have hsignature : (Signatures.withBuiltins []).lookup "store16" = some ⟨[.ptr, .int], .void⟩ := rfl
    refine .call (by decide) (by decide) hsignature rfl ?_
    rintro a t (_ | ⟨_, _ | ⟨_, ⟨⟩⟩⟩)
    · exact .addrVar rfl
    · exact onePlus_hasType _ 2
  · obtain ⟨lines, pool, u, hlines, hrun, hends, hu⟩ :=
      store_performs rfl (some .void) addressX_argument (onePlus_argument 2) {}
    exact ⟨lines, pool, u, hlines, hrun, hends.pc, hu.word, hu.others 94 (by decide) (by decide) (by decide),
      hu.others 95 (by decide) (by decide) (by decide)⟩

end Sums

end Workbench.Assembly
