import Workbench.Proofs.CodeShape
import Workbench.Proofs.Link

/-!
# Places in a frame

The frame of a function gives each name that is declared in it the bytes that its first declaration asks for, below those
of the names before (`Frame.Tiles`). A declaration as `void` asks for none, and any other one for two bytes at least. So
a word that is stored for a variable stays within its bytes, unless the variable is `void`: then it goes to the variable
above or, if there is none, over the saved frame base.
-/

open List Option

namespace Workbench

namespace Stmt

variable {α : Type}

mutual

/-- What a statement declares, plain blocks included, with the types that are written. -/
def allDeclsOf : Stmt α → List (String × Option String)
  | .decl x t _ => [(x, t)]
  | .cond _ yes none => allDecls yes
  | .cond _ yes (some no) => allDecls yes ++ allDecls no
  | .loop _ body | .block body => allDecls body
  | _ => []
termination_by structural s => s

/-- What statements declare, in order. -/
def allDecls : List (Stmt α) → List (String × Option String)
  | [] => []
  | s :: ss => allDeclsOf s ++ allDecls ss
termination_by structural ss => ss

end

end Stmt

namespace Assembly

open Typing (Note)

/-! ### Sizes -/

section Sizes

variable {w : Option String} {name : String} {n : Nat}

theorem declaredBytes_some (hname : name.isEmpty = false) :
    declaredBytes (some name) = if (Ty.ofName name).size = 1 then 2 else (Ty.ofName name).size := by
  rw [declaredBytes, Ty.written?, filter_some, hname]
  rfl

theorem declaredBytes_array (h : Ty.arrayLength? name = some n) : 0 < n ∧ declaredBytes (some name) = 2 * n := by
  have hname : name.isEmpty = false := by
    rw [Bool.eq_false_iff]
    intro hempty
    rw [String.isEmpty_iff.1 hempty] at h
    cases h
  have hpos : 0 < n := by
    unfold Ty.arrayLength? at h
    split at h
    · split at h
      · cases h
        omega
      · cases h
    · cases h
  have hsize : (Ty.ofName name).size = 2 * n := by rw [Ty.ofName, h, Ty.size]
  rw [declaredBytes_some hname, hsize, if_neg (by omega)]
  exact ⟨hpos, rfl⟩

/-- Only what is declared as `void` takes no bytes; all else takes at least two. -/
theorem declaredBytes_cases (w : Option String) : (w = some "void" ∧ declaredBytes w = 0) ∨
    (w ≠ some "void" ∧ 2 ≤ declaredBytes w) := by
  cases w with
  | none => exact .inr ⟨by simp, Nat.le_refl 2⟩
  | some name =>
    by_cases hvoid : name = "void"
    · exact .inl ⟨congrArg some hvoid, by rw [hvoid]; decide⟩
    refine .inr ⟨fun h => hvoid (some.inj h), ?_⟩
    cases hname : name.isEmpty with
    | true =>
      rw [String.isEmpty_iff.1 hname]
      decide
    | false =>
      cases hlength : Ty.arrayLength? name with
      | some n =>
        have harray := declaredBytes_array hlength
        omega
      | none =>
        rw [declaredBytes_some hname, Ty.ofName, hlength]
        simp only [beq_iff_eq]
        split
        · decide
        · split
          · decide
          · split <;> decide

end Sizes

/-! ### Frames -/

namespace Frame

variable {α : Type} {f : Frame} {ds : List (String × Option String)} {x y : String} {k l b c : Nat}

/-- The frame after some declarations. -/
def addAll (f : Frame) (ds : List (String × Option String)) : Frame :=
  ds.foldl (fun f d => f.add d.1 (declaredBytes d.2)) f

theorem addStmts_eq_addAll (ss : List (Stmt α)) : ∀ f : Frame, f.addStmts ss = f.addAll (Stmt.allDecls ss) := by
  induction ss using Stmt.parts_induction (P := fun s => ∀ f : Frame, f.addStmt s = f.addAll (Stmt.allDeclsOf s)) with
  | nil => exact fun _ => rfl
  | cons s ss ihs ih =>
    intro f
    rw [addStmts, ihs, ih, Stmt.allDecls, addAll, addAll, addAll, foldl_append]
  | cond test yes no ihy ihn => rw [addStmt, ihy, ihn, Stmt.allDeclsOf, addAll, addAll, addAll, foldl_append]
  | condThen test body ihb | loop test body ihb | block body ihb => exact ihb _
  | _ => rfl

/-- The variable `x` has its place at `k` below the frame base, and `b` bytes from there on. -/
def Place (f : Frame) (ds : List (String × Option String)) (x : String) (k b : Nat) : Prop :=
  f.offset? x = some k ∧ (ds.lookup x).map declaredBytes = some b

instance (x : String) (k b : Nat) : Decidable (f.Place ds x k b) := inferInstanceAs (Decidable (_ ∧ _))

/-- The names that are declared lie below each other in the frame, with the bytes of their first declaration. One without
bytes shares the place of one that has some, or is at the frame base. -/
structure Tiles (f : Frame) (ds : List (String × Option String)) : Prop where
  placed : ∀ x, (f.offset? x).isSome = (ds.lookup x).isSome
  inside : ∀ x k b, f.Place ds x k b → b ≤ k ∧ k ≤ f.size
  apart : ∀ x y k l b c, x ≠ y → f.Place ds x k b → f.Place ds y l c → l + b ≤ k ∨ k + c ≤ l
  shared : ∀ k, k = f.size ∨ (∃ x, f.Place ds x k 0) → k = 0 ∨ ∃ y c, f.Place ds y k c ∧ 0 < c

theorem tiles_empty : Tiles {} [] := by
  have hnone : ∀ {x k b}, ¬Place {} [] x k b := fun h => some_ne_none _ h.1.symm
  constructor
  · exact fun _ => rfl
  · exact fun _ _ _ h => absurd h hnone
  · exact fun _ _ _ _ _ _ _ h => absurd h hnone
  · exact fun _ h => .inl (h.elim id fun ⟨_, h⟩ => absurd h hnone)

theorem lookup_redeclared {t : Option String} (hx : (ds.lookup x).isSome = true) (y : String) :
    (ds ++ [(x, t)]).lookup y = ds.lookup y := by
  rw [lookup_append]
  by_cases hy : y = x
  · obtain ⟨w, hw⟩ := isSome_iff_exists.1 hx
    rw [hy, hw]
    rfl
  · rw [lookup_cons, beq_false_of_ne hy]
    exact or_none

theorem place_new {t : Option String} (hf : f.offset? x = none) (hx : ds.lookup x = none) :
    (f.add x (declaredBytes t)).Place (ds ++ [(x, t)]) y k b ↔
      if y = x then k = f.size + declaredBytes t ∧ b = declaredBytes t else f.Place ds y k b := by
  have hadd : (f.add x (declaredBytes t)).offset? y =
      (f.offset? y).or ([(x, f.size + declaredBytes t)].lookup y) := by
    rw [Frame.add, hf, if_neg (by simp), offset?, lookup_append]
    rfl
  rw [Place, hadd, lookup_append, lookup_cons, lookup_cons]
  by_cases hy : y = x
  · simp [hy, hf, hx, eq_comm]
  · rw [if_neg hy, beq_false_of_ne hy]
    simp [Place]

theorem Tiles.redeclare (h : f.Tiles ds) {t : Option String} (hx : (ds.lookup x).isSome = true) :
    f.Tiles (ds ++ [(x, t)]) := by
  have hplace : f.Place (ds ++ [(x, t)]) = f.Place ds := by
    funext y k b
    rw [Place, Place, lookup_redeclared hx]
  constructor
  · exact fun y => lookup_redeclared hx y ▸ h.placed y
  · exact hplace ▸ h.inside
  · exact hplace ▸ h.apart
  · exact hplace ▸ h.shared

/-- A new name takes the bytes below those of the names before it. -/
theorem Tiles.declare (h : f.Tiles ds) {t : Option String} (hf : f.offset? x = none) (hx : ds.lookup x = none) :
    (f.add x (declaredBytes t)).Tiles (ds ++ [(x, t)]) := by
  have hsize : (f.add x (declaredBytes t)).size = f.size + declaredBytes t := by rw [Frame.add, hf, if_neg (by simp)]
  have hself : (f.add x (declaredBytes t)).Place (ds ++ [(x, t)]) x (f.size + declaredBytes t) (declaredBytes t) :=
    (place_new hf hx).2 (by simp)
  have hold : ∀ {y k b}, f.Place ds y k b → (f.add x (declaredBytes t)).Place (ds ++ [(x, t)]) y k b := by
    intro y k b hy
    have hne : y ≠ x := by
      rintro rfl
      exact some_ne_none k (hy.1.symm.trans hf)
    exact (place_new hf hx).2 (by rwa [if_neg hne])
  have hcases : ∀ {y k b}, (f.add x (declaredBytes t)).Place (ds ++ [(x, t)]) y k b →
      (y = x ∧ k = f.size + declaredBytes t ∧ b = declaredBytes t) ∨ f.Place ds y k b := by
    intro y k b hy
    have hif := (place_new hf hx).1 hy
    split at hif
    · exact .inl ⟨‹_›, hif⟩
    · exact .inr hif
  constructor
  · intro y
    rw [Frame.add, hf, if_neg (by simp), offset?, lookup_append, lookup_append, isSome_or,
      isSome_or, ← h.placed y, lookup_cons, lookup_cons]
    cases y == x <;> rfl
  · intro y k b hy
    rw [hsize]
    rcases hcases hy with ⟨-, rfl, rfl⟩ | hy
    · omega
    · have := h.inside y k b hy
      omega
  · intro y z k l b c hne hy hz
    rcases hcases hy with ⟨rfl, rfl, rfl⟩ | hy'
    · rcases hcases hz with ⟨rfl, -⟩ | hz'
      · exact absurd rfl hne
      · have := h.inside z l c hz'
        omega
    · rcases hcases hz with ⟨rfl, rfl, rfl⟩ | hz'
      · have := h.inside y k b hy'
        omega
      · exact h.apart y z k l b c hne hy' hz'
  · have hshare : ∀ k, k = f.size ∨ (∃ y, f.Place ds y k 0) →
        k = 0 ∨ ∃ y c, (f.add x (declaredBytes t)).Place (ds ++ [(x, t)]) y k c ∧ 0 < c :=
      fun k hk => (h.shared k hk).imp_right fun ⟨y, c, hy, hc⟩ => ⟨y, c, hold hy, hc⟩
    -- The end of the frame is the place of the new name, if it has bytes, or where it was.
    have hend : f.size + declaredBytes t = 0 ∨ ∃ y c,
        (f.add x (declaredBytes t)).Place (ds ++ [(x, t)]) y (f.size + declaredBytes t) c ∧ 0 < c := by
      rcases Nat.eq_zero_or_pos (declaredBytes t) with hzero | hpos
      · exact hshare _ (.inl (by omega))
      · exact .inr ⟨x, _, hself, hpos⟩
    rintro k (hk | ⟨y, hy⟩)
    · rw [hk, hsize]
      exact hend
    · rcases hcases hy with ⟨-, rfl, -⟩ | hy
      · exact hend
      · exact hshare k (.inr ⟨y, hy⟩)

theorem Tiles.add (h : f.Tiles ds) (x : String) (t : Option String) :
    (f.add x (declaredBytes t)).Tiles (ds ++ [(x, t)]) := by
  cases hx : f.offset? x with
  | some k =>
    rw [Frame.add, hx, if_pos isSome_some]
    exact h.redeclare (by rw [← h.placed, hx, isSome_some])
  | none =>
    have hlookup := h.placed x
    rw [hx, isSome_none, eq_comm, isSome_eq_false_iff, isNone_iff_eq_none] at hlookup
    exact h.declare hx hlookup

theorem Tiles.addAll (h : f.Tiles ds) (es : List (String × Option String)) : (f.addAll es).Tiles (ds ++ es) := by
  induction es generalizing f ds with
  | nil => exact (append_nil ds).symm ▸ h
  | cons d es ih =>
    have hstep := ih (h.add d.1 d.2)
    rwa [append_assoc] at hstep

/-- **Frames are tiled** by the names that are declared in the function. -/
theorem tiles_ofFunction (fn : Function α) : (ofFunction fn).Tiles (Stmt.allDecls fn.body) := by
  rw [ofFunction, addStmts_eq_addAll]
  exact tiles_empty.addAll _

end Frame

/-! ### Stores -/

/-- The byte at `a` is one of the `b` bytes from `k` below the frame base on. -/
def Processor.InPlace (s : Processor) (k b : Nat) (a : BitVec 16) : Prop :=
  s.bp.toNat ≤ a.toNat + k ∧ a.toNat + k < s.bp.toNat + b

instance (s : Processor) (k b : Nat) (a : BitVec 16) : Decidable (s.InPlace k b a) := inferInstanceAs (Decidable (_ ∧ _))

/-- How far above its target a line writes. -/
def Line.displacement (s : Processor) : Line → Nat
  | .instr (.two _ (.element _) _) => s.si.toNat
  | _ => 0

namespace Frame

variable {f : Frame} {ds : List (String × Option String)} {x : String} {k b i : Nat} {s t : Processor}

/-- From `s` to `t`, the bytes of all variables other than `x` stay as they are, and so does memory from the frame base
on. -/
structure Keeps (f : Frame) (ds : List (String × Option String)) (x : String) (s t : Processor) : Prop where
  others : ∀ y l c, y ≠ x → f.Place ds y l c → ∀ a, s.InPlace l c a → t.memory a = s.memory a
  saved : ∀ a : BitVec 16, s.bp.toNat ≤ a.toNat → t.memory a = s.memory a

/-- A word within the bytes of a variable does not change any other one. -/
theorem Tiles.keeps (h : f.Tiles ds) (hx : f.Place ds x k b) (hi : i + 2 ≤ b) (hframe : f.size ≤ s.bp.toNat)
    (v : BitVec 16) : f.Keeps ds x s (s.setWordAt (s.bp + .ofNat 16 i - .ofNat 16 k) v) := by
  have hlt := s.bp.isLt
  obtain ⟨hbk, hk⟩ := h.inside x k b hx
  have hlow : (s.bp + .ofNat 16 i - .ofNat 16 k).toNat + k = s.bp.toNat + i := by bv_omega
  have hhigh : (s.bp + .ofNat 16 i - .ofNat 16 k + 1).toNat + k = s.bp.toNat + i + 1 := by bv_omega
  constructor
  · intro y l c hne hy a ha
    have hapart := h.apart x y k l b c hne.symm hx hy
    refine s.memory_setWordAt v ?_ ?_
    · rintro rfl
      obtain ⟨hbelow, habove⟩ := ha
      omega
    · rintro rfl
      obtain ⟨hbelow, habove⟩ := ha
      omega
  · intro a ha
    refine s.memory_setWordAt v ?_ ?_
    · rintro rfl
      omega
    · rintro rfl
      omega

/-- A variable without bytes has its place at the frame base, or where another variable has its own. -/
theorem Tiles.share (h : f.Tiles ds) (hx : f.Place ds x k 0) : k = 0 ∨ ∃ y c, y ≠ x ∧ f.Place ds y k c ∧ 2 ≤ c := by
  refine (h.shared k (.inr ⟨x, hx⟩)).imp_right fun ⟨y, c, hy, hc⟩ => ⟨y, c, ?_, hy, ?_⟩
  · rintro rfl
    have hzero : 0 = c := some.inj (hx.2.symm.trans hy.2)
    omega
  · obtain ⟨w, -, rfl⟩ := map_eq_some_iff.1 hy.2
    have := declaredBytes_cases w
    omega

end Frame

section Lines

variable {f : Frame} {raw : Prop} {lines : List Line} {s : Processor} {l : Line} {k : Nat}

theorem step_store (hl : l = .mov (.local k) (.reg .ax) ∨ l = .mov (.element k) (.reg .ax))
    (hline : lines[s.pc]? = some l) : Processor.step lines s =
      .next { s.setWordAt (s.bp + .ofNat 16 (l.displacement s) - .ofNat 16 k) s.ax with pc := s.pc + 1 } := by
  rw [Processor.step, hline]
  rcases hl with rfl | rfl
  · have hplace : s.bp + .ofNat 16 (Line.displacement s (.mov (.local k) (.reg .ax))) = s.bp := BitVec.add_zero _
    rw [hplace]
    rfl
  · have hindex : BitVec.ofNat 16 (Line.displacement s (.mov (.element k) (.reg .ax))) = s.si := by
      rw [Line.mov, Line.displacement, BitVec.ofNat_toNat, BitVec.setWidth_eq]
    rw [hindex]
    rfl

/-- Generated code writes below the frame base only where a variable has its place. -/
theorem Built.store {xs : List String} (h : Built f raw lines xs) (hmem : l ∈ lines) (hk : l.target? = some k) :
    (l = .mov (.local k) (.reg .ax) ∨ l = .mov (.element k) (.reg .ax)) ∧ ∃ x, f.offset? x = some k := by
  have hstore : ∀ l ∈ lines, l.target? = some k →
      (l = .mov (.local k) (.reg .ax) ∨ l = .mov (.element k) (.reg .ax)) ∧ ∃ x, f.offset? x = some k := by
    refine h.lines_of (fun l hl hk => ?_) (fun x hk => nomatch hk) fun j x hk => nomatch hk
    unfold Line.isPlain at hl
    split at hl
    case h_4 => cases hk
    case h_5 => exact hl k hk
    all_goals exact hl.elim
  exact hstore l hmem hk

end Lines

/-- **Places in a frame, and the stores to them.** Every name has its place, with the bytes that its first declaration
asks for; the places are within the frame and apart. A line that writes below the frame base stores `ax` at the place of
a variable, or above it. Within the bytes of the variable this changes nothing else; for a variable without bytes the
word is that of another one, or the frame base that was saved. -/
theorem stores_in_place (fn : Function Note) {p q : Pool} {lines : List Line}
    (hlines : functionLines fn p = .ok (lines, q)) :
    (Frame.ofFunction fn).Tiles (Stmt.allDecls fn.body) ∧
    (∀ x w, (Stmt.allDecls fn.body).lookup x = some w →
      (∃ k, (Frame.ofFunction fn).Place (Stmt.allDecls fn.body) x k (declaredBytes w)) ∧
      (w = some "void" → declaredBytes w = 0) ∧ (w ≠ some "void" → 2 ≤ declaredBytes w) ∧
      ∀ name n, w = some name → Ty.arrayLength? name = some n → declaredBytes w = 2 * n) ∧
    ∀ (s : Processor) (l : Line) (k : Nat), lines[s.pc]? = some l → l.target? = some k →
      (Frame.ofFunction fn).size ≤ s.bp.toNat →
      (∃ x b, (Frame.ofFunction fn).Place (Stmt.allDecls fn.body) x k b) ∧
      ∃ t, Processor.step lines s = .next t ∧
        t.wordAt (s.bp + .ofNat 16 (l.displacement s) - .ofNat 16 k) = s.ax ∧
        ∀ x b, (Frame.ofFunction fn).Place (Stmt.allDecls fn.body) x k b →
          (l.displacement s + 2 ≤ b → (Frame.ofFunction fn).Keeps (Stmt.allDecls fn.body) x s t) ∧
          (b = 0 → k = 0 ∨ ∃ y c, y ≠ x ∧ (Frame.ofFunction fn).Place (Stmt.allDecls fn.body) y k c ∧ 2 ≤ c) := by
  have htiles := Frame.tiles_ofFunction fn
  refine ⟨htiles, fun x w hw => ⟨?_, ?_, ?_, ?_⟩, fun s l k hline hk hframe => ?_⟩
  · have hplaced := htiles.placed x
    rw [hw] at hplaced
    obtain ⟨k, hk⟩ := Option.isSome_iff_exists.1 hplaced
    exact ⟨k, hk, by rw [hw, Option.map_some]⟩
  · rintro rfl
    rfl
  · exact fun hne => (declaredBytes_cases w).elim (fun h => absurd h.1 hne) And.right
  · rintro name n rfl hn
    exact (declaredBytes_array hn).2
  · obtain ⟨xs, -, -, c, rfl, hbuilt⟩ := functionLines_makes True (.inl trivial) p lines q hlines
    have hmem : l ∈ c := by
      rcases List.mem_cons.1 (List.mem_of_getElem? hline) with rfl | hmem
      · cases hk
      rcases List.mem_cons.1 hmem with rfl | hmem
      · cases hk
      exact hmem
    obtain ⟨hstore, x, hx⟩ := hbuilt.store hmem hk
    have hdeclared : ((Stmt.allDecls fn.body).lookup x).isSome = true := by rw [← htiles.placed, hx, Option.isSome_some]
    obtain ⟨w, hw⟩ := Option.isSome_iff_exists.1 hdeclared
    refine ⟨⟨x, _, hx, by rw [hw, Option.map_some]⟩, _, step_store hstore hline, ?_, fun y b hy => ⟨fun hb => ?_, ?_⟩⟩
    · exact Processor.wordAt_setWordAt s _ _
    · have hkeeps := htiles.keeps hy hb hframe s.ax
      exact ⟨hkeeps.others, hkeeps.saved⟩
    · rintro rfl
      exact htiles.share hy

section Shelf

/-- `let a: int[2]; while (true) { let b: bool; let a: int[9]; } a[1] = 5;` -/
def shelf : Function Note where
  name := "main"
  params := []
  returnType := none
  body := [.decl "a" (some "int[2]") none,
    .loop (.lit (some .bool) (.bool true)) [.decl "b" (some "bool") none, .decl "a" (some "int[9]") none],
    .assign (.index (some .int) (.var (some (.array "int[2]" 2)) "a") (.lit (some .int) (.int 1)))
      (.lit (some .int) (.int 5))]

def shelfLines : List Line :=
  [.exported "main", .label "main", .one .push .bp, .movR .bp .sp, .twoImm .sub .sp 6, .zero, .mov (.local 4) (.reg .ax),
    .label "WHL1", .movAx 1, .twoImm .cmp .ax 0, .jump .e "ENDW2", .zero, .mov (.local 6) (.reg .ax), .zero,
    .mov (.local 4) (.reg .ax), .jump .always "WHL1", .label "ENDW2", .movAx 5, .one .push .ax, .movAx 1, .movR .si .ax,
    .twoImm .shl .si 1, .one .pop .ax, .mov (.element 4) (.reg .ax), .movR .sp .bp, .one .pop .bp, .instr .ret]

/-- The frame base is 100, and `a[1]` is about to be set. -/
def shelfState : Processor :=
  { ax := 5, si := 2, bp := 100, sp := 94, pc := 23, memory := fun _ => 7 }

theorem shelf_stores : functionLines shelf {} = .ok (shelfLines, { labels := 2 }) ∧
    Stmt.allDecls shelf.body = [("a", some "int[2]"), ("b", some "bool"), ("a", some "int[9]")] ∧
    (Frame.ofFunction shelf).Place (Stmt.allDecls shelf.body) "a" 4 4 ∧
    (Frame.ofFunction shelf).Place (Stmt.allDecls shelf.body) "b" 6 2 ∧
    ∃ t, Processor.step shelfLines shelfState = .next t ∧ t.wordAt 98 = 5 ∧ t.memory 94 = 7 ∧ t.memory 95 = 7 ∧
      t.memory 100 = 7 := by
  have hframe : Frame.ofFunction shelf = { offsets := [("a", 4), ("b", 6)], size := 6 } := by decide
  have hdeclared : Stmt.allDecls shelf.body = [("a", some "int[2]"), ("b", some "bool"), ("a", some "int[9]")] := by decide
  have ha : (Frame.ofFunction shelf).Place (Stmt.allDecls shelf.body) "a" 4 4 := by
    rw [hframe, hdeclared]
    decide
  have hb : (Frame.ofFunction shelf).Place (Stmt.allDecls shelf.body) "b" 6 2 := by
    rw [hframe, hdeclared]
    decide
  have hlines : functionLines shelf {} = .ok (shelfLines, { labels := 2 }) := by
    rw [functionLines, hframe]
    rfl
  obtain ⟨-, -, hstore⟩ := stores_in_place shelf hlines
  obtain ⟨-, t, hstep, hword, hkeeps⟩ := hstore shelfState (.mov (.element 4) (.reg .ax)) 4 rfl rfl (by decide)
  obtain ⟨hothers, hsaved⟩ := (hkeeps "a" 4 ha).1 (by decide)
  exact ⟨hlines, hdeclared, ha, hb, t, hstep, hword, hothers "b" 6 2 (by decide) hb 94 (by decide),
    hothers "b" 6 2 (by decide) hb 95 (by decide), hsaved 100 (by decide)⟩

end Shelf

section Void

/-- A variable without bytes. -/
def voidOnly : String := "fn main() \x7b let v: void; \x7d"

def voidOnlyLines : List Line :=
  [.exported "main", .label "main", .one .push .bp, .movR .bp .sp, .zero, .mov (.local 0) (.reg .ax), .movR .sp .bp,
    .one .pop .bp, .instr .ret]

/-- A variable that is declared as `void` has no bytes, and clearing it clears the frame base that was saved: whatever it
was, the function leaves with zero there. -/
theorem voidOnly_overwrites : ∃ prog fn, checkedProgram voidOnly = .ok prog ∧ fn ∈ prog.functions ∧
    Stmt.allDecls fn.body = [("v", some "void")] ∧ Frame.ofFunction fn = { offsets := [("v", 0)], size := 0 } ∧
    functionLines fn {} = .ok (voidOnlyLines, {}) ∧
    ∀ s : Processor, s.pc = 0 → ∃ t, Processor.Runs voidOnlyLines s t ∧ t.pc = 8 ∧ t.bp = 0 := by
  obtain ⟨prog, hprog, fn, hfn, hdeclared, hframe, hlines⟩ : ∃ prog, checkedProgram voidOnly = .ok prog ∧
      ∃ fn ∈ prog.functions, Stmt.allDecls fn.body = [("v", some "void")] ∧
        Frame.ofFunction fn = { offsets := [("v", 0)], size := 0 } ∧
        functionLines fn {} = .ok (voidOnlyLines, {}) := by
    rw [checkedProgram, show Token.tokens voidOnly = _ from Token.tokens_ofList _]
    decide +kernel
  refine ⟨prog, fn, hprog, hfn, hdeclared, hframe, hlines, ?_⟩
  have hclear : ∀ u : Processor, u.pc = 5 → u.ax = 0 → ∃ t, Processor.Runs voidOnlyLines u t ∧ t.pc = 8 ∧ t.bp = 0 := by
    rintro ⟨_, bx, cx, dx, si, di, bp, sp, flags, memory, _⟩ rfl rfl
    refine ⟨_, .head rfl (.head rfl (.head rfl .refl)), rfl, ?_⟩
    show (Processor.setWordAt ⟨0, bx, cx, dx, si, di, bp, sp, flags, memory, 6⟩ (bp - 0#16) 0).wordAt bp = 0
    rw [BitVec.sub_zero]
    exact Processor.wordAt_setWordAt _ _ _
  intro s hpc
  have hstart : ∃ u, Processor.Runs voidOnlyLines s u ∧ u.pc = 5 ∧ u.ax = 0 := by
    obtain ⟨ax, bx, cx, dx, si, di, bp, sp, flags, memory, _⟩ := s
    subst hpc
    exact ⟨_, .head rfl (.head rfl (.head rfl (.head rfl (.head rfl .refl)))), rfl, BitVec.xor_self⟩
  obtain ⟨u, hrun, hu, hax⟩ := hstart
  obtain ⟨t, hrun', ht⟩ := hclear u hu hax
  exact ⟨t, hrun.trans hrun', ht⟩

end Void

end Assembly

end Workbench
