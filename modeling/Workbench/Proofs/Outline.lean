import Mathlib.Data.List.Nodup
import Workbench.Tabs.Desk

/-!
# Buffers and their tabs

What happens to a desk is a list of acts. The user makes, shows, opens, saves and closes buffers, and works in the
editor; between two acts the answers that are still to come and the disk may become anything, so every dialog may be
answered and every file may fail in any way.

A desk keeps its buffers and which of them is shown, and the bar keeps both once more. `Outline` is what the two say
about that and nothing of the texts. Saving and asking change no outline (`outline_settle`, `outline_checkAllSaved`);
what is left is showing a buffer, adding one and taking one away. In all of these the looks of the tabs follow the mark
of the bar (`Outline.Aligned`), and wherever a buffer is shown the mark follows the buffer (`Outline.Tidy`).
-/

open List

namespace Workbench.Tabs

open Files (Path Disk FileError)

/-! ### Acts -/

/-- What happens to a desk. -/
inductive Act where
  | new (content : String) (path : Option Path)
  | select (id : Nat)
  | openFile (path : Path)
  | save
  | saveAs
  | close (id : Nat)
  | closeCurrent
  | mark
  | check
  /-- The user works in the editor, and leaves any text and cursor in it. -/
  | edit (editor : Editor.CodeEditor)
  /-- The user is going to give other answers, and the disk has become another one. -/
  | meet (user : User) (disk : Disk)

namespace Desk

def act (d : Desk) : Act → Desk
  | .new content path => d.newBuffer content path
  | .select id => d.select id
  | .openFile path => (d.openFile path).2
  | .save => d.save.2
  | .saveAs => d.saveAs.2
  | .close id => (d.close id).2
  | .closeCurrent => d.closeCurrent.2
  | .mark => d.markModified
  | .check => d.checkAllSaved.2
  | .edit editor => { d with editor }
  | .meet user disk => { d with user, disk }

def after (d : Desk) (acts : List Act) : Desk := acts.foldl act d

/-- A desk on which there is nothing yet. -/
def fresh (editor : Editor.CodeEditor) (user : User) (disk : Disk) : Desk := { editor, user, disk }

end Desk

/-! ### Outlines -/

def Bar.shown (bar : Bar) : List (Nat × Looks) := bar.tabs.map fun t => (t.id, t.looks)

/-- Which buffers there are and which one is shown, as the desk and as the bar has it. -/
structure Outline where
  ids : List Nat
  active : Option Nat
  tabs : List (Nat × Looks)
  marked : Option Nat
  made : Nat

def Desk.outline (d : Desk) : Outline where
  ids := d.buffers.map (·.id)
  active := d.active
  tabs := d.bar.shown
  marked := d.bar.active
  made := d.made

/-- Gives looks to the tab with the given number. -/
def dress (id : Nat) (looks : Looks) (tabs : List (Nat × Looks)) : List (Nat × Looks) :=
  tabs.map fun t => if t.1 = id then (t.1, looks) else t

namespace Outline

/-- The tabs without the one that stands out. -/
def undressed (o : Outline) : List (Nat × Looks) :=
  match o.marked with
  | some old => dress old plainLooks o.tabs
  | none => o.tabs

/-- Shows a buffer. -/
def select (o : Outline) (id : Nat) : Outline :=
  if id ∈ o.ids then
    if id ∈ o.tabs.map Prod.fst then
      { o with active := some id, tabs := dress id activeLooks o.undressed, marked := some id }
    else { o with active := some id, tabs := o.undressed }
  else o

/-- Adds a buffer, which is not shown yet. -/
def add (o : Outline) : Outline :=
  { o with ids := o.ids ++ [o.made], tabs := o.tabs ++ [(o.made, plainLooks)], made := o.made + 1 }

/-- Takes a buffer away. -/
def remove (o : Outline) (id : Nat) : Outline :=
  { o with ids := o.ids.filter (· != id), tabs := o.tabs.filter (·.1 != id) }

/-- Takes a buffer away, and shows another one in its place if it was shown. -/
def discard (o : Outline) (id : Nat) : Outline :=
  if o.active = some id then
    match (o.remove id).ids with
    | next :: _ => { o.remove id with active := none }.select next
    | [] => { o.remove id with active := none }.add.select o.made
  else o.remove id

/-- All that can become of an outline in one act. -/
inductive Step (o : Outline) : Outline → Prop where
  | stay : Step o o
  | select (id : Nat) : Step o (o.select id)
  | new : Step o (o.add.select o.made)
  | discard (id : Nat) : Step o (o.discard id)

variable {o : Outline} {id : Nat}

@[simp] theorem ids_select : (o.select id).ids = o.ids := by
  unfold select
  split
  · split
    · rfl
    · rfl
  · rfl

@[simp] theorem made_select : (o.select id).made = o.made := by
  unfold select
  split
  · split
    · rfl
    · rfl
  · rfl

theorem active_select (h : id ∈ o.ids) : (o.select id).active = some id := by
  rw [select, if_pos h]
  split
  · rfl
  · rfl

theorem active_new : (o.add.select o.made).active = some o.made :=
  active_select (mem_append_right _ (mem_singleton_self _))

end Outline

/-! ### The outline of what the desk does -/

namespace Bar

variable (bar : Bar) (id : Nat)

theorem shown_change (looks : Looks) : (bar.change id fun t => { t with looks }).shown = dress id looks bar.shown := by
  simp only [shown, change, dress, map_map]
  refine map_congr_left fun t _ => ?_
  by_cases ht : t.id = id <;> simp [ht]

@[simp] theorem shown_update (b : Buffer) : (bar.update b).shown = bar.shown := by
  rw [shown, update, change, map_map]
  refine map_congr_left fun t _ => ?_
  by_cases ht : t.id = b.id <;> simp [ht]

theorem has_iff : bar.has id = true ↔ id ∈ bar.shown.map Prod.fst := by
  simp [has, shown]

theorem map_fst_dress (looks : Looks) (tabs : List (Nat × Looks)) :
    (dress id looks tabs).map Prod.fst = tabs.map Prod.fst := by
  rw [dress, map_map]
  refine map_congr_left fun t _ => ?_
  by_cases ht : t.1 = id <;> simp [ht]

end Bar

namespace Desk

variable (d : Desk) (b : Buffer)

@[simp] theorem outline_setBuffer : (d.setBuffer b).outline = d.outline := by
  have hids : (replaceBuffer b d.buffers).map (·.id) = d.buffers.map (·.id) := by
    rw [replaceBuffer, map_map]
    refine map_congr_left fun x _ => ?_
    by_cases hx : x.id = b.id <;> simp [hx]
  simp only [outline, setBuffer, hids]

@[simp] theorem outline_retitle : (d.retitle b).outline = d.outline := by
  simp only [outline, retitle, Bar.shown_update]
  rfl

@[simp] theorem outline_tell : (d.tell b).outline = d.outline := rfl

@[simp] theorem outline_load : (d.load b).outline = d.outline := rfl

@[simp] theorem outline_capture : d.capture.outline = d.outline := by
  unfold capture
  split
  · exact outline_setBuffer d _
  · rfl

theorem mem_ids {id : Nat} : id ∈ d.outline.ids ↔ ∃ b, d.buffer? id = some b := by
  rw [← Option.isSome_iff_exists]
  simp [outline, buffer?, findBuffer?]

/-- The tab of a buffer takes the place of the one that stood out. -/
theorem outline_setActive (id : Nat) : { d with bar := d.bar.setActive id }.outline =
    if id ∈ d.outline.tabs.map Prod.fst then
      { d.outline with tabs := dress id activeLooks d.outline.undressed, marked := some id }
    else { d.outline with tabs := d.outline.undressed } := by
  have hset : ∀ bar : Bar, bar.shown = d.outline.undressed → bar.active = d.bar.active →
      Desk.outline { d with bar := if bar.has id then
        { bar.change id (fun t => { t with looks := activeLooks }) with active := some id } else bar } =
      if id ∈ d.outline.undressed.map Prod.fst then
        { d.outline with tabs := dress id activeLooks d.outline.undressed, marked := some id }
      else { d.outline with tabs := d.outline.undressed } := by
    intro bar hshown hactive
    simp only [Bar.has_iff, hshown]
    split
    · rw [← hshown, ← Bar.shown_change]
      rfl
    · rw [← hshown]
      simp only [outline, hactive]
  have hnumbers : d.outline.undressed.map Prod.fst = d.outline.tabs.map Prod.fst := by
    unfold Outline.undressed
    split
    · exact Bar.map_fst_dress _ _ _
    · rfl
  rw [← hnumbers]
  cases hold : d.bar.active with
  | none =>
    rw [Bar.setActive, hold]
    exact hset d.bar (by simp only [Outline.undressed, outline, hold]) rfl
  | some old =>
    rw [Bar.setActive, hold]
    exact hset _ (by rw [Bar.shown_change]; simp only [Outline.undressed, outline, hold]) rfl

theorem outline_select (id : Nat) : (d.select id).outline = d.outline.select id := by
  unfold select Outline.select
  by_cases hid : id ∈ d.outline.ids
  · obtain ⟨b, hb⟩ := d.mem_ids.1 hid
    have hcaptured : id ∈ Outline.ids (outline { d.capture with active := some id }) := by
      rw [← outline_capture] at hid
      exact hid
    obtain ⟨c, hc⟩ := (mem_ids _).1 hcaptured
    have hloaded : ∀ e : Desk, ({ e with active := some id }.load c).outline = { e.outline with active := some id } :=
      fun e => rfl
    simp only [hb, hc, Option.isNone_some, Bool.false_eq_true, if_false, if_pos hid, outline_tell, outline_setActive,
      hloaded, outline_capture]
    rfl
  · have hnone : d.buffer? id = none := by
      rw [Option.eq_none_iff_forall_ne_some]
      exact fun b hb => hid (d.mem_ids.2 ⟨b, hb⟩)
    rw [hnone, Option.isNone_none, if_pos rfl, if_neg hid]

theorem outline_newBuffer (content : String) (path : Option Path) :
    (d.newBuffer content path).outline = d.outline.add.select d.made := by
  have hadd : ∀ b : Buffer, b.id = d.made →
      outline { d with buffers := d.buffers ++ [b], bar := d.bar.add b, made := d.made + 1 } = d.outline.add := by
    intro b hb
    simp [outline, Outline.add, Bar.add, Bar.shown, hb]
  rw [newBuffer]
  dsimp only
  rw [outline_select, hadd _ rfl]

/-- The desk without a buffer, which may still be the one that is shown. -/
def without (d : Desk) (id : Nat) : Desk :=
  { d with buffers := d.buffers.filter (·.id != id), bar := d.bar.remove id }

/-- The desk with no buffer shown. -/
def hidden (d : Desk) : Desk := { d with active := none }

theorem discard_eq (id : Nat) : d.discard id =
    if d.active = some id then
      match (d.without id).buffers with
      | b :: _ => (d.without id).hidden.select b.id
      | [] => (d.without id).hidden.newBuffer "" none
    else d.without id := rfl

theorem outline_without (id : Nat) : (d.without id).outline = d.outline.remove id := by
  simp [outline, without, Outline.remove, Bar.remove, Bar.shown, filter_map, Function.comp_def]

theorem outline_discard (id : Nat) : (d.discard id).outline = d.outline.discard id := by
  have hids : (d.outline.remove id).ids = (d.without id).buffers.map (·.id) := by
    rw [← outline_without]
    rfl
  have hhidden : (d.without id).hidden.outline = { d.outline.remove id with active := none } := by
    rw [← outline_without]
    rfl
  have hactive : d.outline.active = d.active := rfl
  rw [discard_eq, Outline.discard, hactive, ← hhidden]
  split
  · rw [hids]
    cases (d.without id).buffers with
    | nil => exact outline_newBuffer _ _ _
    | cons b bs => exact outline_select _ _
  · exact outline_without d id

@[simp] theorem outline_saveTo (path : Path) : (d.saveTo b path).2.outline = d.outline := by
  unfold saveTo
  dsimp only
  split
  · exact outline_setBuffer d _
  · rw [outline_tell, outline_retitle]
    exact outline_setBuffer d _

@[simp] theorem outline_saveAsked : (d.saveAsked b).2.outline = d.outline := by
  unfold saveAsked
  dsimp only
  split
  · rfl
  · exact outline_saveTo _ b _

@[simp] theorem outline_saveBuffer : (d.saveBuffer b).2.outline = d.outline := by
  unfold saveBuffer
  split
  · exact outline_saveTo d b _
  · exact outline_saveAsked d b

@[simp] theorem outline_settle (question : String) : (d.settle b question).2.outline = d.outline := by
  unfold settle
  dsimp only
  split
  · rfl
  · exact outline_saveBuffer _ b
  · rfl

/-- A buffer is passed over, or the user is asked about it. -/
theorem settleAll_cons (id : Nat) : (∀ ids, d.settleAll (id :: ids) = d.settleAll ids) ∨
    ∃ b, d.buffer? id = some b ∧ b.modified = true ∧ ∀ ids, d.settleAll (id :: ids) =
      if (d.settle b (closeQuestion b)).1 then (d.settle b (closeQuestion b)).2.settleAll ids
      else d.settle b (closeQuestion b) := by
  cases hb : d.buffer? id with
  | none => exact .inl fun ids => by rw [settleAll, hb]
  | some b =>
    cases hmod : b.modified with
    | false => exact .inl fun ids => by simp [settleAll, hb, hmod]
    | true =>
      refine .inr ⟨b, rfl, hmod, fun ids => ?_⟩
      simp only [settleAll, hb, hmod, if_true]
      split
      · rfl
      · exact Prod.ext (Bool.eq_false_iff.2 ‹_›).symm rfl

@[simp] theorem outline_settleAll (ids : List Nat) : (d.settleAll ids).2.outline = d.outline := by
  induction ids generalizing d with
  | nil => rfl
  | cons id ids ih =>
    rcases d.settleAll_cons id with h | ⟨b, -, -, h⟩ <;> rw [h]
    · exact ih d
    · split
      · rw [ih, outline_settle]
      · exact outline_settle d _ _

/-- The desk with the text of the editor in the buffer that is shown. -/
def synced (d : Desk) : Desk :=
  match d.activeBuffer? with
  | some b => d.setBuffer { b with content := d.editor.code }
  | none => d

@[simp] theorem outline_synced : d.synced.outline = d.outline := by
  unfold synced
  split
  · exact outline_setBuffer d _
  · rfl

theorem checkAllSaved_eq : d.checkAllSaved = d.synced.settleAll d.outline.ids := by
  rw [← outline_synced]
  rfl

@[simp] theorem outline_checkAllSaved : d.checkAllSaved.2.outline = d.outline := by
  rw [checkAllSaved_eq, outline_settleAll, outline_synced]

@[simp] theorem outline_save : d.save.2.outline = d.outline := by
  unfold save
  split
  · exact outline_saveBuffer d _
  · rfl

@[simp] theorem outline_saveAs : d.saveAs.2.outline = d.outline := by
  unfold saveAs
  split
  · exact outline_saveAsked d _
  · rfl

@[simp] theorem outline_markModified : d.markModified.outline = d.outline := by
  unfold markModified
  split
  · rw [outline_retitle, outline_setBuffer]
  · rfl

@[simp] theorem outline_replaceWith (id : Nat) (path : Path) : (d.replaceWith id path).2.outline = d.outline := by
  unfold replaceWith
  split
  · rfl
  · rw [outline_tell, outline_retitle, outline_load, outline_setBuffer]

/-- Asks about a buffer if it has unsaved changes, and says whether to go on. -/
def asked (d : Desk) (b : Buffer) (question : String) : Bool × Desk :=
  if b.modified then d.settle b question else (true, d)

@[simp] theorem outline_asked (question : String) : (d.asked b question).2.outline = d.outline := by
  unfold asked
  split
  · exact outline_settle d b question
  · rfl

theorem close_eq (id : Nat) : d.close id = match d.buffer? id with
    | none => (false, d)
    | some b =>
      if (d.asked b (closeQuestion b)).1 then (true, (d.asked b (closeQuestion b)).2.discard id)
      else (false, (d.asked b (closeQuestion b)).2) := rfl

theorem openFile_eq (path : Path) (h : d.active.isSome = true) : d.openFile path = match d.activeBuffer? with
    | none => (false, d)
    | some b =>
      if (d.asked b (replaceQuestion b path)).1 then (d.asked b (replaceQuestion b path)).2.replaceWith b.id path
      else (false, (d.asked b (replaceQuestion b path)).2) := by
  obtain ⟨id, hid⟩ := Option.isSome_iff_exists.1 h
  unfold openFile
  simp only [hid, Option.isNone_some, Bool.false_eq_true, if_false]
  rfl

theorem outline_openFile (path : Path) (h : d.active.isSome = true) : (d.openFile path).2.outline = d.outline := by
  rw [openFile_eq d path h]
  split
  · rfl
  · split
    · rw [outline_replaceWith, outline_asked]
    · exact outline_asked d _ _

theorem active_newBuffer (content : String) (path : Option Path) : (d.newBuffer content path).active = some d.made :=
  (congrArg Outline.active (outline_newBuffer d content path)).trans Outline.active_new

/-- Where nothing is shown, a file is opened in a new buffer. -/
theorem openFile_of_none (h : d.active = none) (path : Path) :
    d.openFile path = (d.newBuffer "" none).openFile path := by
  have hactive := active_newBuffer d "" none
  simp only [openFile, h, hactive, Option.isNone_none, Option.isNone_some, Bool.false_eq_true, if_true, if_false]

theorem outline_openFile_of_none (h : d.active = none) (path : Path) :
    (d.openFile path).2.outline = d.outline.add.select d.made := by
  have hactive := active_newBuffer d "" none
  rw [openFile_of_none d h, outline_openFile _ path (Option.isSome_iff_exists.2 ⟨_, hactive⟩), outline_newBuffer]

theorem step_close (id : Nat) : d.outline.Step (d.close id).2.outline := by
  rw [close_eq]
  split
  · exact .stay
  · split
    · rw [outline_discard, outline_asked]
      exact .discard id
    · rw [outline_asked]
      exact .stay

/-- What an act does to the outline is one of its steps. -/
theorem step_act (a : Act) : d.outline.Step (d.act a).outline := by
  cases a with
  | new content path =>
    rw [act, outline_newBuffer]
    exact .new
  | select id =>
    rw [act, outline_select]
    exact .select id
  | openFile path =>
    rw [act]
    cases hactive : d.active with
    | none =>
      rw [outline_openFile_of_none d hactive]
      exact .new
    | some id =>
      rw [outline_openFile d path (Option.isSome_iff_exists.2 ⟨id, hactive⟩)]
      exact .stay
  | save =>
    rw [act, outline_save]
    exact .stay
  | saveAs =>
    rw [act, outline_saveAs]
    exact .stay
  | close id => exact step_close d id
  | closeCurrent =>
    rw [act, closeCurrent]
    split
    · exact step_close d _
    · exact .stay
  | mark =>
    rw [act, outline_markModified]
    exact .stay
  | check =>
    rw [act, outline_checkAllSaved]
    exact .stay
  | edit | meet => exact .stay

end Desk

/-! ### Tabs in line with buffers -/

namespace Outline

/-- There is a tab for each buffer, in the same order, and the one that the bar has marked stands out. -/
structure Aligned (o : Outline) : Prop where
  nodup : o.ids.Nodup
  made : ∀ id ∈ o.ids, id < o.made
  marked : ∀ id, o.marked = some id → id < o.made
  tabs : o.tabs = o.ids.map fun id => (id, if o.marked = some id then activeLooks else plainLooks)

/-- Besides, one buffer is shown, and it is the one that the bar has marked. -/
structure Tidy (o : Outline) : Prop extends Aligned o where
  active : ∃ id ∈ o.ids, o.active = some id
  mark : o.marked = o.active

/-- There are neither buffers nor tabs. -/
structure Blank (o : Outline) : Prop where
  ids : o.ids = []
  active : o.active = none
  tabs : o.tabs = []
  marked : o.marked = none

variable {o : Outline} {id : Nat}

theorem Blank.aligned (h : o.Blank) : o.Aligned where
  nodup := by rw [h.ids]; exact nodup_nil
  made := by rw [h.ids]; exact nofun
  marked := by rw [h.marked]; exact nofun
  tabs := by rw [h.ids, h.tabs]; rfl

namespace Aligned

theorem numbers (h : o.Aligned) : o.tabs.map Prod.fst = o.ids := by
  rw [h.tabs, map_map]
  exact map_id _

theorem undressed_eq (h : o.Aligned) : o.undressed = o.ids.map fun id => (id, plainLooks) := by
  unfold undressed
  cases hm : o.marked with
  | none =>
    rw [h.tabs, hm]
    rfl
  | some old =>
    show dress old plainLooks o.tabs = _
    rw [h.tabs, hm, dress, map_map]
    refine map_congr_left fun id _ => ?_
    by_cases hid : id = old
    · simp [hid]
    · simp [Ne.symm hid]

theorem select (h : o.Aligned) (hid : id ∈ o.ids) : (o.select id).Tidy := by
  have hnumber : id ∈ o.tabs.map Prod.fst := h.numbers ▸ hid
  rw [Outline.select, if_pos hid, if_pos hnumber]
  constructor
  · constructor
    · exact h.nodup
    · exact h.made
    · intro id' hid'
      obtain rfl : id = id' := Option.some.inj hid'
      exact h.made id hid
    · dsimp only
      rw [h.undressed_eq, dress, map_map]
      refine map_congr_left fun id' _ => ?_
      by_cases hid' : id' = id
      · simp [hid']
      · simp [hid', Ne.symm hid']
  · exact ⟨id, hid, rfl⟩
  · rfl

theorem add (h : o.Aligned) : o.add.Aligned := by
  have hfresh : o.made ∉ o.ids := fun hmem => Nat.lt_irrefl _ (h.made _ hmem)
  constructor
  · rw [Outline.add, nodup_append]
    refine ⟨h.nodup, nodup_singleton _, ?_⟩
    rintro id hid _ hmade rfl
    rw [mem_singleton.1 hmade] at hid
    exact hfresh hid
  · intro id hid
    rcases mem_append.1 hid with hid | hid
    · exact Nat.lt_succ_of_lt (h.made id hid)
    · rw [mem_singleton.1 hid]
      exact Nat.lt_succ_self _
  · exact fun id hid => Nat.lt_succ_of_lt (h.marked id hid)
  · have hplain : o.marked ≠ some o.made := fun hm => Nat.lt_irrefl _ (h.marked _ hm)
    simp only [Outline.add, map_append, map_cons, map_nil, if_neg hplain, h.tabs]

theorem remove (h : o.Aligned) (id : Nat) : (o.remove id).Aligned where
  nodup := h.nodup.filter _
  made id' hid' := h.made id' (mem_of_mem_filter hid')
  marked := h.marked
  tabs := by
    simp only [Outline.remove, h.tabs, filter_map]
    rfl

theorem hide (h : o.Aligned) : Aligned { o with active := none } := ⟨h.nodup, h.made, h.marked, h.tabs⟩

theorem new (h : o.Aligned) : (o.add.select o.made).Tidy :=
  h.add.select (mem_append_right _ (mem_singleton_self _))

end Aligned

namespace Tidy

/-- The buffer that is shown is taken away for another one, any other buffer without notice. -/
theorem discard (h : o.Tidy) (id : Nat) : (o.discard id).Tidy := by
  have hremoved := h.toAligned.remove id
  unfold Outline.discard
  split
  · split
    · rename_i next rest hids
      refine hremoved.hide.select ?_
      show next ∈ (o.remove id).ids
      rw [hids]
      exact mem_cons_self
    · exact hremoved.hide.new
  · rename_i hother
    obtain ⟨shown, hmem, hshown⟩ := h.active
    refine ⟨hremoved, ⟨shown, mem_filter.2 ⟨hmem, ?_⟩, hshown⟩, h.mark⟩
    rw [bne_iff_ne]
    rintro rfl
    exact hother hshown

theorem select (h : o.Tidy) (id : Nat) : (o.select id).Tidy := by
  by_cases hid : id ∈ o.ids
  · exact h.toAligned.select hid
  · rw [Outline.select, if_neg hid]
    exact h

end Tidy

/-- A desk that was never used, or one with a buffer shown. -/
def Sound (o : Outline) : Prop := o.Blank ∨ o.Tidy

theorem Sound.aligned (h : o.Sound) : o.Aligned := h.elim Blank.aligned Tidy.toAligned

namespace Step

variable {o' : Outline}

/-- Once a buffer is shown, there is always one shown. -/
theorem tidy (hstep : o.Step o') (h : o.Tidy) : o'.Tidy := by
  cases hstep with
  | stay => exact h
  | select id => exact h.select id
  | new => exact h.toAligned.new
  | discard id => exact h.discard id

theorem sound (hstep : o.Step o') (h : o.Sound) : o'.Sound := by
  rcases h with h | h
  · cases hstep with
    | stay => exact .inl h
    | select id =>
      left
      rw [Outline.select, h.ids, if_neg not_mem_nil]
      exact h
    | new => exact .inr h.aligned.new
    | discard id =>
      left
      rw [Outline.discard, h.active, if_neg nofun]
      exact ⟨by simp [remove, h.ids], h.active, by simp [remove, h.tabs], h.marked⟩
  · exact .inr (hstep.tidy h)

end Step

end Outline

namespace Desk

variable {d : Desk}

theorem tidy_newBuffer (h : d.outline.Sound) (content : String) (path : Option Path) :
    (d.newBuffer content path).outline.Tidy := by
  rw [outline_newBuffer]
  exact h.aligned.new

theorem tidy_after (h : d.outline.Tidy) (acts : List Act) : (d.after acts).outline.Tidy := by
  induction acts generalizing d with
  | nil => exact h
  | cons a acts ih => exact ih ((d.step_act a).tidy h)

theorem sound_fresh (editor : Editor.CodeEditor) (user : User) (disk : Disk) :
    (fresh editor user disk).outline.Sound := .inl ⟨rfl, rfl, rfl, rfl⟩

theorem standing_out (h : d.outline.Tidy) {id : Nat} (hid : d.active = some id) (hmem : id ∈ d.outline.ids) :
    (d.bar.tabs.filter (·.looks = activeLooks)).map (·.id) = [id] := by
  have hmark : d.outline.marked = some id := h.mark.trans hid
  have htabs : ((d.bar.shown.filter (·.2 = activeLooks)).map Prod.fst) = [id] := by
    rw [show d.bar.shown = d.outline.tabs from rfl, h.tabs, hmark, filter_map, map_map]
    have hlooks : ∀ j, (if some id = some j then activeLooks else plainLooks) = activeLooks ↔ j = id := by
      intro j
      by_cases hj : id = j
      · simp [hj]
      · simp [hj, Ne.symm hj, activeLooks, plainLooks]
    simp only [Function.comp_def, hlooks]
    rw [filter_eq, count_eq_one_of_mem h.nodup hmem]
    rfl
  rw [← htabs, Bar.shown, filter_map, map_map]
  rfl

/-- What the buffers and the tabs have in common once there is a buffer. -/
structure Matched (d : Desk) : Prop where
  /-- There is a tab for every buffer, in the same order. -/
  tabs : d.bar.tabs.map (·.id) = d.buffers.map (·.id)
  nodup : (d.buffers.map (·.id)).Nodup
  /-- A buffer is shown, by the desk and by the bar. Its tab stands out, and it alone. -/
  active : ∃ b ∈ d.buffers, d.active = some b.id ∧ d.bar.active = some b.id ∧
    (d.bar.tabs.filter (·.looks = activeLooks)).map (·.id) = [b.id] ∧
    ∀ t ∈ d.bar.tabs, t.id ≠ b.id → t.looks = plainLooks

theorem matched_of_tidy (h : d.outline.Tidy) : d.Matched := by
  obtain ⟨id, hmem, hid⟩ := h.active
  obtain ⟨b, hb, rfl⟩ := mem_map.1 hmem
  refine ⟨?_, h.nodup, b, hb, hid, h.mark.trans hid, standing_out h hid hmem, ?_⟩
  · have hnumbers := h.numbers
    rwa [show d.outline.tabs = d.bar.shown from rfl, Bar.shown, map_map] at hnumbers
  · intro t ht hne
    have hshown : (t.id, t.looks) ∈ d.outline.tabs := mem_map.2 ⟨t, ht, rfl⟩
    rw [h.tabs, h.mark.trans hid] at hshown
    obtain ⟨id, -, heq⟩ := mem_map.1 hshown
    obtain ⟨rfl, hlooks⟩ := Prod.mk.inj heq
    rw [← hlooks, if_neg fun h => hne (Option.some.inj h).symm]

/-- **Tabs match buffers.** From the first buffer on, whatever is done at the desk, whatever the user answers and
whatever the disk turns into, there is a buffer, the tabs are those of the buffers, and the one tab that stands out is
that of the buffer that is shown. -/
theorem tabs_match_buffers (editor : Editor.CodeEditor) (user : User) (disk : Disk) (content : String)
    (path : Option Path) (acts : List Act) :
    (((fresh editor user disk).newBuffer content path).after acts).buffers ≠ [] ∧
    (((fresh editor user disk).newBuffer content path).after acts).Matched := by
  have h := matched_of_tidy (tidy_after (tidy_newBuffer (sound_fresh editor user disk) content path) acts)
  obtain ⟨b, hb, -⟩ := h.active
  exact ⟨List.ne_nil_of_mem hb, h⟩

end Desk

end Workbench.Tabs
