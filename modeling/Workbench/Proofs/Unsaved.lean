import Workbench.Proofs.BufferTexts

/-!
# Unsaved changes

A buffer with unsaved changes is not lost without a word. `History` remembers what the editor had in it whenever a
buffer was left, so that it is known what the user saw of a buffer last (`Faithful`). Whenever such a buffer is closed,
replaced by a file or passed over when all buffers are checked, it meets one of three fates (`Fate`): the user was asked
and let the changes go, or the text was written to the file, or the operation was called off and the buffer is still
there with its changes. All three come from the one question that the desk puts (`fate_settle`).
-/

namespace Workbench.Tabs

open Files (Path Disk FileError)
open Text (trimEndNewlines)

/-! ### What the user saw -/

/-- A desk, and the texts that the editor had when buffers were left last. -/
structure History where
  desk : Desk
  left : Nat → Option String := fun _ => none

namespace History

def act (h : History) (a : Act) : History where
  desk := h.desk.act a
  left id :=
    if h.desk.active = some id ∧ (h.desk.act a).active ≠ some id then some h.desk.editor.area.contents else h.left id

def after (h : History) (acts : List Act) : History := acts.foldl act h

/-- What the user saw last of a buffer: what is in the editor if it is shown. -/
def seen (h : History) (id : Nat) : Option String :=
  if h.desk.active = some id then some h.desk.editor.area.contents else h.left id

/-- What the user saw last of a buffer is its text, but for newlines at the end. -/
structure Faithful (h : History) : Prop where
  fit : h.desk.Fit
  text : ∀ id ∈ h.desk.outline.ids, ∃ seen, h.seen id = some seen ∧ h.desk.text? id = some (trimEndNewlines seen)

variable {h : History}

theorem Faithful.act (hf : h.Faithful) (a : Act) : (h.act a).Faithful where
  fit := Desk.fit_act hf.fit a
  text id hid := by
    by_cases hactive : (h.desk.act a).active = some id
    · refine ⟨(h.desk.act a).editor.area.contents, if_pos hactive, ?_⟩
      exact if_pos hactive
    · obtain ⟨hid', htext⟩ := Desk.text?_left hf.fit hid hactive
      obtain ⟨seen, hseen, hsaw⟩ := hf.text id hid'
      have hleft : (h.act a).seen id = h.seen id := by
        simp only [History.seen, History.act, hactive, ne_eq, not_false_eq_true, and_true, if_false]
      exact ⟨seen, hleft.trans hseen, htext.trans hsaw⟩

theorem Faithful.after (hf : h.Faithful) (acts : List Act) : (h.after acts).Faithful := by
  induction acts generalizing h with
  | nil => exact hf
  | cons a acts ih => exact ih (hf.act a)

end History

namespace Desk

variable {d d' : Desk} {b : Buffer}

/-! ### The fate of a buffer -/

/-- The user was asked a question before all else, and gave an answer. -/
structure Asked (d : Desk) (question : String) (answer : Option Bool) (d' : Desk) : Prop where
  answer : d.user.answers.headD none = answer
  shown : ∃ later, d'.user.shown = later ++ prompt question :: d.user.shown

/-- The file that a buffer is saved to is its own, or the one that the user chooses if it has none. -/
def Goes (d : Desk) (b : Buffer) (path : Path) : Prop :=
  b.path = some path ∨ b.path = none ∧ d.user.paths.headD "" ≠ "" ∧ path = .ofText (d.user.paths.headD "")

/-- What became of a buffer with unsaved changes and of its text, when an operation on the desk `d` came out as `r`. -/
inductive Fate (d : Desk) (b : Buffer) (question text : String) (r : Bool × Desk) : Prop where
  /-- The user let the changes go. -/
  | declined (asked : d.Asked question (some false) r.2)
  /-- The text is in the file. -/
  | written (asked : d.Asked question (some true) r.2) (path : Path) (goes : d.Goes b path)
      (write : d.disk.write path text = .ok r.2.disk) (found : r.2.disk.find? path = some (.file text))
  /-- The user cancelled or the text could not be written. Nothing was done, unless the write broke off. -/
  | kept (asked : d.Asked question none r.2 ∨
        d.Asked question (some true) r.2 ∧ ∀ path disk, d.Goes b path → d.disk.write path text ≠ .ok disk)
      (refused : r.1 = false) (disk : r.2.disk = d.disk ∨ ∃ path, d.Goes b path ∧ d.disk.Torn path text r.2.disk)
      (still : ∃ b', r.2.buffer? b.id = some b' ∧ b'.modified = true)

theorem Fate.carry {question text : String} {r r' : Bool × Desk} (h : Fate d b question text r)
    (hstop : r.1 = false → r' = r) (hdisk : r.1 = true → r'.2.disk = r.2.disk)
    (hshown : r.1 = true → ∃ later, r'.2.user.shown = later ++ r.2.user.shown) : Fate d b question text r' := by
  cases hr : r.1 with
  | false =>
    rw [hstop hr]
    exact h
  | true =>
    have hasked : ∀ answer, d.Asked question answer r.2 → d.Asked question answer r'.2 := by
      rintro answer ⟨hanswer, before, hbefore⟩
      obtain ⟨later, hlater⟩ := hshown hr
      exact ⟨hanswer, later ++ before, by rw [hlater, hbefore, List.append_assoc]⟩
    cases h with
    | declined asked => exact .declined (hasked _ asked)
    | written asked path goes write found =>
      rw [← hdisk hr] at write found
      exact .written (hasked _ asked) path goes write found
    | kept asked refused disk still =>
      rw [hr] at refused
      cases refused

theorem Fate.congr {b' : Buffer} {question text : String} {r : Bool × Desk} (h : Fate d b question text r)
    (hid : b'.id = b.id) (hpath : b'.path = b.path) : Fate d b' question text r := by
  have hgoes : ∀ path, d.Goes b' path ↔ d.Goes b path := fun path => by rw [Goes, Goes, hpath]
  cases h with
  | declined asked => exact .declined asked
  | written asked path goes write found => exact .written asked path ((hgoes path).2 goes) write found
  | kept asked refused disk still =>
    refine .kept (asked.imp_right fun h => ⟨h.1, ?_⟩) refused ?_ (hid ▸ still)
    · exact fun path disk goes => h.2 path disk ((hgoes path).1 goes)
    · exact disk.imp_right fun ⟨path, goes, htorn⟩ => ⟨path, (hgoes path).2 goes, htorn⟩

section Settle

variable {question text : String}

/-- Once the user wants a buffer saved, what remains is whether its text can be written. Here `d'` is the desk after
the question that was put on the desk `d`. -/
theorem fate_saveTo (hb : d'.buffer? b.id = some b) (hmod : b.modified = true) (htext : d'.text? b.id = some text)
    (hdisk : d'.disk = d.disk) (hasked : d.Asked question (some true) d') {path : Path}
    (hgoes : ∀ p, d.Goes b p ↔ p = path) : Fate d b question text (d'.saveTo b path) := by
  obtain ⟨hanswer, later, hlater⟩ := hasked
  rw [saveTo_eq, content_sent hb htext, hdisk]
  cases hwrite : d.disk.write path text with
  | ok disk =>
    have hfound : disk.find? path = some (.file text) := Files.Disk.find?_of_write hwrite
    exact .written ⟨hanswer, later, hlater⟩ path ((hgoes path).2 rfl) hwrite hfound
  | error e =>
    have hshown : (d'.refused (d'.sent b path) e).user.shown =
        (.error "Error" ("Could not save file:\n" ++ e.message) :: later) ++ prompt question :: d.user.shown :=
      congrArg (List.cons _) hlater
    have hleft : e.left d.disk = d.disk ∨ d.disk.Torn path text (e.left d.disk) := Files.Disk.left_of_write hwrite
    have hdisk' : (d'.refused (d'.sent b path) e).disk = e.left d.disk := congrArg e.left hdisk
    refine .kept (.inr ⟨⟨hanswer, _, hshown⟩, ?_⟩) rfl ?_ ⟨d'.sent b path, ?_, hmod⟩
    · intro p disk hp
      obtain rfl := (hgoes p).1 hp
      rw [hwrite]
      exact nofun
    · rw [hdisk']
      exact hleft.imp_right fun h => ⟨path, (hgoes path).2 rfl, h⟩
    · exact buffer?_setBuffer_self hb

/-- A buffer without a file goes to the file that the user chooses next. -/
theorem fate_saveAsked (hb : d'.buffer? b.id = some b) (hmod : b.modified = true) (htext : d'.text? b.id = some text)
    (hdisk : d'.disk = d.disk) (hasked : d.Asked question (some true) d') (hpaths : d'.user.paths = d.user.paths)
    (hpath : b.path = none) : Fate d b question text (d'.saveAsked b) := by
  have hchosen : (d'.user.choosePath saveDialog).1 = d.user.paths.headD "" := congrArg (List.headD · "") hpaths
  have hasked' : d.Asked question (some true) (d'.facing (d'.user.choosePath saveDialog).2) := by
    obtain ⟨hanswer, later, hlater⟩ := hasked
    exact ⟨hanswer, saveDialog :: later, congrArg (List.cons _) hlater⟩
  rw [saveAsked_eq]
  split
  · -- The dialog was left without a choice, so there is no file to go to.
    rename_i hempty
    rw [hchosen] at hempty
    refine .kept (.inr ⟨hasked', ?_⟩) rfl (.inl hdisk) ⟨b, hb, hmod⟩
    rintro p disk (hp | ⟨-, hp, -⟩)
    · rw [hpath] at hp
      cases hp
    · exact absurd (String.isEmpty_iff.1 hempty) hp
  · rename_i hempty
    rw [hchosen] at hempty ⊢
    refine fate_saveTo ?_ hmod ?_ ?_ hasked' fun p => ?_
    · exact hb
    · exact htext
    · exact hdisk
    constructor
    · rintro (hp | ⟨-, -, hp⟩)
      · rw [hpath] at hp
        cases hp
      · exact hp
    · intro hp
      exact .inr ⟨hpath, fun h => hempty (String.isEmpty_iff.2 h), hp⟩

theorem fate_saveBuffer (hb : d'.buffer? b.id = some b) (hmod : b.modified = true) (htext : d'.text? b.id = some text)
    (hdisk : d'.disk = d.disk) (hasked : d.Asked question (some true) d') (hpaths : d'.user.paths = d.user.paths) :
    Fate d b question text (d'.saveBuffer b) := by
  unfold saveBuffer
  split
  next path hpath =>
    refine fate_saveTo hb hmod htext hdisk hasked fun p => ?_
    rw [Goes, hpath]
    constructor
    · rintro (hp | ⟨hp, -⟩)
      · exact (Option.some.inj hp).symm
      · cases hp
    · rintro rfl
      exact .inl rfl
  next hpath => exact fate_saveAsked hb hmod htext hdisk hasked hpaths hpath

theorem fate_settle (hb : d.buffer? b.id = some b) (hmod : b.modified = true) (htext : d.text? b.id = some text) :
    Fate d b question text (d.settle b question) := by
  have hasked : ∀ answer, (d.user.answer (prompt question)).1 = answer →
      d.Asked question answer (d.facing (d.user.answer (prompt question)).2) :=
    fun answer hanswer => ⟨hanswer, [], rfl⟩
  rw [settle_eq]
  split
  · rename_i hanswer
    exact .kept (.inl (hasked _ hanswer)) rfl (.inl rfl) ⟨b, hb, hmod⟩
  · rename_i hanswer
    exact fate_saveBuffer hb hmod htext rfl (hasked _ hanswer) rfl
  · rename_i hanswer
    exact .declined (hasked _ hanswer)

end Settle

/-! ### Buffers that are not asked about -/

section Others

variable {j : Nat} (hj : j ≠ b.id)
include hj

theorem buffer?_saveTo_of_ne (path : Path) : (d.saveTo b path).2.buffer? j = d.buffer? j := by
  rw [saveTo_eq]
  split
  · exact buffer?_setBuffer_of_ne hj
  · exact buffer?_setBuffer_of_ne hj

theorem buffer?_saveBuffer_of_ne : (d.saveBuffer b).2.buffer? j = d.buffer? j := by
  unfold saveBuffer
  split
  · exact buffer?_saveTo_of_ne hj _
  · rw [saveAsked_eq]
    split
    · rfl
    · exact buffer?_saveTo_of_ne hj _

theorem buffer?_settle_of_ne (question : String) : (d.settle b question).2.buffer? j = d.buffer? j := by
  rw [settle_eq]
  split
  · rfl
  · exact buffer?_saveBuffer_of_ne hj
  · rfl

theorem buffer?_asked_of_ne (question : String) : (d.asked b question).2.buffer? j = d.buffer? j := by
  unfold asked
  split
  · exact buffer?_settle_of_ne hj question
  · rfl

end Others

theorem buffer?_settleAll_of_notMem {j : Nat} {ids : List Nat} (hj : j ∉ ids) :
    (d.settleAll ids).2.buffer? j = d.buffer? j := by
  induction ids generalizing d with
  | nil => rfl
  | cons id ids ih =>
    have hrest : ∀ e : Desk, (e.settleAll ids).2.buffer? j = e.buffer? j :=
      fun e => ih fun h => hj (List.mem_cons_of_mem id h)
    rcases d.settleAll_cons id with h | ⟨b, hb, -, h⟩ <;> rw [h]
    · exact hrest d
    · have hne : j ≠ b.id := by
        rw [id_of_buffer? hb]
        exact List.ne_of_not_mem_cons hj
      split
      · rw [hrest, buffer?_settle_of_ne hne]
      · exact buffer?_settle_of_ne hne _

theorem buffer?_close_of_ne {id : Nat} (hid : id ≠ b.id) (hb : d.buffer? b.id = some b) :
    (d.close id).2.buffer? b.id = some b := by
  rw [close_eq]
  split
  · exact hb
  · rename_i c hc
    have hne : b.id ≠ c.id := by
      rw [id_of_buffer? hc]
      exact hid.symm
    have hasked := (buffer?_asked_of_ne hne (closeQuestion c)).trans hb
    split
    · exact buffer?_discard_of_ne hid.symm hasked
    · exact hasked

theorem buffer?_openFile_of_ne (h : d.outline.Sound) (hb : d.buffer? b.id = some b) (hactive : d.active ≠ some b.id)
    (path : Path) : (d.openFile path).2.buffer? b.id = some b := by
  obtain ⟨c, hc, hfound, hshown⟩ := exists_active_of_mem h (d.mem_ids.2 ⟨b, hb⟩)
  have hne : b.id ≠ c.id := fun heq => hactive (heq ▸ hc)
  have hasked := (buffer?_asked_of_ne hne (replaceQuestion c path)).trans hb
  rw [openFile_eq d path (Option.isSome_iff_exists.2 ⟨_, hc⟩), hshown]
  dsimp only
  split
  · rw [replaceWith_eq]
    split
    · exact hasked
    · exact (buffer?_opened_of_ne hne path _).trans hasked
  · exact hasked

/-! ### The operations -/

def world (d : Desk) : User × Disk := (d.user, d.disk)

@[simp] theorem world_capture : d.capture.world = d.world := by
  unfold capture
  split
  · rfl
  · rfl

@[simp] theorem world_select (id : Nat) : (d.select id).world = d.world := by
  unfold select
  split
  · rfl
  · dsimp only
    split
    · exact world_capture
    · exact world_capture

@[simp] theorem world_discard (id : Nat) : (d.discard id).world = d.world := by
  rw [discard_eq]
  split
  · split
    · exact world_select _
    · exact world_select _
  · rfl

section Guard

variable {text : String} (hb : d.buffer? b.id = some b) (hmod : b.modified = true) (htext : d.text? b.id = some text)
include hb hmod htext

theorem fate_asked (question : String) : Fate d b question text (d.asked b question) := by
  rw [asked, if_pos hmod]
  exact fate_settle hb hmod htext

theorem fate_close : Fate d b (closeQuestion b) text (d.close b.id) := by
  have hworld := world_discard (d := (d.asked b (closeQuestion b)).2) b.id
  rw [close_eq, hb]
  refine (fate_asked hb hmod htext (closeQuestion b)).carry ?_ ?_ ?_
  · intro hstop
    simp only [hstop]
    exact Prod.ext hstop.symm rfl
  · intro hgo
    simp only [hgo]
    exact congrArg Prod.snd hworld
  · intro hgo
    simp only [hgo]
    exact ⟨[], congrArg (fun w => w.1.shown) hworld⟩

theorem fate_openFile (hactive : d.active = some b.id) (path : Path) :
    Fate d b (replaceQuestion b path) text (d.openFile path) := by
  rw [openFile_eq d path (Option.isSome_iff_exists.2 ⟨_, hactive⟩), activeBuffer?_eq_some.2 ⟨hactive, hb⟩]
  refine (fate_asked hb hmod htext (replaceQuestion b path)).carry ?_ ?_ ?_
  · intro hstop
    simp only [hstop]
    exact Prod.ext hstop.symm rfl
  · intro hgo
    simp only [hgo, if_true, replaceWith_eq]
    split
    · rfl
    · rfl
  · intro hgo
    simp only [hgo, if_true, replaceWith_eq]
    split
    · exact ⟨[_], rfl⟩
    · exact ⟨[], rfl⟩

end Guard

theorem settleAll_append (xs ys : List Nat) : d.settleAll (xs ++ ys) =
    if (d.settleAll xs).1 then (d.settleAll xs).2.settleAll ys else d.settleAll xs := by
  induction xs generalizing d with
  | nil => rfl
  | cons id xs ih =>
    rw [List.cons_append]
    rcases d.settleAll_cons id with h | ⟨b, -, -, h⟩ <;> rw [h, h]
    · exact ih
    · split
      · exact ih
      · rfl

/-- While all buffers are asked about, it is the turn of the one with the given number on the desk `d'`. -/
def Turn (d : Desk) (id : Nat) (d' : Desk) : Prop :=
  ∃ before after, d.outline.ids = before ++ id :: after ∧ d.synced.settleAll before = (true, d') ∧
    d.checkAllSaved = if (d'.settleAll [id]).1 then (d'.settleAll [id]).2.settleAll after else d'.settleAll [id]

theorem buffer?_synced (hb : d.buffer? b.id = some b) :
    ∃ b', d.synced.buffer? b.id = some b' ∧ b'.id = b.id ∧ b'.path = b.path ∧ b'.modified = b.modified := by
  unfold synced
  split
  · rename_i c hc
    obtain ⟨-, hc⟩ := activeBuffer?_eq_some.1 hc
    by_cases hid : b.id = c.id
    · rw [← hid, hb] at hc
      obtain rfl := Option.some.inj hc
      exact ⟨_, buffer?_setBuffer_self hb, rfl, rfl, rfl⟩
    · exact ⟨b, (buffer?_setBuffer_of_ne (b := { c with content := d.editor.code }) hid).trans hb, rfl, rfl, rfl⟩
  · exact ⟨b, hb, rfl, rfl, rfl⟩

theorem closeQuestion_congr {b b' : Buffer} (h : b'.path = b.path) : closeQuestion b' = closeQuestion b := by
  have hname : b'.displayName = b.displayName := by
    unfold Buffer.displayName
    rw [h]
  unfold closeQuestion
  rw [hname]

theorem settleAll_singleton {id : Nat} (hb : d.buffer? id = some b) (hmod : b.modified = true) :
    d.settleAll [id] = d.settle b (closeQuestion b) := by
  simp only [settleAll, hb, hmod, if_true]
  split <;> exact Prod.ext (by simp_all) rfl

/-- Either the user is asked about a buffer, or it was all called off before and the buffer is as it was. -/
theorem fate_checkAllSaved {text : String} (hnodup : d.outline.ids.Nodup) (hb : d.buffer? b.id = some b)
    (hmod : b.modified = true) (htext : d.text? b.id = some text) :
    (∃ d', d.Turn b.id d' ∧ Fate d' b (closeQuestion b) text (d'.settleAll [b.id])) ∨
    d.checkAllSaved.1 = false ∧ ∃ b', d.checkAllSaved.2.buffer? b.id = some b' ∧ b'.modified = true := by
  -- The turn of the buffer comes after that of the buffers before it, which leave it alone.
  obtain ⟨before, after, hids⟩ := List.append_of_mem (d.mem_ids.2 ⟨b, hb⟩)
  have hnotMem : b.id ∉ before := by
    rw [hids, List.nodup_append] at hnodup
    exact fun hmem => hnodup.2.2 b.id hmem b.id List.mem_cons_self rfl
  obtain ⟨b', hb', hid, hpath, hmod'⟩ := buffer?_synced hb
  have hthere : (d.synced.settleAll before).2.buffer? b.id = some b' :=
    (buffer?_settleAll_of_notMem hnotMem).trans hb'
  have hcheck : d.checkAllSaved = if (d.synced.settleAll before).1 then
      (d.synced.settleAll before).2.settleAll (b.id :: after) else d.synced.settleAll before := by
    rw [checkAllSaved_eq, hids, settleAll_append]
  cases hgo : (d.synced.settleAll before).1 with
  | false =>
    right
    rw [hgo, if_neg Bool.false_ne_true] at hcheck
    rw [hcheck]
    exact ⟨hgo, b', hthere, hmod'.trans hmod⟩
  | true =>
    left
    have hrests := (Rests.synced d).trans (.settleAll d.synced before)
    have hfate : Fate (d.synced.settleAll before).2 b' (closeQuestion b') text
        ((d.synced.settleAll before).2.settleAll [b.id]) := by
      rw [settleAll_singleton hthere (hmod'.trans hmod)]
      rw [← hrests.text?, ← hid] at htext
      rw [← hid] at hthere
      exact fate_settle hthere (hmod'.trans hmod) htext
    rw [closeQuestion_congr hpath] at hfate
    refine ⟨(d.synced.settleAll before).2, ⟨before, after, hids, Prod.ext hgo rfl, ?_⟩, hfate.congr hid.symm hpath.symm⟩
    rw [hcheck, if_pos hgo, ← settleAll_append]
    rfl

theorem buffer?_of_mem (hnodup : d.outline.ids.Nodup) (hb : b ∈ d.buffers) : d.buffer? b.id = some b := by
  obtain ⟨c, hc⟩ := d.mem_ids.1 (List.mem_map.2 ⟨b, hb, rfl⟩)
  have hmem : c ∈ d.buffers := List.mem_of_find?_eq_some hc
  rw [hc, List.inj_on_of_nodup_map hnodup hmem hb (id_of_buffer? hc)]

/-- What is certain of a buffer with unsaved changes, whose text is `text`. -/
structure Guarded (d : Desk) (b : Buffer) (text : String) : Prop where
  closeOther : ∀ id, id ≠ b.id → (d.close id).2.buffer? b.id = some b
  close : Fate d b (closeQuestion b) text (d.close b.id)
  openElsewhere : d.active ≠ some b.id → ∀ path, (d.openFile path).2.buffer? b.id = some b
  openHere : d.active = some b.id → ∀ path, Fate d b (replaceQuestion b path) text (d.openFile path)
  /-- The user is asked about it in its turn, or one before it calls all off. -/
  check : (∃ d', d.Turn b.id d' ∧ Fate d' b (closeQuestion b) text (d'.settleAll [b.id])) ∨
    d.checkAllSaved.1 = false ∧ ∃ b', d.checkAllSaved.2.buffer? b.id = some b' ∧ b'.modified = true

/-- **No unsaved buffer is lost silently.** A buffer with unsaved changes is closed, replaced or passed over only if the
user declined to save it, or if its text, as it was seen last, was written to its file without the newlines at its end;
otherwise the operation was called off, and it is kept with its changes. -/
theorem unsaved_guarded (editor : Editor.CodeEditor) (user : User) (disk : Disk) (acts : List Act) {h : History}
    (hrun : h = History.after { desk := fresh editor user disk } acts) {b : Buffer} (hb : b ∈ h.desk.buffers)
    (hmod : b.modified = true) : ∃ seen, h.seen b.id = some seen ∧ h.desk.Guarded b (trimEndNewlines seen) := by
  have hfresh : History.Faithful { desk := fresh editor user disk } := ⟨fit_fresh editor user disk, by rintro id ⟨⟩⟩
  have hf : h.Faithful := hrun ▸ hfresh.after acts
  have hsound := hf.fit.sound
  have hnodup := hsound.aligned.nodup
  have hfound := buffer?_of_mem hnodup hb
  obtain ⟨seen, hseen, htext⟩ := hf.text b.id (h.desk.mem_ids.2 ⟨b, hfound⟩)
  refine ⟨seen, hseen, ?_, ?_, ?_, ?_, ?_⟩
  · exact fun id hid => buffer?_close_of_ne hid hfound
  · exact fate_close hfound hmod htext
  · exact buffer?_openFile_of_ne hsound hfound
  · exact fate_openFile hfound hmod htext
  · exact fate_checkAllSaved hnodup hfound hmod htext

/-- A note that is typed into the first buffer, before a second one is shown. -/
def noteLeft : List Act :=
  [.new "" none, .edit ((({} : Editor.CodeEditor).setCode "x\n\n").moveTo (.place .first)), .mark, .new "" none]

theorem noteLeft_guarded : ∃ h : History, h = History.after { desk := fresh {} {} {} } noteLeft ∧
    (⟨0, none, "x", true, .first⟩ : Buffer) ∈ h.desk.buffers ∧ h.seen 0 = some "x\n\n" ∧
    h.desk.Guarded ⟨0, none, "x", true, .first⟩ "x" := by
  have hb : (⟨0, none, "x", true, .first⟩ : Buffer) ∈
      (History.after { desk := fresh {} {} {} } noteLeft).desk.buffers := by decide +kernel
  have hseen : (History.after { desk := fresh {} {} {} } noteLeft).seen 0 = some "x\n\n" := by decide +kernel
  obtain ⟨seen, hseen', hguarded⟩ := unsaved_guarded {} {} {} noteLeft rfl hb rfl
  obtain rfl := Option.some.inj (hseen.symm.trans hseen')
  exact ⟨_, rfl, hb, hseen, hguarded⟩

end Desk

end Workbench.Tabs
