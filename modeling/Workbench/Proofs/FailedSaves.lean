import Workbench.Proofs.Unsaved

/-!
# Saves that fail

A save fails if the user chooses no file or if the text cannot be written. It then leaves the bar and the marks of
unsaved changes as they were, and every other buffer (`Unsaved`). It leaves the disk too, unless the write broke off: then
the file has the first part of the text and has lost what was in it before. And it does not leave the buffer its file: a
path that the user chose is taken over before the text is written, and it is kept when that fails. So a later save goes
there and not to the file that the buffer belonged to, whose name is still on the tab.

All saves are made by `saveTo`, so what holds of a failed one is shown there (`Unsaved.saveTo`) and carried through
the questions before it.
-/

namespace Workbench.Tabs.Desk

open Files (Path Disk FileError)

/-- The path that the user is going to choose next; none if they are going to cancel. -/
def chosen? (d : Desk) : Option Path :=
  if (d.user.paths.headD "").isEmpty then none else some (.ofText (d.user.paths.headD ""))

/-- A save of the buffer with the number `id` failed. But for what the user saw and answered, the copy that the buffer
has of its text, its file, which is `path` now, and what a write that broke off left in this file, the desk `d'` is the
desk `d`. -/
structure Unsaved (d : Desk) (id : Nat) (path : Option Path) (d' : Desk) : Prop extends Texts d d' where
  disk : d'.disk = d.disk ∨ ∃ p text, path = some p ∧ d.text? id = some text ∧ d.disk.Torn p text d'.disk
  bar : d'.bar = d.bar
  changes : d'.changes = d.changes
  modified : ∀ j, (d'.buffer? j).map (·.modified) = (d.buffer? j).map (·.modified)
  others : ∀ j, j ≠ id → d'.buffer? j = d.buffer? j
  path : d'.path? id = path

namespace Unsaved

variable {d d' : Desk} {b : Buffer} {path : Option Path}

theorem facing {id : Nat} (hb : d.buffer? id = some b) (user : User) : Unsaved d id b.path (d.facing user) where
  toTexts := .facing d user
  disk := .inl rfl
  bar := rfl
  changes := rfl
  modified _ := rfl
  others _ _ := rfl
  path := by
    rw [path?, show (d.facing user).buffer? id = some b from hb]
    rfl

theorem of_facing {id : Nat} {user : User} (h : Unsaved (d.facing user) id path d') : Unsaved d id path d' where
  toTexts := (Texts.facing d user).trans h.toTexts
  disk := h.disk
  bar := h.bar
  changes := h.changes
  modified := h.modified
  others := h.others
  path := h.path

theorem saveTo (hb : d.buffer? b.id = some b) {p : Path} (h : (d.saveTo b p).1 = false) :
    Unsaved d b.id (some p) (d.saveTo b p).2 := by
  have htexts := Texts.saveTo hb p
  rw [saveTo_eq] at h htexts ⊢
  split at h
  · rename_i e he
    rw [he] at htexts
    have hself : (d.refused (d.sent b p) e).buffer? b.id = some (d.sent b p) :=
      buffer?_setBuffer_self hb
    have hother : ∀ j, j ≠ b.id → (d.refused (d.sent b p) e).buffer? j = d.buffer? j :=
      fun j hj => buffer?_setBuffer_of_ne hj
    have htext : d.text? b.id = some (d.sent b p).content := by
      rw [text?, stored, hb, Option.map_some, ← apply_ite some]
      rfl
    refine ⟨htexts, (Files.Disk.left_of_write he).imp_right fun h => ⟨p, _, rfl, htext, h⟩, rfl, rfl, fun j => ?_,
      hother, ?_⟩
    · by_cases hj : j = b.id
      · rw [hj, hself, hb]
        rfl
      · rw [hother j hj]
    · rw [path?, hself]
      rfl
  · cases h

theorem saveAsked (hb : d.buffer? b.id = some b) (h : (d.saveAsked b).1 = false) :
    Unsaved d b.id (d.chosen?.or b.path) (d.saveAsked b).2 := by
  have hchoose : (d.user.choosePath saveDialog).1 = d.user.paths.headD "" := rfl
  rw [saveAsked_eq, hchoose] at h ⊢
  unfold chosen?
  by_cases hcancel : (d.user.paths.headD "").isEmpty = true
  · rw [if_pos hcancel, if_pos hcancel]
    exact facing hb _
  · rw [if_neg hcancel] at h
    rw [if_neg hcancel, if_neg hcancel]
    refine of_facing (saveTo ?_ h)
    exact hb

theorem saveBuffer (hb : d.buffer? b.id = some b) (h : (d.saveBuffer b).1 = false) :
    Unsaved d b.id (b.path.or d.chosen?) (d.saveBuffer b).2 := by
  unfold Desk.saveBuffer at h ⊢
  cases hpath : b.path with
  | some p =>
    rw [hpath] at h
    exact saveTo hb h
  | none =>
    rw [hpath] at h
    have hunsaved := saveAsked hb h
    rw [hpath, Option.or_none] at hunsaved
    exact hunsaved

end Unsaved

/-- The file that a buffer belongs to after a question about its changes that came to nothing. -/
def pathAfter (d : Desk) (b : Buffer) : Option Path :=
  if d.user.answers.headD none = some true then b.path.or d.chosen? else b.path

/-- A save of the buffer failed, if there was a buffer at all; its file is `path` of it now. -/
def Failed (d : Desk) (path : Buffer → Option Path) (d' : Desk) : Option Buffer → Prop
  | none => d' = d
  | some b => Unsaved d b.id (path b) d'

section Operations

variable {d : Desk} {b : Buffer}

theorem Unsaved.settle (hb : d.buffer? b.id = some b) {question : String} (h : (d.settle b question).1 = false) :
    Unsaved d b.id (d.pathAfter b) (d.settle b question).2 := by
  rw [settle_eq] at h ⊢
  unfold pathAfter
  have hanswer : (d.user.answer (prompt question)).1 = d.user.answers.headD none := rfl
  rw [hanswer] at h ⊢
  cases hd : d.user.answers.headD none with
  | none => exact facing hb _
  | some yes =>
    rw [hd] at h
    cases yes with
    | true =>
      refine of_facing (saveBuffer ?_ h)
      exact hb
    | false => cases h

theorem Unsaved.asked (hb : d.buffer? b.id = some b) {question : String} (h : (d.asked b question).1 = false) :
    Unsaved d b.id (d.pathAfter b) (d.asked b question).2 := by
  unfold Desk.asked at h ⊢
  split
  · rename_i hmod
    rw [if_pos hmod] at h
    exact settle hb h
  · rename_i hmod
    rw [if_neg hmod] at h
    cases h

theorem failed_close (id : Nat) (h : (d.close id).1 = false) : d.Failed d.pathAfter (d.close id).2 (d.buffer? id) := by
  rw [close_eq] at h ⊢
  cases hb : d.buffer? id with
  | none => rfl
  | some b =>
    obtain rfl := id_of_buffer? hb
    rw [hb] at h
    dsimp only at h ⊢
    split
    · rename_i hgo
      rw [if_pos hgo] at h
      cases h
    · rename_i hgo
      exact .asked hb (Bool.eq_false_iff.2 hgo)

/-- The question that stops an operation on several buffers is the first one that comes to nothing. -/
theorem exists_unsettled {ids : List Nat} (h : (d.settleAll ids).1 = false) : ∃ before id after d' b,
    ids = before ++ id :: after ∧ d.settleAll before = (true, d') ∧ d'.buffer? id = some b ∧ b.modified = true ∧
      d.settleAll ids = d'.settle b (closeQuestion b) := by
  induction ids generalizing d with
  | nil => cases h
  | cons id ids ih =>
    -- A buffer that was settled comes in front of those before the one in question.
    have hmore : ∀ e : Desk, (∀ ids, d.settleAll (id :: ids) = e.settleAll ids) → ∃ before id' after d' b,
        id :: ids = before ++ id' :: after ∧ d.settleAll before = (true, d') ∧ d'.buffer? id' = some b ∧
          b.modified = true ∧ d.settleAll (id :: ids) = d'.settle b (closeQuestion b) := by
      intro e hall
      obtain ⟨before, id', after, d', b, rfl, hbefore, hrest⟩ := ih (hall ids ▸ h)
      exact ⟨id :: before, id', after, d', b, rfl, (hall before).trans hbefore, by rwa [hall]⟩
    rcases d.settleAll_cons id with hall | ⟨b, hb, hmod, hall⟩
    · exact hmore d hall
    · cases hgo : (d.settle b (closeQuestion b)).1 with
      | true => exact hmore _ fun ids => (hall ids).trans (if_pos hgo)
      | false => exact ⟨[], id, ids, d, b, rfl, rfl, hb, hmod, (hall ids).trans (if_neg (Bool.eq_false_iff.1 hgo))⟩

end Operations

/-- **A failed save**, whichever way it came up, leaves the bar with its labels, the marks of unsaved changes and all
other buffers as they were, and the disk unless the write broke off. The file of the buffer is the one it had, unless the
user chose one: then it is the chosen one, although its text is not there. -/
theorem failed_save_keeps (d : Desk) :
    (d.save.1 = false → d.Failed (fun b => b.path.or d.chosen?) d.save.2 d.activeBuffer?) ∧
    (d.saveAs.1 = false → d.Failed (fun b => d.chosen?.or b.path) d.saveAs.2 d.activeBuffer?) ∧
    (∀ id, (d.close id).1 = false → d.Failed d.pathAfter (d.close id).2 (d.buffer? id)) ∧
    (d.closeCurrent.1 = false → d.Failed d.pathAfter d.closeCurrent.2 d.activeBuffer?) ∧
    (∀ b path, d.activeBuffer? = some b → (d.asked b (replaceQuestion b path)).1 = false →
      (d.openFile path).1 = false ∧ Unsaved d b.id (d.pathAfter b) (d.openFile path).2) ∧
    (d.checkAllSaved.1 = false → ∃ before id after d' b, d.outline.ids = before ++ id :: after ∧
      d.synced.settleAll before = (true, d') ∧ (∀ j, j ∉ before → d'.buffer? j = d.synced.buffer? j) ∧
      d'.buffer? id = some b ∧ b.modified = true ∧ Unsaved d' id (d'.pathAfter b) d.checkAllSaved.2) := by
  refine ⟨fun h => ?_, fun h => ?_, failed_close, fun h => ?_, fun b path hb h => ?_, fun h => ?_⟩
  · unfold save at h ⊢
    cases hb : d.activeBuffer? with
    | none => rfl
    | some b =>
      rw [hb] at h
      exact .saveBuffer (activeBuffer?_eq_some.1 hb).2 h
  · unfold saveAs at h ⊢
    cases hb : d.activeBuffer? with
    | none => rfl
    | some b =>
      rw [hb] at h
      exact .saveAsked (activeBuffer?_eq_some.1 hb).2 h
  · unfold closeCurrent activeBuffer? at *
    cases hactive : d.active with
    | none => rfl
    | some id =>
      rw [hactive] at h
      exact failed_close id h
  · obtain ⟨hactive, hfound⟩ := activeBuffer?_eq_some.1 hb
    rw [openFile_eq d path (Option.isSome_iff_exists.2 ⟨_, hactive⟩), hb]
    dsimp only
    rw [if_neg (Bool.eq_false_iff.1 h)]
    exact ⟨rfl, .asked hfound h⟩
  · rw [checkAllSaved_eq] at h ⊢
    obtain ⟨before, id, after, d', b, hids, hbefore, hb, hmod, hresult⟩ := exists_unsettled h
    refine ⟨before, id, after, d', b, hids, hbefore, fun j hj => ?_, hb, hmod, ?_⟩
    · rw [show d' = (d.synced.settleAll before).2 by rw [hbefore]]
      exact buffer?_settleAll_of_notMem hj
    · obtain rfl := id_of_buffer? hb
      rw [hresult] at h ⊢
      exact .settle hb h

/-- A desk with the file `/a.ql` open. The user is going to choose a file in a directory that does not exist. -/
def astray : Desk :=
  ((fresh {} {} (({} : Disk).addFile (.ofText "/a.ql") "x")).act (.openFile (.ofText "/a.ql"))).facing
    { paths := ["/nodir/b.ql"] }

theorem astray_keeps : astray.saveAs.1 = false ∧ astray.activeBuffer?.map (·.id) = some 0 ∧
    Unsaved astray 0 (some (.ofText "/nodir/b.ql")) astray.saveAs.2 := by
  have hfails : astray.saveAs.1 = false := by decide +kernel
  have hactive : astray.activeBuffer?.map (·.id) = some 0 := by decide +kernel
  have hchosen : astray.chosen? = some (.ofText "/nodir/b.ql") := by decide +kernel
  have hfailed := (failed_save_keeps astray).2.1 hfails
  obtain ⟨b, hb, hid⟩ := Option.map_eq_some_iff.1 hactive
  rw [hb, hchosen] at hfailed
  exact ⟨hfails, hactive, hid ▸ hfailed⟩

/-- The same desk with another text, when there is room on the disk for one character of it. -/
def cramped : Desk :=
  astray.after [.edit (astray.editor.setCode "yz"), .meet {} { astray.disk with short := [(.ofText "/a.ql", 1)] }]

/-- After a save that failed the buffer belongs to another file, its tab still names the old one, and the next save
fails again. A save that breaks off takes away what the file had. -/
theorem astray_moves : astray.saveAs.1 = false ∧ astray.path? 0 = some (.ofText "/a.ql") ∧
    astray.saveAs.2.path? 0 = some (.ofText "/nodir/b.ql") ∧ astray.saveAs.2.bar.tabs.map (·.label) = ["a.ql"] ∧
    astray.save.1 = true ∧ astray.saveAs.2.save.1 = false ∧ cramped.save.1 = false ∧
    cramped.disk.files = [("/a.ql", "x")] ∧ cramped.save.2.disk.files = [("/a.ql", "y")] := by
  decide +kernel

end Workbench.Tabs.Desk
