import Mathlib.Data.List.DropRight
import Workbench.Proofs.Outline

/-!
# The texts of the buffers

While a buffer is shown its text is that of the editor, otherwise it is its own copy; `Desk.text?` is the one or the
other, and it is what a save writes. Asking, saving and marking leave the texts alone (`Texts`, `Rests`), and so do
showing, making and closing buffers: the text goes from the editor into the copy and back, and it is cut at its end
the first time only (`Fit`). So an act changes no text but that of the buffer shown, and only by editing it or by
opening a file in it (`text?_act`).
-/

open List

open Option

namespace Workbench

theorem Text.trimEndNewlines_idem (s : String) :
    Text.trimEndNewlines (Text.trimEndNewlines s) = Text.trimEndNewlines s := by
  have hdrop : ∀ cs : List Char, (cs.dropWhile (· == '\n')).dropWhile (· == '\n') = cs.dropWhile (· == '\n') :=
    dropWhile_idempotent _
  simp only [Text.trimEndNewlines, Text.trimEndBy, String.toList_ofList, reverse_reverse, hdrop]

@[simp] theorem Editor.CodeEditor.code_setCode (e : Editor.CodeEditor) (s : String) :
    (e.setCode s).code = Text.trimEndNewlines s := by
  simp [setCode, redraw, code, TextArea.code, TextArea.contents, TextArea.replaced, TextArea.cleared,
    TextArea.insertAt]

/-! ### What is written is found -/

namespace Files

theorem Entry.find?_put {e : Entry} {p : String} (h : e.name = p) (es : List Entry) :
    (Entry.put e es).find? (·.name == p) = some e := by
  subst h
  induction es with
  | nil => simp [put]
  | cons x xs ih =>
    rw [put]
    split
    · simp
    · split
      · simp
      · rename_i hne
        rw [find?_cons_of_neg, ih]
        simpa using Ne.symm hne

theorem Node.find?_withFile (text : String) {parts : List String} (h : parts ≠ []) (es : List Entry) :
    Node.find? (withFile text parts es) parts = some (.file text) := by
  induction parts generalizing es with
  | nil => exact absurd rfl h
  | cons p ps ih =>
    cases ps with
    | nil =>
      rw [withFile, Node.find?, Entry.find?_put (p := p) rfl]
      rfl
    | cons q qs =>
      rw [withFile, Node.find?, Entry.find?_put (p := p) rfl]
      · exact ih (cons_ne_nil q qs) _
      · exact cons_ne_nil q qs

namespace Disk

variable {d d' : Disk} {p : Path} {text : String}

theorem root_of_isDir_parent (h : d.isDir (d.locate p).parent = true) : (d.locate p).root = .slash := by
  have hroot : (d.locate (d.locate p).parent).root = .slash := by
    rw [isDir, find?] at h
    split at h
    · rename_i hfind
      split at hfind
      · assumption
      · cases hfind
    · cases h
  have hjoin : ∀ q : Path, (d.locate q).root = if q.root = .here then d.cwd.root else q.root := by
    intro q
    rw [locate, Path.join]
    split
    · rfl
    · rfl
  have hparent : (d.locate p).parent.root = (d.locate p).root := rfl
  rw [hjoin (d.locate p).parent, hparent] at hroot
  split at hroot
  · rename_i hhere
    rw [hjoin] at hhere
    split at hhere
    · rw [hroot] at hhere
      cases hhere
    · contradiction
  · exact hroot

/-- A disk on which the file has got no more than the first part of a text. -/
def Torn (d : Disk) (p : Path) (text : String) (d' : Disk) : Prop :=
  ∃ cut : String, cut.toList <+: text.toList ∧ d' = d.addFile p cut

/-- A write fails before the file is opened, or it breaks off. -/
theorem left_of_write {e : WriteError} (h : d.write p text = .error e) : e.left d = d ∨ d.Torn p text (e.left d) := by
  unfold write at h
  dsimp only at h
  repeat' split at h
  all_goals cases h
  iterate 3 exact .inl rfl
  refine .inr ⟨_, ?_, rfl⟩
  rw [String.toList_ofList]
  exact List.take_prefix _ _

theorem find?_of_write (h : d.write p text = .ok d') : d'.find? p = some (.file text) := by
  unfold write at h
  dsimp only at h
  repeat' split at h
  all_goals cases h
  rename_i hdir hparent _ _ _
  have hroot := root_of_isDir_parent (by simpa using hparent)
  have hparts : (d.locate p).parts ≠ [] := by
    intro hnil
    rw [isDir, find?, if_pos hroot, hnil, Node.find?] at hdir
    exact hdir rfl
  exact (if_pos hroot).trans (Node.find?_withFile text hparts d.entries)

end Disk

end Files

namespace Tabs

open Files (Path Disk FileError)
open Text (trimEndNewlines)

namespace Outline

variable {o o' : Outline} {id j : Nat}

theorem mem_new (h : j ∈ (o.add.select o.made).ids) : j ∈ o.ids ∨ j = o.made := by
  rw [ids_select] at h
  exact (mem_append.1 h).imp_right mem_singleton.1

theorem mem_discard (h : j ∈ (o.discard id).ids) :
    j ∈ o.ids ∧ j ≠ id ∨ j = o.made ∧ (o.discard id).active = some j := by
  have hremove : j ∈ (o.remove id).ids → j ∈ o.ids ∧ j ≠ id := by
    intro hj
    simpa [remove] using hj
  unfold discard at h ⊢
  by_cases hactive : o.active = some id
  · rw [if_pos hactive] at h ⊢
    cases hids : (o.remove id).ids with
    | cons next rest =>
      rw [hids] at h
      dsimp only at h
      rw [ids_select] at h
      exact .inl (hremove h)
    | nil =>
      rw [hids] at h
      refine (mem_new h).imp hremove fun hj => ⟨hj, ?_⟩
      rw [hj]
      exact active_new
  · rw [if_neg hactive] at h
    exact .inl (hremove h)

theorem ne_of_mem_discard (hj : j < o.made) (h : j ∈ (o.discard id).ids) : j ≠ id := by
  rcases mem_discard h with h | h
  · exact h.2
  · omega

theorem Step.mem_ids (hstep : o.Step o') (hj : j ∈ o'.ids) : j ∈ o.ids ∨ j = o.made ∧ o'.active = some j := by
  cases hstep with
  | stay => exact .inl hj
  | select id =>
    rw [ids_select] at hj
    exact .inl hj
  | new =>
    refine (mem_new hj).imp_right ?_
    rintro rfl
    exact ⟨rfl, active_new⟩
  | discard id => exact (mem_discard hj).imp_left And.left

theorem Step.made_le (hstep : o.Step o') : o.made ≤ o'.made := by
  cases hstep with
  | stay => exact le_rfl
  | select id => rw [made_select]
  | new =>
    rw [made_select]
    exact Nat.le_succ _
  | discard id =>
    unfold Outline.discard
    split
    · split
      · rw [made_select]
        exact le_rfl
      · rw [made_select]
        exact Nat.le_succ _
    · exact le_rfl

/-- Whatever is shown is there. -/
def Present (o : Outline) : Prop := ∀ id, o.active = some id → id ∈ o.ids

theorem Sound.present (h : o.Sound) : o.Present := by
  intro id hid
  rcases h with h | h
  · rw [h.active] at hid
    cases hid
  · obtain ⟨i, hi, hactive⟩ := h.active
    obtain rfl := some.inj (hid.symm.trans hactive)
    exact hi

end Outline

namespace Desk

variable {d d' : Desk} {b : Buffer} {id : Nat}

/-! ### Looking buffers up -/

theorem id_of_buffer? (h : d.buffer? id = some b) : b.id = id := by
  have := find?_some h
  simpa using this

theorem activeBuffer?_eq_some : d.activeBuffer? = some b ↔ d.active = some b.id ∧ d.buffer? b.id = some b := by
  rw [activeBuffer?, bind_eq_some_iff]
  constructor
  · rintro ⟨id, hactive, hb⟩
    obtain rfl := id_of_buffer? hb
    exact ⟨hactive, hb⟩
  · rintro ⟨hactive, hb⟩
    exact ⟨_, hactive, hb⟩

theorem buffer?_setBuffer : (d.setBuffer b).buffer? id = (d.buffer? id).map fun x => if x.id = b.id then b else x := by
  have hfind : ((fun x : Buffer => x.id == id) ∘ fun x => if x.id = b.id then b else x) = fun x => x.id == id := by
    funext x
    by_cases hx : x.id = b.id <;> simp [hx]
  simp only [buffer?, findBuffer?, setBuffer, replaceBuffer, find?_map, beq_iff_eq, hfind]

theorem buffer?_setBuffer_of_ne (h : id ≠ b.id) : (d.setBuffer b).buffer? id = d.buffer? id := by
  rw [buffer?_setBuffer]
  cases hx : d.buffer? id with
  | none => rfl
  | some x => rw [map_some, if_neg (id_of_buffer? hx ▸ h)]

theorem buffer?_setBuffer_self {x : Buffer} (h : d.buffer? b.id = some x) : (d.setBuffer b).buffer? b.id = some b := by
  rw [buffer?_setBuffer, h, map_some, if_pos (id_of_buffer? h)]

/-! ### Saving in pieces -/

def sent (d : Desk) (b : Buffer) (path : Path) : Buffer :=
  { b with
    path := some path
    content := if d.active = some b.id then d.editor.code else b.content }

def filed (d : Desk) (b : Buffer) (disk : Disk) : Desk :=
  ({ d.setBuffer { b with modified := false } with disk }.retitle { b with modified := false }).tell
    { b with modified := false }

def refused (d : Desk) (b : Buffer) (e : Files.WriteError) : Desk :=
  { d.setBuffer b with
    user := d.user.see (.error "Error" ("Could not save file:\n" ++ e.message))
    disk := e.left d.disk }

/-- The desk with a user who has seen and answered more. -/
def facing (d : Desk) (user : User) : Desk := { d with user }

theorem saveTo_eq (path : Path) : d.saveTo b path =
    match d.disk.write path (d.sent b path).content with
    | .error e => (false, d.refused (d.sent b path) e)
    | .ok disk => (true, d.filed (d.sent b path) disk) := rfl

theorem saveAsked_eq : d.saveAsked b =
    if (d.user.choosePath saveDialog).1.isEmpty then (false, d.facing (d.user.choosePath saveDialog).2)
    else (d.facing (d.user.choosePath saveDialog).2).saveTo b (.ofText (d.user.choosePath saveDialog).1) := rfl

def prompt (question : String) : Dialog := .yesNoCancel "Unsaved Changes" question

theorem settle_eq (question : String) : d.settle b question =
    match (d.user.answer (prompt question)).1 with
    | none => (false, d.facing (d.user.answer (prompt question)).2)
    | some true => (d.facing (d.user.answer (prompt question)).2).saveBuffer b
    | some false => (true, d.facing (d.user.answer (prompt question)).2) := rfl

/-! ### Texts -/

/-- The copy that a buffer has of its text. -/
def stored (d : Desk) (id : Nat) : Option String := (d.buffer? id).map (·.content)

def text? (d : Desk) (id : Nat) : Option String :=
  if d.active = some id then some d.editor.code else d.stored id

def path? (d : Desk) (id : Nat) : Option Path := (d.buffer? id).bind (·.path)

theorem stored_setBuffer {x : Buffer} (hx : d.buffer? b.id = some x) (id : Nat) :
    (d.setBuffer b).stored id = if id = b.id then some b.content else d.stored id := by
  by_cases hid : id = b.id
  · subst hid
    rw [if_pos rfl, stored, buffer?_setBuffer_self hx, map_some]
  · rw [if_neg hid, stored, buffer?_setBuffer_of_ne hid, stored]

theorem content_sent (hb : d.buffer? b.id = some b) {text : String} (htext : d.text? b.id = some text) (path : Path) :
    (d.sent b path).content = text := by
  rw [text?, stored, hb, map_some, ← apply_ite some] at htext
  exact some.inj htext

/-- The desk `d'` has the buffers of `d` with their texts. -/
structure Texts (d d' : Desk) : Prop where
  outline : d'.outline = d.outline
  editor : d'.editor = d.editor
  stored : ∀ id, d.active ≠ some id → d'.stored id = d.stored id

/-- The desk `d'` has the buffers of `d` with their texts and files. -/
structure Rests (d d' : Desk) : Prop extends Texts d d' where
  path : ∀ id p, d.path? id = some p → d'.path? id = some p

namespace Texts

theorem refl (d : Desk) : Texts d d := ⟨rfl, rfl, fun _ _ => rfl⟩

theorem active (h : Texts d d') : d'.active = d.active := congrArg Outline.active h.outline

theorem trans {d'' : Desk} (h : Texts d d') (h' : Texts d' d'') : Texts d d'' where
  outline := h'.outline.trans h.outline
  editor := h'.editor.trans h.editor
  stored id hid := (h'.stored id (h.active ▸ hid)).trans (h.stored id hid)

theorem text? (h : Texts d d') (id : Nat) : d'.text? id = d.text? id := by
  by_cases hid : d.active = some id
  · simp only [Desk.text?, h.active, if_pos hid, h.editor]
  · simp only [Desk.text?, h.active, if_neg hid, h.stored id hid]

/-- Only the copy of the buffer shown may lag behind. -/
theorem setBuffer {x : Buffer} (hx : d.buffer? b.id = some x)
    (h : d.active ≠ some b.id → b.content = x.content) : Texts d (d.setBuffer b) where
  outline := outline_setBuffer d b
  editor := rfl
  stored id hid := by
    rw [stored_setBuffer hx]
    split
    · rename_i hb
      subst hb
      rw [h hid, Desk.stored, hx, map_some]
    · rfl

theorem facing (d : Desk) (user : User) : Texts d (d.facing user) := ⟨rfl, rfl, fun _ _ => rfl⟩

theorem saveTo (hb : d.buffer? b.id = some b) (path : Path) : Texts d (d.saveTo b path).2 := by
  have hset : ∀ modified, Texts d (d.setBuffer { d.sent b path with modified }) :=
    fun modified => .setBuffer hb fun hid => if_neg hid
  rw [saveTo_eq]
  split
  · exact (hset b.modified).trans ⟨rfl, rfl, fun _ _ => rfl⟩
  · refine (hset false).trans ⟨?_, rfl, fun _ _ => rfl⟩
    exact (outline_tell _ _).trans (outline_retitle _ _)

theorem saveAsked (hb : d.buffer? b.id = some b) : Texts d (d.saveAsked b).2 := by
  have huser := facing d (d.user.choosePath saveDialog).2
  rw [saveAsked_eq]
  split
  · exact huser
  · refine huser.trans (saveTo ?_ _)
    exact hb

end Texts

namespace Rests

theorem refl (d : Desk) : Rests d d := ⟨.refl d, fun _ _ h => h⟩

theorem trans {d'' : Desk} (h : Rests d d') (h' : Rests d' d'') : Rests d d'' where
  toTexts := h.toTexts.trans h'.toTexts
  path id p hp := h'.path id p (h.path id p hp)

theorem facing (d : Desk) (user : User) : Rests d (d.facing user) := ⟨.facing d user, fun _ _ h => h⟩

theorem setBuffer {x : Buffer} (hx : d.buffer? b.id = some x)
    (h : d.active ≠ some b.id → b.content = x.content) (hpath : ∀ p, x.path = some p → b.path = some p) :
    Rests d (d.setBuffer b) where
  toTexts := .setBuffer hx h
  path id p hp := by
    by_cases hb : id = b.id
    · subst hb
      rw [path?, hx] at hp
      rw [path?, buffer?_setBuffer_self hx]
      exact hpath p hp
    · rwa [path?, buffer?_setBuffer_of_ne hb]

theorem saveTo (hb : d.buffer? b.id = some b) {path : Path} (hpath : ∀ p, b.path = some p → p = path) :
    Rests d (d.saveTo b path).2 where
  toTexts := .saveTo hb path
  path id p hp := by
    have hset : ∀ modified, Rests d (d.setBuffer { d.sent b path with modified }) :=
      fun modified => setBuffer hb (fun hid => if_neg hid) fun p hp => congrArg some (hpath p hp).symm
    rw [saveTo_eq]
    split
    · exact (hset b.modified).path id p hp
    · exact (hset false).path id p hp

theorem saveAsked (hb : d.buffer? b.id = some b) (hpath : b.path = none) : Rests d (d.saveAsked b).2 := by
  have huser := facing d (d.user.choosePath saveDialog).2
  have hnone : ∀ p path, b.path = some p → p = path := by simp [hpath]
  rw [saveAsked_eq]
  split
  · exact huser
  · refine huser.trans (saveTo ?_ fun p => hnone p _)
    exact hb

theorem saveBuffer (hb : d.buffer? b.id = some b) : Rests d (d.saveBuffer b).2 := by
  unfold Desk.saveBuffer
  split
  next path hpath => exact saveTo hb fun p hp => some.inj (hp.symm.trans hpath)
  next hpath => exact saveAsked hb hpath

theorem settle (hb : d.buffer? b.id = some b) (question : String) : Rests d (d.settle b question).2 := by
  have huser := facing d (d.user.answer (prompt question)).2
  rw [settle_eq]
  split
  · exact huser
  · exact huser.trans (saveBuffer hb)
  · exact huser

theorem settleAll (d : Desk) (ids : List Nat) : Rests d (d.settleAll ids).2 := by
  induction ids generalizing d with
  | nil => exact refl d
  | cons id ids ih =>
    rcases d.settleAll_cons id with h | ⟨b, hb, -, h⟩ <;> rw [h]
    · exact ih d
    · have hsettle := settle (id_of_buffer? hb ▸ hb) (closeQuestion b)
      split
      · exact hsettle.trans (ih _)
      · exact hsettle

theorem synced (d : Desk) : Rests d d.synced := by
  unfold Desk.synced
  split
  · rename_i b hb
    obtain ⟨hactive, hb⟩ := activeBuffer?_eq_some.1 hb
    exact setBuffer hb (absurd hactive) fun _ hp => hp
  · exact refl d

theorem checkAllSaved (d : Desk) : Rests d d.checkAllSaved.2 := by
  rw [checkAllSaved_eq]
  exact (synced d).trans (settleAll _ _)

theorem save (d : Desk) : Rests d d.save.2 := by
  unfold Desk.save
  split
  · rename_i b hb
    exact saveBuffer (activeBuffer?_eq_some.1 hb).2
  · exact refl d

theorem markModified (d : Desk) : Rests d d.markModified := by
  unfold Desk.markModified
  split
  · rename_i b hb
    have hset : Rests d (d.setBuffer { b with modified := true }) :=
      setBuffer (activeBuffer?_eq_some.1 hb).2 (fun _ => rfl) fun _ hp => hp
    exact hset.trans ⟨⟨outline_retitle _ _, rfl, fun _ _ => rfl⟩, fun _ _ h => h⟩
  · exact refl d

theorem asked (hb : d.buffer? b.id = some b) (question : String) : Rests d (d.asked b question).2 := by
  unfold Desk.asked
  split
  · exact settle hb question
  · exact refl d

end Rests

theorem Texts.saveAs (d : Desk) : Texts d d.saveAs.2 := by
  unfold Desk.saveAs
  split
  · rename_i b hb
    exact .saveAsked (activeBuffer?_eq_some.1 hb).2
  · exact .refl d

/-! ### Showing, making and closing buffers -/

theorem stored_capture (h : d.outline.Present) (id : Nat) : d.capture.stored id = d.text? id := by
  unfold capture text?
  split
  · rename_i b hactive
    obtain ⟨hactive, hb⟩ := activeBuffer?_eq_some.1 hactive
    rw [stored_setBuffer]
    · rw [hactive]
      simp only [some.injEq, eq_comm]
    · exact hb
  · rename_i hnone
    rw [if_neg]
    intro hid
    obtain ⟨b, hb⟩ := d.mem_ids.1 (h id hid)
    rw [activeBuffer?, hid, bind_some, hb] at hnone
    cases hnone

theorem text?_select (h : d.outline.Present) {id : Nat} (hid : id ∈ d.outline.ids) (j : Nat) :
    (d.select id).text? j = if j = id then (d.text? j).map trimEndNewlines else d.text? j := by
  obtain ⟨b, hb⟩ := d.mem_ids.1 hid
  obtain ⟨c, hc⟩ := d.capture.mem_ids.1 (by rwa [outline_capture])
  have hselect : d.select id =
      ({ ({ d.capture with active := some id }.load c) with bar := d.capture.bar.setActive id }).tell c := by
    have hc' : ({ d.capture with active := some id } : Desk).buffer? id = some c := hc
    simp only [select, hb, hc']
    rfl
  have hcopy := stored_capture h j
  rw [hselect]
  by_cases hj : j = id
  · subst hj
    have hcode : d.text? j = some c.content := by rw [← hcopy, stored, hc, map_some]
    rw [if_pos rfl, hcode]
    exact (if_pos rfl).trans (congrArg some (Editor.CodeEditor.code_setCode _ _))
  · rw [if_neg hj, ← hcopy]
    exact if_neg fun h => hj (some.inj h).symm

/-- The desk with one more buffer, which is not shown yet. -/
def added (d : Desk) (b : Buffer) : Desk :=
  { d with buffers := d.buffers ++ [b], bar := d.bar.add b, made := d.made + 1 }

theorem newBuffer_eq (content : String) (path : Option Path) : d.newBuffer content path =
    (d.added { id := d.made, content, path }).select d.made := rfl

theorem outline_added (h : b.id = d.made) : (d.added b).outline = d.outline.add := by
  simp [outline, added, Outline.add, Bar.add, Bar.shown, h]

theorem buffer?_added (h : d.buffer? b.id = none) (id : Nat) :
    (d.added b).buffer? id = if id = b.id then some b else d.buffer? id := by
  rw [buffer?, findBuffer?, added, find?_append]
  by_cases hid : id = b.id
  · subst hid
    rw [if_pos rfl, show d.buffers.find? (·.id == b.id) = none from h, none_or]
    simp
  · rw [if_neg hid, find?_singleton, if_neg (by simpa using Ne.symm hid), or_none]
    rfl

theorem buffer?_made (h : ∀ id ∈ d.outline.ids, id < d.made) : d.buffer? d.made = none := by
  rw [eq_none_iff_forall_ne_some]
  intro b hb
  exact Nat.lt_irrefl _ (h _ (d.mem_ids.2 ⟨b, hb⟩))

theorem text?_newBuffer (h : d.outline.Present) (hmade : ∀ id ∈ d.outline.ids, id < d.made) (content : String)
    (path : Option Path) (j : Nat) :
    (d.newBuffer content path).text? j = if j = d.made then some (trimEndNewlines content) else d.text? j := by
  have hadd := outline_added (b := { id := d.made, content, path }) rfl
  have hpresent : (d.added { id := d.made, content, path }).outline.Present := by
    intro id hid
    rw [hadd] at ⊢
    exact mem_append_left _ (h id hid)
  have hstored : ∀ id, (d.added { id := d.made, content, path }).stored id =
      if id = d.made then some content else d.stored id := by
    intro id
    rw [stored, buffer?_added (buffer?_made hmade)]
    split
    · rfl
    · rfl
  have hactive : ∀ id, (d.added { id := d.made, content, path }).text? id =
      if d.active = some id then some d.editor.code else if id = d.made then some content else d.stored id :=
    fun id => by rw [← hstored]; rfl
  rw [newBuffer_eq, text?_select hpresent (by rw [hadd]; exact mem_append_right _ mem_cons_self), hactive]
  split
  · rename_i hj
    subst hj
    have hfree : d.active ≠ some d.made := fun hid => Nat.lt_irrefl _ (hmade _ (h _ hid))
    rw [if_neg hfree, map_some]
  · rfl

/-! ### What an act does to the texts -/

/-- A desk on which no text ends in a newline. -/
structure Fit (d : Desk) : Prop where
  sound : d.outline.Sound
  ended : ∀ id text, d.text? id = some text → trimEndNewlines text = text

theorem Fit.map_text? (h : Fit d) (id : Nat) : (d.text? id).map trimEndNewlines = d.text? id := by
  cases htext : d.text? id with
  | none => rfl
  | some text => rw [map_some, h.ended id text htext]

theorem Fit.made (h : Fit d) : ∀ id ∈ d.outline.ids, id < d.made := h.sound.aligned.made

theorem text?_select_of_fit (h : Fit d) (id j : Nat) : (d.select id).text? j = d.text? j := by
  by_cases hid : id ∈ d.outline.ids
  · rw [text?_select h.sound.present hid, h.map_text?, ite_self]
  · have hnone : d.buffer? id = none := by
      rw [eq_none_iff_forall_ne_some]
      exact fun b hb => hid (d.mem_ids.2 ⟨b, hb⟩)
    rw [select, hnone, isNone_none, if_pos rfl]

theorem buffer?_without {j : Nat} (hj : j ≠ id) : (d.without id).buffer? j = d.buffer? j := by
  rw [buffer?, findBuffer?, without, find?_filter]
  refine congrArg d.buffers.find? (funext fun b => ?_)
  by_cases hb : b.id = j
  · simp [hb, hj]
  · simp [hb]

theorem buffer?_select_of_none (h : d.active = none) (id j : Nat) : (d.select id).buffer? j = d.buffer? j := by
  have hcapture : d.capture = d := by rw [capture, activeBuffer?, h, bind_none]
  unfold select
  split
  · rfl
  · rw [hcapture]
    dsimp only
    split
    · rfl
    · rfl

theorem buffer?_discard_of_ne {id j : Nat} (hj : j ≠ id) (hb : d.buffer? j = some b) :
    (d.discard id).buffer? j = some b := by
  have hwithout : (d.without id).buffer? j = some b := (buffer?_without hj).trans hb
  rw [discard_eq]
  split
  · split
    · exact (buffer?_select_of_none rfl _ j).trans hwithout
    · rename_i hnil
      rw [buffer?, hnil] at hwithout
      cases hwithout
  · exact hwithout

theorem text?_discard (h : Fit d) {j : Nat} (hj : j ≠ id) (hmade : j ≠ d.made) :
    (d.discard id).text? j = d.text? j := by
  have hwithout : (d.without id).text? j = d.text? j := by
    rw [text?, stored, buffer?_without hj]
    rfl
  rw [discard_eq]
  split
  · rename_i hactive
    have hhidden : (d.without id).hidden.text? j = d.text? j := by
      rw [← hwithout, text?, text?, if_neg (by rintro ⟨⟩), if_neg]
      · rfl
      · exact fun hid => hj (some.inj (hid.symm.trans hactive))
    have hpresent : (d.without id).hidden.outline.Present := by rintro _ ⟨⟩
    split
    · rename_i b bs hbs
      have hmem : b.id ∈ (d.without id).hidden.outline.ids := by
        rw [outline, hidden, hbs]
        exact mem_cons_self
      rw [text?_select hpresent hmem, hhidden, h.map_text?, ite_self]
    · rename_i hnil
      rw [text?_newBuffer hpresent]
      · exact (if_neg hmade).trans hhidden
      · intro i hi
        rw [outline, hidden, hnil] at hi
        cases hi
  · exact hwithout

def fileBuffer (id : Nat) (path : Path) (text : String) : Buffer := { id, path := some path, content := text }

/-- The desk with a file in the place of a buffer. -/
def opened (d : Desk) (id : Nat) (path : Path) (text : String) : Desk :=
  (((d.setBuffer (fileBuffer id path text)).load (fileBuffer id path text)).retitle (fileBuffer id path text)).tell
    (fileBuffer id path text)

theorem replaceWith_eq (id : Nat) (path : Path) : d.replaceWith id path =
    match d.disk.read path with
    | .error e => (false, d.facing (d.user.see (.error "Error" ("Could not open file:\n" ++ e.message))))
    | .ok text => (true, d.opened id path text) := rfl

theorem buffer?_opened_of_ne {j : Nat} (hj : j ≠ id) (path : Path) (text : String) :
    (d.opened id path text).buffer? j = d.buffer? j := buffer?_setBuffer_of_ne hj

theorem exists_active (h : d.outline.Present) (hid : d.active = some id) :
    ∃ b, b.id = id ∧ d.buffer? b.id = some b ∧ d.activeBuffer? = some b := by
  obtain ⟨b, hb⟩ := d.mem_ids.1 (h id hid)
  obtain rfl := id_of_buffer? hb
  exact ⟨b, rfl, hb, activeBuffer?_eq_some.2 ⟨hid, hb⟩⟩

theorem exists_active_of_mem (h : d.outline.Sound) (hid : id ∈ d.outline.ids) :
    ∃ b, d.active = some b.id ∧ d.buffer? b.id = some b ∧ d.activeBuffer? = some b := by
  rcases h with h | h
  · rw [h.ids] at hid
    cases hid
  · obtain ⟨i, hi, hactive⟩ := h.active
    obtain ⟨b, rfl, hb, hshown⟩ := exists_active (Outline.Sound.present (.inr h)) hactive
    exact ⟨b, hactive, hb, hshown⟩

/-- Either no file is opened, or it takes the place of the buffer shown. -/
theorem openFile_cases (hb : d.buffer? b.id = some b) (hactive : d.active = some b.id) (path : Path) :
    (d.openFile path).1 = false ∧ Rests d (d.openFile path).2 ∨
    ∃ d' text, Rests d d' ∧ d'.disk.read path = .ok text ∧ d.openFile path = (true, d'.opened b.id path text) := by
  have hrests := Rests.asked hb (replaceQuestion b path)
  rw [openFile_eq d path (isSome_iff_exists.2 ⟨_, hactive⟩), activeBuffer?_eq_some.2 ⟨hactive, hb⟩]
  dsimp only
  split
  · rw [replaceWith_eq]
    split
    · exact .inl ⟨rfl, hrests.trans (.facing _ _)⟩
    · rename_i text hread
      exact .inr ⟨_, text, hrests, hread, rfl⟩
  · exact .inl ⟨rfl, hrests⟩

theorem text?_openFile (h : d.outline.Sound) (path : Path) {j : Nat} (hmem : j ∈ d.outline.ids)
    (hj : d.active ≠ some j) : (d.openFile path).2.text? j = d.text? j := by
  obtain ⟨b, hactive, hb, -⟩ := exists_active_of_mem h hmem
  rcases openFile_cases hb hactive path with ⟨-, hrests⟩ | ⟨d', text, hrests, -, heq⟩
  · exact hrests.text? j
  · have hne : j ≠ b.id := fun h => hj (h ▸ hactive)
    have hj' : d'.active ≠ some j := hrests.active ▸ hj
    rw [heq, ← hrests.text? j, text?, text?, if_neg hj', stored, buffer?_opened_of_ne hne]
    exact if_neg hj'

theorem fit_of_texts (h : Fit d) (ht : Texts d d') : Fit d' where
  sound := by rw [ht.outline]; exact h.sound
  ended id text := by rw [ht.text?]; exact h.ended id text

theorem text?_close (h : Fit d) {j : Nat} (hmem : j ∈ d.outline.ids) (hmem' : j ∈ (d.close id).2.outline.ids) :
    (d.close id).2.text? j = d.text? j := by
  cases hb : d.buffer? id with
  | none => rw [close_eq, hb]
  | some b =>
    have hrests := Rests.asked (id_of_buffer? hb ▸ hb) (closeQuestion b)
    rw [close_eq, hb] at hmem' ⊢
    dsimp only at hmem' ⊢
    split
    · rename_i hgo
      rw [if_pos hgo, outline_discard, hrests.outline] at hmem'
      -- The last buffer leaves an empty one behind, which no buffer of before can be.
      have hmade : j ≠ (d.asked b (closeQuestion b)).2.made := by
        rw [show (d.asked b (closeQuestion b)).2.made = d.made from congrArg Outline.made hrests.outline]
        exact Nat.ne_of_lt (h.made j hmem)
      have hne : j ≠ id := Outline.ne_of_mem_discard (h.made j hmem) hmem'
      rw [text?_discard (fit_of_texts h hrests.toTexts) hne hmade, hrests.text?]
    · exact hrests.text? j

end Desk

/-- Acts that put another text into the editor. -/
def Act.writes : Act → Bool
  | .edit _ | .openFile _ => true
  | .new .. | .select _ | .save | .saveAs | .close _ | .closeCurrent | .mark | .check | .meet .. => false

namespace Desk

variable {d : Desk}

/-- Acts leave the texts alone, but for that of the buffer shown if the user edits it or opens a file in it. -/
theorem text?_act (h : Fit d) {a : Act} {j : Nat} (hj : j ∈ d.outline.ids) (hj' : j ∈ (d.act a).outline.ids)
    (ha : a.writes = true → d.active ≠ some j) : (d.act a).text? j = d.text? j := by
  cases a with
  | new content path =>
    rw [act, text?_newBuffer h.sound.present h.made, if_neg (Nat.ne_of_lt (h.made j hj))]
  | select id => exact text?_select_of_fit h id j
  | openFile path => exact text?_openFile h.sound path hj (ha rfl)
  | save => exact (Rests.save d).text? j
  | saveAs => exact (Texts.saveAs d).text? j
  | close id => exact text?_close h hj hj'
  | closeCurrent =>
    rw [act, closeCurrent] at hj' ⊢
    split at hj'
    · exact text?_close h hj hj'
    · rfl
  | mark => exact (Rests.markModified d).text? j
  | check => exact (Rests.checkAllSaved d).text? j
  | edit editor =>
    rw [act, text?, text?, if_neg (ha rfl), if_neg (ha rfl)]
    rfl
  | meet user disk => rfl

/-- What is not shown after an act of writing was not shown before it either. -/
theorem active_act_of_writes (h : d.outline.Sound) {a : Act} (ha : a.writes = true) {j : Nat}
    (hj : j ∈ d.outline.ids) : (d.act a).active = d.active := by
  cases a with
  | openFile path =>
    obtain ⟨b, hactive, -, -⟩ := exists_active_of_mem h hj
    exact congrArg Outline.active (outline_openFile d path (isSome_iff_exists.2 ⟨_, hactive⟩))
  | edit => rfl
  | new | select | save | saveAs | close | closeCurrent | mark | check | meet => cases ha

/-- The text of a buffer that is not shown after an act is the one it had before. -/
theorem text?_left (h : Fit d) {a : Act} {j : Nat} (hj' : j ∈ (d.act a).outline.ids)
    (hleft : (d.act a).active ≠ some j) : j ∈ d.outline.ids ∧ (d.act a).text? j = d.text? j := by
  have hj : j ∈ d.outline.ids := ((d.step_act a).mem_ids hj').resolve_right fun hnew => hleft hnew.2
  refine ⟨hj, text?_act h hj hj' fun ha => ?_⟩
  rwa [← active_act_of_writes h.sound ha hj]

theorem fit_act (h : Fit d) (a : Act) : Fit (d.act a) where
  sound := (d.step_act a).sound h.sound
  ended j text htext := by
    by_cases hj : (d.act a).active = some j
    · rw [text?, if_pos hj] at htext
      obtain rfl := some.inj htext
      exact Text.trimEndNewlines_idem _
    · have hmem : j ∈ (d.act a).outline.ids := by
        rw [text?, if_neg hj] at htext
        obtain ⟨b, hb, -⟩ := map_eq_some_iff.1 htext
        exact (mem_ids _).2 ⟨b, hb⟩
      rw [(text?_left h hmem hj).2] at htext
      exact h.ended j text htext

theorem fit_fresh (editor : Editor.CodeEditor) (user : User) (disk : Disk) : Fit (fresh editor user disk) where
  sound := sound_fresh editor user disk
  ended := by rintro id text ⟨⟩

end Desk

end Tabs

end Workbench
