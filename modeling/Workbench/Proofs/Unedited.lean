import Workbench.Proofs.BufferTexts

/-!
# Files that are opened and saved

`Reading` remembers which file was opened in a buffer last and what was read from it. As long as nothing is edited and
no other file is chosen, the buffer keeps that file and that text, but for the newlines at its end, through any number
of changes from buffer to buffer (`Reading.Kept`). So saving the buffer shown puts into its file what was read from it
without the newlines at its end, which is what was read only if it did not end in one.
-/

namespace Workbench.Text

theorem trimEndNewlines_eq_self_iff (s : String) : trimEndNewlines s = s ↔ s.toList.getLast? ≠ some '\n' := by
  have hlast : s.toList.getLast? = s.toList.reverse.head? := by rw [List.head?_reverse]
  have hdrop : ∀ cs : List Char, cs.dropWhile (· == '\n') = cs ↔ cs.head? ≠ some '\n' := by
    intro cs
    cases cs with
    | nil => simp
    | cons c cs =>
      rw [List.dropWhile_cons, List.head?_cons]
      by_cases hc : c = '\n'
      · subst hc
        have hlength := List.length_dropWhile_le (· == '\n') cs
        simp only [BEq.rfl, if_true, ne_eq, not_true_eq_false, iff_false]
        intro heq
        rw [heq, List.length_cons] at hlength
        omega
      · simp [hc]
  rw [hlast, ← hdrop, trimEndNewlines, trimEndBy]
  constructor
  · intro h
    have := congrArg String.toList h
    rw [String.toList_ofList] at this
    rw [← List.reverse_eq_iff, this]
  · intro h
    rw [h, List.reverse_reverse, String.ofList_toList]

end Workbench.Text

namespace Workbench.Tabs

open Files (Path Disk FileError)
open Text (trimEndNewlines)

/-! ### The files of the buffers -/

/-- Acts that neither edit a text nor choose another file. -/
def Act.quiet : Act → Bool
  | .edit _ | .saveAs => false
  | .new .. | .select _ | .openFile _ | .save | .close _ | .closeCurrent | .mark | .check | .meet .. => true

namespace Desk

variable {d : Desk} {b : Buffer} {id : Nat}

variable {p : Path} {j : Nat}

theorem exists_of_path? (h : d.path? id = some p) : ∃ b, d.buffer? id = some b ∧ b.path = some p :=
  Option.bind_eq_some_iff.1 h

theorem path?_select (hp : d.path? j = some p) (id : Nat) : (d.select id).path? j = some p := by
  have hcapture : d.capture.path? j = some p := by
    unfold capture
    split
    · rename_i b hb
      obtain ⟨hactive, hb⟩ := activeBuffer?_eq_some.1 hb
      have hrests : Rests d (d.setBuffer { b with content := d.editor.code, cursor := d.editor.cursorPlace }) :=
        .setBuffer hb (absurd hactive) fun _ h => h
      exact hrests.path j p hp
    · exact hp
  unfold select
  split
  · exact hp
  · dsimp only
    split
    · exact hcapture
    · exact hcapture

theorem path?_close (hp : d.path? j = some p) (hmem : j ∈ (d.close id).2.outline.ids)
    (hmade : ∀ id ∈ d.outline.ids, id < d.made) : (d.close id).2.path? j = some p := by
  cases hb : d.buffer? id with
  | none => rwa [close_eq, hb]
  | some b =>
    have hrests := Rests.asked (id_of_buffer? hb ▸ hb) (closeQuestion b)
    have hasked := hrests.path j p hp
    rw [close_eq, hb] at hmem ⊢
    dsimp only at hmem ⊢
    split
    · rename_i hgo
      rw [if_pos hgo, outline_discard, hrests.outline] at hmem
      obtain ⟨c, hc, -⟩ := exists_of_path? hp
      have hne : j ≠ id := Outline.ne_of_mem_discard (hmade j (d.mem_ids.2 ⟨c, hc⟩)) hmem
      obtain ⟨x, hx, hpath⟩ := exists_of_path? hasked
      rw [path?, buffer?_discard_of_ne hne hx]
      exact hpath
    · exact hasked

theorem path?_openFile (h : d.outline.Sound) (path : Path) (hp : d.path? j = some p) (hj : d.active ≠ some j) :
    (d.openFile path).2.path? j = some p := by
  obtain ⟨c, hc, -⟩ := exists_of_path? hp
  obtain ⟨b, hactive, hb, -⟩ := exists_active_of_mem h (d.mem_ids.2 ⟨c, hc⟩)
  rcases openFile_cases hb hactive path with ⟨-, hrests⟩ | ⟨d', text, hrests, -, heq⟩
  · exact hrests.path j p hp
  · have hne : j ≠ b.id := fun h => hj (h ▸ hactive)
    rw [heq, path?, buffer?_opened_of_ne hne]
    exact hrests.path j p hp

/-- Acts leave the files of the buffers alone, but for that of the buffer shown if another one is opened in it. -/
theorem path?_act (h : Fit d) {a : Act} (ha : a.quiet = true) (hp : d.path? j = some p)
    (hj : j ∈ (d.act a).outline.ids) (hopen : a.writes = true → d.active ≠ some j) : (d.act a).path? j = some p := by
  cases a with
  | new content path =>
    obtain ⟨b, hb, -⟩ := exists_of_path? hp
    have hne : j ≠ d.made := Nat.ne_of_lt (h.made j (d.mem_ids.2 ⟨b, hb⟩))
    rw [act, newBuffer_eq]
    refine path?_select ?_ _
    rwa [path?, buffer?_added (buffer?_made h.made), if_neg hne]
  | select id => exact path?_select hp id
  | openFile path => exact path?_openFile h.sound path hp (hopen rfl)
  | save => exact (Rests.save d).path j p hp
  | close id => exact path?_close hp hj h.made
  | closeCurrent =>
    rw [act, closeCurrent] at hj ⊢
    split at hj
    · exact path?_close hp hj h.made
    · exact hp
  | mark => exact (Rests.markModified d).path j p hp
  | check => exact (Rests.checkAllSaved d).path j p hp
  | meet user disk => exact hp
  | edit | saveAs => cases ha

theorem opened_openFile (h : d.outline.Sound) {path : Path} (hgo : (d.openFile path).1 = true) {id : Nat}
    (hid : (d.openFile path).2.active = some id) : ∃ text, (d.openFile path).2.disk.read path = .ok text ∧
      (d.openFile path).2.path? id = some path ∧ (d.openFile path).2.text? id = some (trimEndNewlines text) := by
  have hshown : ∀ {e : Desk} {b : Buffer}, e.buffer? b.id = some b → e.active = some b.id →
      (e.openFile path).1 = true → (e.openFile path).2.active = some id →
      ∃ text, (e.openFile path).2.disk.read path = .ok text ∧ (e.openFile path).2.path? id = some path ∧
        (e.openFile path).2.text? id = some (trimEndNewlines text) := by
    intro e b hb hactive hgo hid
    rcases openFile_cases hb hactive path with ⟨hstop, -⟩ | ⟨d', text, hrests, hread, heq⟩
    · rw [hstop] at hgo
      cases hgo
    · rw [heq] at hid ⊢
      have hd' : d'.active = some id := hid
      obtain rfl : b.id = id := Option.some.inj (hactive.symm.trans (hrests.active ▸ hd'))
      obtain ⟨x, hx⟩ := d'.mem_ids.1 (by rw [hrests.outline]; exact e.mem_ids.2 ⟨b, hb⟩)
      refine ⟨text, hread, ?_, ?_⟩
      · have hfile : (d'.opened b.id path text).buffer? b.id = some (fileBuffer b.id path text) :=
          buffer?_setBuffer_self hx
        rw [path?, hfile]
        rfl
      · exact (if_pos hd').trans (congrArg some (Editor.CodeEditor.code_setCode _ _))
  cases hactive : d.active with
  | some i =>
    obtain ⟨b, rfl, hb, -⟩ := exists_active h.present hactive
    exact hshown hb hactive hgo hid
  | none =>
    have hactive' := active_newBuffer d "" none
    have hsound : (d.newBuffer "" none).outline.Sound := .inr (tidy_newBuffer h "" none)
    rw [openFile_of_none d hactive] at hgo hid ⊢
    obtain ⟨b, hmade, hb, -⟩ := exists_active hsound.present hactive'
    exact hshown hb (hmade ▸ hactive') hgo hid

end Desk

/-! ### What was read -/

/-- A desk, and the file opened last in each buffer with what was read from it. -/
structure Reading where
  desk : Desk
  origin : Nat → Option (Path × String) := fun _ => none

namespace Reading

def act (r : Reading) (a : Act) : Reading where
  desk := r.desk.act a
  origin id := match a with
    | .openFile path =>
      if (r.desk.openFile path).1 = true ∧ (r.desk.openFile path).2.active = some id then
        ((r.desk.openFile path).2.disk.read path).toOption.map fun text => (path, text)
      else r.origin id
    | _ => r.origin id

def after (r : Reading) (acts : List Act) : Reading := acts.foldl act r

/-- What was read into a buffer is there, but for newlines at the end, and it still belongs to its file. -/
structure Kept (r : Reading) : Prop where
  fit : r.desk.Fit
  made : ∀ id o, r.origin id = some o → id < r.desk.made
  text : ∀ id ∈ r.desk.outline.ids, ∀ path text, r.origin id = some (path, text) →
    r.desk.path? id = some path ∧ r.desk.text? id = some (trimEndNewlines text)

variable {r : Reading}

/-- What was read into a buffer was read in this act or before, and in the latter case no file was opened in it now. -/
theorem origin_act {a : Act} {id : Nat} {path : Path} {text : String} (h : (r.act a).origin id = some (path, text)) :
    (a = .openFile path ∧ (r.desk.openFile path).1 = true ∧ (r.desk.openFile path).2.active = some id ∧
      (r.desk.openFile path).2.disk.read path = .ok text) ∨
    r.origin id = some (path, text) ∧
      ∀ p, a = .openFile p → (r.desk.openFile p).2.active = some id → (r.desk.openFile p).1 = false := by
  cases a with
  | openFile p =>
    rw [act] at h
    dsimp only at h
    split at h
    · rename_i hopen
      left
      cases hread : (r.desk.openFile p).2.disk.read p with
      | ok text' =>
        rw [hread] at h
        obtain ⟨rfl, rfl⟩ := Prod.mk.inj (Option.some.inj h)
        exact ⟨rfl, hopen.1, hopen.2, hread⟩
      | error e =>
        rw [hread] at h
        cases h
    · rename_i hopen
      right
      refine ⟨h, ?_⟩
      rintro _ ⟨⟩ hactive
      exact Bool.eq_false_iff.2 fun hgo => hopen ⟨hgo, hactive⟩
  | new | select | save | saveAs | close | closeCurrent | mark | check | edit | meet => exact .inr ⟨h, nofun⟩

/-- An act without an edit keeps the texts that were read. -/
theorem Kept.act (hr : r.Kept) {a : Act} (ha : a.quiet = true) : (r.act a).Kept := by
  have hstep := r.desk.step_act a
  have hmade : ∀ id o, (r.act a).origin id = some o → id < (r.desk.act a).made := by
    rintro id ⟨path, text⟩ ho
    rcases origin_act ho with ⟨rfl, -, hactive, -⟩ | ⟨hold, -⟩
    · have hfit := Desk.fit_act hr.fit (.openFile path)
      exact hfit.made id (hfit.sound.present id hactive)
    · exact Nat.lt_of_lt_of_le (hr.made id _ hold) hstep.made_le
  refine ⟨Desk.fit_act hr.fit a, hmade, ?_⟩
  intro id hid path text ho
  rcases origin_act ho with ⟨rfl, hgo, hactive, hread⟩ | ⟨hold, hclosed⟩
  · obtain ⟨text', hread', hpath, htext⟩ := Desk.opened_openFile hr.fit.sound hgo hactive
    obtain rfl := Except.ok.inj (hread.symm.trans hread')
    exact ⟨hpath, htext⟩
  · have hid' : id ∈ r.desk.outline.ids :=
      (hstep.mem_ids hid).resolve_right fun hnew => Nat.ne_of_lt (hr.made id _ hold) hnew.1
    obtain ⟨hpath, htext⟩ := hr.text id hid' path text hold
    by_cases hactive : a.writes = true ∧ r.desk.active = some id
    · -- The buffer shown can only have had a file opened in it, which came to nothing.
      obtain ⟨hwrites, hactive⟩ := hactive
      cases a with
      | openFile p =>
        have hstay := Desk.active_act_of_writes hr.fit.sound hwrites hid'
        obtain ⟨b, rfl, hb, -⟩ := Desk.exists_active hr.fit.sound.present hactive
        have hfailed := hclosed p rfl (hstay.trans hactive)
        rcases Desk.openFile_cases hb hactive p with ⟨-, hrests⟩ | ⟨d', text', -, -, heq⟩
        · exact ⟨hrests.path _ path hpath, (hrests.text? _).trans htext⟩
        · rw [heq] at hfailed
          cases hfailed
      | edit => cases ha
      | new | select | save | saveAs | close | closeCurrent | mark | check | meet => cases hwrites
    · have hother : a.writes = true → r.desk.active ≠ some id := fun hw hactive' => hactive ⟨hw, hactive'⟩
      exact ⟨Desk.path?_act hr.fit ha hpath hid hother, (Desk.text?_act hr.fit hid' hid hother).trans htext⟩

theorem Kept.after (hr : r.Kept) {acts : List Act} (hquiet : ∀ a ∈ acts, a.quiet = true) : (r.after acts).Kept := by
  induction acts generalizing r with
  | nil => exact hr
  | cons a acts ih =>
    refine ih (hr.act (hquiet a List.mem_cons_self)) ?_
    exact fun a' ha' => hquiet a' (List.mem_cons_of_mem a ha')

end Reading

namespace Desk

variable {d : Desk} {b : Buffer}

/-- **Opening and saving.** Where a file was opened and nothing was edited since, saving the buffer shown writes to that
file what was read from it without the newlines at its end, unless the disk refuses; the file then is as it was, or has
the first part of that text. This is what was read just if that did not end in a newline. -/
theorem saved_unedited (editor : Editor.CodeEditor) (user : User) (disk : Disk) {acts : List Act}
    (hquiet : ∀ a ∈ acts, a.quiet = true) {r : Reading}
    (hrun : r = Reading.after { desk := fresh editor user disk } acts) {id : Nat}
    (hactive : r.desk.active = some id) {path : Path} {text : String} (horigin : r.origin id = some (path, text)) :
    (∀ disk', r.desk.disk.write path (trimEndNewlines text) = .ok disk' →
      r.desk.save.1 = true ∧ r.desk.save.2.disk = disk' ∧ disk'.find? path = some (.file (trimEndNewlines text))) ∧
    (∀ e, r.desk.disk.write path (trimEndNewlines text) = .error e →
      r.desk.save.1 = false ∧ (r.desk.save.2.disk = r.desk.disk ∨
        r.desk.disk.Torn path (trimEndNewlines text) r.desk.save.2.disk)) ∧
    (trimEndNewlines text = text ↔ text.toList.getLast? ≠ some '\n') := by
  have hfresh : Reading.Kept { desk := fresh editor user disk } := ⟨fit_fresh editor user disk, nofun, nofun⟩
  have hkept : r.Kept := hrun ▸ hfresh.after hquiet
  obtain ⟨b, rfl, hb, hshown⟩ := exists_active hkept.fit.sound.present hactive
  obtain ⟨hpath, htext⟩ := hkept.text b.id (r.desk.mem_ids.2 ⟨b, hb⟩) path text horigin
  rw [path?, hb] at hpath
  have hsave : r.desk.save = r.desk.saveTo b path := by
    simp only [save, hshown, saveBuffer, show b.path = some path from hpath]
  rw [saveTo_eq, content_sent hb htext] at hsave
  refine ⟨?_, ?_, Text.trimEndNewlines_eq_self_iff text⟩
  · intro disk' hwrite
    rw [hwrite] at hsave
    rw [hsave]
    exact ⟨rfl, rfl, Files.Disk.find?_of_write hwrite⟩
  · intro e hwrite
    rw [hwrite] at hsave
    rw [hsave]
    exact ⟨rfl, Files.Disk.left_of_write hwrite⟩

/-- A file without a newline at its end, and one with a newline. -/
def twoFiles : Disk := (({} : Disk).addFile (.ofText "/a.ql") "x\ny").addFile (.ofText "/b.ql") "z\n"

/-- Both files are opened, each in a buffer of its own, and the first one is shown. -/
def bothOpened : List Act := [.openFile (.ofText "/a.ql"), .new "" none, .openFile (.ofText "/b.ql"), .select 0]

theorem bothOpened_saved : (∀ a ∈ bothOpened, a.quiet = true) ∧
    ∃ r : Reading, r = Reading.after { desk := fresh {} {} twoFiles } bothOpened ∧ r.desk.active = some 0 ∧
      r.origin 0 = some (.ofText "/a.ql", "x\ny") ∧ r.desk.save.1 = true ∧
      r.desk.save.2.disk.find? (.ofText "/a.ql") = some (.file "x\ny") := by
  have hquiet : ∀ a ∈ bothOpened, a.quiet = true := by simp [bothOpened, Act.quiet]
  have hactive : (Reading.after { desk := fresh {} {} twoFiles } bothOpened).desk.active = some 0 := by decide +kernel
  have horigin : (Reading.after { desk := fresh {} {} twoFiles } bothOpened).origin 0 =
      some (.ofText "/a.ql", "x\ny") := by decide +kernel
  obtain ⟨hok, herror, hsame⟩ := saved_unedited {} {} twoFiles hquiet rfl hactive horigin
  have hgo : (Reading.after { desk := fresh {} {} twoFiles } bothOpened).desk.save.1 = true := by decide +kernel
  refine ⟨hquiet, _, rfl, hactive, horigin, hgo, ?_⟩
  rw [hsame.2 (by decide)] at hok herror
  cases hwrite :
    (Reading.after { desk := fresh {} {} twoFiles } bothOpened).desk.disk.write (.ofText "/a.ql") "x\ny" with
  | ok disk =>
    obtain ⟨-, hdisk, hfound⟩ := hok disk hwrite
    rw [hdisk]
    exact hfound
  | error e =>
    rw [(herror e hwrite).1] at hgo
    cases hgo

/-- The file with a newline at its end loses it. -/
theorem bothOpened_cut :
    let r := Reading.after { desk := fresh {} {} twoFiles } (bothOpened ++ [.select 1])
    r.desk.active = some 1 ∧ r.origin 1 = some (.ofText "/b.ql", "z\n") ∧ r.desk.save.1 = true ∧
      r.desk.save.2.disk.read (.ofText "/b.ql") = .ok "z" := by
  decide +kernel

end Desk

end Workbench.Tabs
