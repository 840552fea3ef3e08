import Mathlib.Data.List.Nodup
import Workbench.Finder.Scan

/-!
# The files that a scan finds

A directory stops taking entries in once its own list has reached the limit, and takes in the list of a directory below
it as a whole. So a scan finds up to one file less than the limit for each level of directories, and one more
(`scan_bounded`). Where no more files than the limit are to be found, no directory stops before all of them have been
found, and the scan finds each of them once (`scan_complete`).
-/

open List

namespace Workbench.Files

/-- Induction on the entries of a directory. -/
@[elab_as_elim]
theorem Entry.induction {motive : List Entry → Prop} (nil : motive [])
    (file : ∀ name text es, motive es → motive (.file name text :: es))
    (dir : ∀ name inner es, motive inner → motive es → motive (.dir name inner :: es)) (es : List Entry) : motive es :=
  @Entry.rec_1 (fun e => ∀ es, motive es → motive (e :: es)) motive file
    (fun name inner hinner es => dir name inner es hinner) nil (fun _ es he => he es) es

mutual

/-- No directory within the entry has two entries of one name. -/
def Entry.tidy : Entry → Bool
  | .file .. => true
  | .dir _ inner => tidyAll inner
termination_by structural e => e

/-- No directory has two entries of one name. -/
def tidyAll : List Entry → Bool
  | [] => true
  | e :: es => !(es.map Entry.name).contains e.name && (e.tidy && tidyAll es)
termination_by structural es => es

end

theorem tidyAll_cons {e : Entry} {es : List Entry} :
    tidyAll (e :: es) = true ↔ e.name ∉ es.map Entry.name ∧ e.tidy = true ∧ tidyAll es = true := by
  rw [tidyAll, Bool.and_eq_true, Bool.and_eq_true, Bool.not_eq_true', contains_eq_mem, decide_eq_false_iff_not]

/-- The path of what lies along the parts below a directory. -/
def Path.below (p : Path) (parts : List String) : Path := { p with parts := p.parts ++ parts }

theorem Path.below_nil (p : Path) : p.below [] = p := by rw [below, append_nil]

theorem Path.child_below (p : Path) (name : String) (parts : List String) :
    (p.child name).below parts = p.below (name :: parts) := by
  rw [below, below, child, append_assoc, singleton_append]

theorem Path.below_injective (p : Path) : Function.Injective p.below := fun _ _ h =>
  append_cancel_left (congrArg Path.parts h)

end Workbench.Files

namespace Workbench.Finder

open Files

variable {es : List Entry} {above : Path} {open_ : Path → Bool} {found : List Path}

/-! ### How many files are found -/

mutual

def levelsOf : Entry → Nat
  | .file .. => 0
  | .dir n inner => if isPassed n then 0 else levels inner + 1
termination_by structural e => e

/-- The number of levels of directories below a directory, without those that are passed over. -/
def levels : List Entry → Nat
  | [] => 0
  | e :: es => max (levelsOf e) (levels es)
termination_by structural es => es

end

/-- The most files that are found in a directory with `h` levels of directories below it. -/
def most (h : Nat) : Nat := (fileLimit - 1) * (h + 1) + 1

theorem most_succ (h : Nat) : most (h + 1) = fileLimit - 1 + most h := by
  unfold most
  rw [Nat.mul_succ _ (h + 1)]
  omega

theorem limit_le_most (h : Nat) : fileLimit ≤ most h := by
  unfold most
  rw [Nat.mul_succ]
  omega

theorem length_scanEntries {h : Nat} (hes : levels es ≤ h) (hfound : found.length ≤ most h) :
    (scanEntries open_ above found es).length ≤ most h := by
  induction es using Entry.induction generalizing above found h with
  | nil => rwa [scanEntries]
  | file n text es ih =>
    rw [levels, Nat.max_le] at hes
    rw [scanEntries]
    split
    · exact hfound
    · refine ih hes.2 ?_
      have := limit_le_most h
      rw [length_append, scanEntry]
      split <;> simp only [length_singleton, length_nil] <;> omega
  | dir n inner es ihinner ih =>
    rw [levels, Nat.max_le, levelsOf] at hes
    rw [scanEntries]
    split
    · exact hfound
    · refine ih hes.2 ?_
      rw [length_append, scanEntry]
      split
      · exact hfound
      · rename_i hn
        rw [if_neg hn] at hes
        split
        · obtain ⟨k, rfl⟩ := Nat.exists_eq_add_one_of_ne_zero (Nat.ne_zero_of_lt hes.1)
          have hinner : (scanEntries open_ (above.child n) [] inner).length ≤ most k :=
            ihinner (Nat.le_of_succ_le_succ hes.1) (Nat.zero_le _)
          have := most_succ k
          omega
        · exact hfound

/-! ### Trees in which as many files are found -/

/-- Names with a known ending, all of different lengths. -/
def longName (k : Nat) : String := String.ofList (List.replicate (k + 1) 'a' ++ ['.', 'q', 'l'])

theorem length_longName (k : Nat) : (longName k).length = k + 4 := by
  rw [longName, String.length_ofList, length_append, length_replicate]
  rfl

theorem isShown_longName (k : Nat) : isShown (longName k) = true := by
  have hending : Path.endingOf (longName k) = ".ql" := by
    have hchars : (longName k).toList = replicate (k + 1) 'a' ++ ['.', 'q', 'l'] := String.toList_ofList
    simp [Path.endingOf, hchars, length_longName]
  rw [isShown, hending]
  decide +kernel

/-- Files and then the rest. -/
def filesThen : Nat → List Entry → List Entry
  | 0, rest => rest
  | n + 1, rest => .file (longName n) "" :: filesThen n rest

def tower : Nat → List Entry
  | 0 => filesThen fileLimit []
  | h + 1 => filesThen (fileLimit - 1) [.dir "sub" (tower h)]

theorem scanEntries_filesThen (open_ : Path → Bool) (above : Path) (rest : List Entry) {n : Nat} (found : List Path)
    (h : found.length + n ≤ fileLimit) : ∃ found', found'.length = found.length + n ∧
      scanEntries open_ above found (filesThen n rest) = scanEntries open_ above found' rest := by
  induction n generalizing found with
  | zero => exact ⟨found, rfl, rfl⟩
  | succ n ih =>
    obtain ⟨found', hlength, heq⟩ := ih (found ++ [above.child (longName n)]) (by simp; omega)
    refine ⟨found', by simp at hlength; omega, ?_⟩
    rw [filesThen, scanEntries, if_neg (by omega), scanEntry, if_pos (isShown_longName n), heq]

theorem length_scanEntries_tower (hopen : ∀ p, open_ p = true) (h : Nat) (above : Path) :
    (scanEntries open_ above [] (tower h)).length = most h := by
  induction h generalizing above with
  | zero =>
    obtain ⟨found, hlength, heq⟩ := scanEntries_filesThen open_ above [] [] (n := fileLimit) (by simp)
    rw [tower, heq, scanEntries, hlength]
    rfl
  | succ h ih =>
    obtain ⟨found, hlength, heq⟩ := scanEntries_filesThen open_ above [.dir "sub" (tower h)] []
      (n := fileLimit - 1) (by decide)
    have hsub : isPassed "sub" = false := by decide +kernel
    rw [tower, heq, scanEntries, if_neg (by rw [hlength]; decide), scanEntry, if_neg (by simp [hsub]), if_pos (hopen _),
      scanEntries, length_append, ih, most_succ, hlength]
    rfl

theorem levels_tower (h : Nat) : levels (tower h) = h := by
  have hfiles : ∀ n rest, levels (filesThen n rest) = levels rest := by
    intro n rest
    induction n with
    | zero => rfl
    | succ n ih => rw [filesThen, levels, levelsOf, ih, Nat.zero_max]
  induction h with
  | zero => rw [tower, hfiles, levels]
  | succ h ih =>
    have hsub : isPassed "sub" = false := by decide +kernel
    rw [tower, hfiles, levels, levelsOf, levels, if_neg (by simp [hsub]), ih, Nat.max_zero]

theorem tidy_filesThen {rest : List Entry} (hrest : tidyAll rest = true) (hnames : ∀ e ∈ rest, e.name.length ≤ 3)
    (n : Nat) : tidyAll (filesThen n rest) = true ∧ ∀ e ∈ filesThen n rest, e.name.length ≤ n + 3 := by
  induction n with
  | zero => exact ⟨hrest, hnames⟩
  | succ n ih =>
    obtain ⟨htidy, hshort⟩ := ih
    have hnew : longName n ∉ (filesThen n rest).map Entry.name := by
      intro hmem
      obtain ⟨e, he, hname⟩ := mem_map.1 hmem
      have := hshort e he
      rw [hname, length_longName] at this
      omega
    rw [filesThen, tidyAll_cons]
    refine ⟨⟨hnew, rfl, htidy⟩, forall_mem_cons.2 ⟨?_, fun e he => Nat.le_succ_of_le (hshort e he)⟩⟩
    exact Nat.le_of_eq (length_longName n)

theorem tidy_tower (h : Nat) : tidyAll (tower h) = true := by
  induction h with
  | zero => exact (tidy_filesThen rfl (by simp) _).1
  | succ h ih =>
    have hsub : ∀ e ∈ [Entry.dir "sub" (tower h)], e.name.length ≤ 3 :=
      forall_mem_singleton.2 (show "sub".length ≤ 3 by decide +kernel)
    have htidy : tidyAll [Entry.dir "sub" (tower h)] = true := tidyAll_cons.2 ⟨not_mem_nil, ih, rfl⟩
    exact (tidy_filesThen htidy hsub _).1

theorem scan_of_find? {d : Disk} {root : Path} (h : d.find? root = some (.dir es)) :
    scan d root = .ok (if d.denies root then [] else scanEntries (fun p => !d.denies p) root [] es) := by
  cases hdenied : d.denies root <;> simp [scan, Disk.list, h, hdenied]

theorem exists_scan_tower (h : Nat) :
    ∃ files, scan { entries := tower h } ⟨.slash, []⟩ = .ok files ∧ files.length = most h :=
  ⟨_, scan_of_find? rfl, length_scanEntries_tower (fun _ => rfl) h _⟩

/-- A scan of a directory finds at most one file less than the limit for each level of directories, and one more, and
there is a tree with as many levels in which it finds as many. -/
theorem scan_bounded {d : Disk} {root : Path} {es : List Entry} (hroot : d.find? root = some (.dir es)) :
    (∃ files, scan d root = .ok files ∧ files.length ≤ (fileLimit - 1) * (levels es + 1) + 1) ∧
    ∃ (d' : Disk) (root' : Path) (es' : List Entry) (files : List Path), tidyAll d'.entries = true ∧
      d'.find? root' = some (.dir es') ∧ levels es' = levels es ∧ scan d' root' = .ok files ∧
      files.length = (fileLimit - 1) * (levels es + 1) + 1 := by
  constructor
  · refine ⟨_, scan_of_find? hroot, ?_⟩
    split
    · exact Nat.zero_le _
    · exact length_scanEntries (Nat.le_refl _) (Nat.zero_le _)
  · obtain ⟨files, hscan, hlength⟩ := exists_scan_tower (levels es)
    exact ⟨_, _, _, files, tidy_tower _, rfl, levels_tower _, hscan, hlength⟩

theorem tower_bounded : ({ entries := tower 1 } : Disk).find? ⟨.slash, []⟩ = some (.dir (tower 1)) ∧
    ∃ files, scan { entries := tower 1 } ⟨.slash, []⟩ = .ok files ∧ files.length ≤ 1999 := by
  obtain ⟨⟨files, hscan, hlength⟩, -⟩ := @scan_bounded { entries := tower 1 } ⟨.slash, []⟩ (tower 1) rfl
  rw [levels_tower] at hlength
  exact ⟨rfl, files, hscan, hlength⟩

/-- In a directory with one file less than the limit and a directory with as many files as the limit, more files than
the limit are found. -/
theorem tower_past_limit : tidyAll (tower 1) = true ∧
    ∃ files, scan { entries := tower 1 } ⟨.slash, []⟩ = .ok files ∧ fileLimit < files.length := by
  obtain ⟨files, hscan, hlength⟩ := exists_scan_tower 1
  exact ⟨tidy_tower 1, files, hscan, hlength ▸ (by decide)⟩

/-! ### Which files are found -/

/-- The file along the names below a directory qualifies: its name has one of the known endings, and no directory on the
way to it is hidden or holds what tools have made. -/
inductive Qualifies : List Entry → List String → Prop
  | file {es : List Entry} {n text : String} (h : .file n text ∈ es) (hn : isShown n = true) : Qualifies es [n]
  | inside {es inner : List Entry} {n : String} {ns : List String} (h : .dir n inner ∈ es) (hn : isPassed n = false)
      (hns : Qualifies inner ns) : Qualifies es (n :: ns)

mutual

/-- The qualifying files of an entry, each by the names that lead to it. -/
def shownOf : Entry → List (List String)
  | .file n _ => if isShown n then [[n]] else []
  | .dir n inner => if isPassed n then [] else (shownFiles inner).map (n :: ·)
termination_by structural e => e

def shownFiles : List Entry → List (List String)
  | [] => []
  | e :: es => shownOf e ++ shownFiles es
termination_by structural es => es

end

section Shown

variable {e : Entry} {n : String} {ns : List String}

theorem Qualifies.mono {es' : List Entry} (h : Qualifies es ns) (hsub : es ⊆ es') : Qualifies es' ns := by
  cases h with
  | file hmem hn => exact .file (hsub hmem) hn
  | inside hmem hn hns => exact .inside (hsub hmem) hn hns

theorem Qualifies.exists_name (h : Qualifies es ns) : ∃ e ∈ es, ns.head? = some e.name := by
  cases h with
  | file hmem _ => exact ⟨_, hmem, rfl⟩
  | inside hmem _ _ => exact ⟨_, hmem, rfl⟩

theorem qualifies_cons : Qualifies (e :: es) ns ↔ Qualifies [e] ns ∨ Qualifies es ns := by
  constructor
  · intro h
    cases h with
    | file hmem hn =>
      rcases mem_cons.1 hmem with rfl | hmem
      · exact .inl (.file mem_cons_self hn)
      · exact .inr (.file hmem hn)
    | inside hmem hn hns =>
      rcases mem_cons.1 hmem with rfl | hmem
      · exact .inl (.inside mem_cons_self hn hns)
      · exact .inr (.inside hmem hn hns)
  · rintro (h | h)
    · exact h.mono (cons_subset_cons e (nil_subset es))
    · exact h.mono (subset_cons_self e es)

/-- The files that are shown are those that qualify. -/
theorem mem_shownFiles : ns ∈ shownFiles es ↔ Qualifies es ns := by
  induction es using Entry.induction generalizing ns with
  | nil =>
    refine ⟨fun h => (not_mem_nil h).elim, fun h => ?_⟩
    obtain ⟨e, he, -⟩ := h.exists_name
    cases he
  | file n text es ih =>
    rw [qualifies_cons, shownFiles, mem_append, ih, shownOf]
    refine or_congr_left ⟨fun h => ?_, fun h => ?_⟩
    · split at h
      · obtain rfl := mem_singleton.1 h
        exact .file mem_cons_self ‹_›
      · cases h
    · cases h with
      | file hmem hn =>
        cases mem_singleton.1 hmem
        rw [if_pos hn]
        exact mem_cons_self
      | inside hmem _ _ => cases mem_singleton.1 hmem
  | dir n inner es ihinner ih =>
    rw [qualifies_cons, shownFiles, mem_append, ih, shownOf]
    refine or_congr_left ⟨fun h => ?_, fun h => ?_⟩
    · split at h
      · cases h
      · rename_i hn
        obtain ⟨ms, hms, rfl⟩ := mem_map.1 h
        exact .inside mem_cons_self (Bool.not_eq_true _ ▸ hn) (ihinner.1 hms)
    · cases h with
      | file hmem _ => cases mem_singleton.1 hmem
      | inside hmem hn hns =>
        cases mem_singleton.1 hmem
        rw [if_neg (by simp [hn])]
        exact mem_map_of_mem (ihinner.2 hns)

/-- Files of different entries differ in the first name. -/
theorem nodup_shownFiles (htidy : tidyAll es = true) : (shownFiles es).Nodup := by
  have happend : ∀ {e : Entry} {es : List Entry}, e.name ∉ es.map Entry.name → (shownOf e).Nodup →
      (shownFiles es).Nodup → (shownFiles (e :: es)).Nodup := by
    intro e es hname he hes
    rw [shownFiles, nodup_append]
    refine ⟨he, hes, ?_⟩
    rintro ns hns _ hns' rfl
    have hone : ns ∈ shownFiles [e] := by rwa [shownFiles, shownFiles, append_nil]
    obtain ⟨e', he', hhead⟩ := (mem_shownFiles.1 hone).exists_name
    obtain ⟨x, hx, hhead'⟩ := (mem_shownFiles.1 hns').exists_name
    rw [mem_singleton.1 he'] at hhead
    rw [Option.some.inj (hhead.symm.trans hhead')] at hname
    exact hname (mem_map_of_mem hx)
  induction es using Entry.induction with
  | nil => exact nodup_nil
  | file n text es ih =>
    obtain ⟨hname, -, htidy⟩ := tidyAll_cons.1 htidy
    refine happend hname ?_ (ih htidy)
    rw [shownOf]
    split <;> simp
  | dir n inner es ihinner ih =>
    obtain ⟨hname, hinner, htidy⟩ := tidyAll_cons.1 htidy
    refine happend hname ?_ (ih htidy)
    rw [shownOf]
    split
    · exact nodup_nil
    · exact List.Nodup.map cons_injective (ihinner hinner)

end Shown

theorem scanEntries_cons {e : Entry} (he : scanEntry open_ above e = (shownOf e).map above.below)
    (hes : ∀ found, found.length + (shownFiles es).length ≤ fileLimit →
      scanEntries open_ above found es = found ++ (shownFiles es).map above.below)
    (hcount : found.length + (shownFiles (e :: es)).length ≤ fileLimit) :
    scanEntries open_ above found (e :: es) = found ++ (shownFiles (e :: es)).map above.below := by
  rw [shownFiles, length_append] at *
  rw [scanEntries]
  split
  · -- The limit is reached, so there is nothing left to be found.
    have hnil : shownOf e ++ shownFiles es = [] := by
      rw [← length_eq_zero_iff, length_append]
      omega
    rw [hnil, map_nil, append_nil]
  · rw [he, hes _ (by rw [length_append, length_map]; omega), append_assoc, map_append]

/-- No directory that a scan may come to below `above` is closed. -/
def Listable (open_ : Path → Bool) (above : Path) : Prop :=
  ∀ ns : List String, (∀ n ∈ ns, isPassed n = false) → open_ (above.below ns) = true

/-- If there are no more files than the limit, all of them are found. -/
theorem scanEntries_eq (hopen : Listable open_ above)
    (hcount : found.length + (shownFiles es).length ≤ fileLimit) :
    scanEntries open_ above found es = found ++ (shownFiles es).map above.below := by
  induction es using Entry.induction generalizing above found with
  | nil => rw [scanEntries, shownFiles, map_nil, append_nil]
  | file n text es ih =>
    refine scanEntries_cons ?_ (fun _ => ih hopen) hcount
    rw [scanEntry, shownOf]
    split <;> rfl
  | dir n inner es ihinner ih =>
    refine scanEntries_cons ?_ (fun _ => ih hopen) hcount
    rw [shownFiles, shownOf, length_append] at hcount
    rw [scanEntry, shownOf]
    split
    · rfl
    · rename_i hn
      rw [if_neg hn, length_map] at hcount
      have hinner : Listable open_ (above.child n) := by
        intro ns hns
        rw [Path.child_below]
        exact hopen _ (forall_mem_cons.2 ⟨Bool.not_eq_true _ ▸ hn, hns⟩)
      have hlisted : open_ (above.child n) = true := by
        rw [← Path.below_nil (above.child n)]
        exact hinner [] (by simp)
      rw [if_pos hlisted, ihinner hinner (by rw [length_nil]; omega), nil_append, map_map]
      exact map_congr_left fun ns _ => Path.child_below above n ns

/-- If no more files qualify than the limit and nothing is denied, a scan finds each qualifying file once and nothing
else, in whatever order the entries of the directories come. -/
theorem scan_complete {d : Disk} {root : Path} {es : List Entry} (hroot : d.find? root = some (.dir es))
    (htidy : tidyAll es = true)
    (hopen : ∀ ns : List String, (∀ n ∈ ns, isPassed n = false) → d.denies (root.below ns) = false)
    (hcount : ∀ files : List (List String), files.Nodup → (∀ ns ∈ files, Qualifies es ns) →
      files.length ≤ fileLimit) :
    ∃ files, scan d root = .ok files ∧ files.Nodup ∧ ∀ p, p ∈ files ↔ ∃ ns, Qualifies es ns ∧ root.below ns = p := by
  have hnodup : (shownFiles es).Nodup := nodup_shownFiles htidy
  have hlength : ([] : List Path).length + (shownFiles es).length ≤ fileLimit := by
    rw [List.length_nil, Nat.zero_add]
    exact hcount _ hnodup fun ns => mem_shownFiles.1
  have hlistable : Listable (fun p => !d.denies p) root := fun ns hns => by
    simp only [hopen ns hns, Bool.not_false]
  have hallowed : d.denies root = false := by
    rw [← Path.below_nil root]
    exact hopen [] (by simp)
  refine ⟨(shownFiles es).map root.below, ?_, List.Nodup.map root.below_injective hnodup, fun p => ?_⟩
  · rw [scan_of_find? hroot, hallowed, scanEntries_eq hlistable hlength]
    rfl
  · simp only [List.mem_map, mem_shownFiles]

/-- A directory with files at two levels, a hidden directory and a file of another kind. -/
def mixedEntries : List Entry :=
  [.file "b.txt" "", .dir ".git" [.file "c.ql" ""], .dir "a" [.file "Main.QL" ""], .file "d.bin" ""]

theorem mixedEntries_scanned : tidyAll mixedEntries = true ∧
    ∃ files, scan { entries := [.dir "w" mixedEntries] } ⟨.slash, ["w"]⟩ = .ok files ∧ files.Nodup ∧
      ∀ p, p ∈ files ↔ ∃ ns, Qualifies mixedEntries ns ∧ Path.below ⟨.slash, ["w"]⟩ ns = p := by
  have htidy : tidyAll mixedEntries = true := by decide +kernel
  refine ⟨htidy, scan_complete rfl htidy (fun _ _ => rfl) fun files hnodup hfiles => ?_⟩
  have hlength : (shownFiles mixedEntries).length = 2 := by decide +kernel
  have hle := hnodup.length_le_of_subset fun ns hns => mem_shownFiles.2 (hfiles ns hns)
  exact Nat.le_trans (hlength ▸ hle) (by decide)

end Workbench.Finder
