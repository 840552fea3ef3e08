import Workbench.Finder.Dialog
import Workbench.Proofs.Syntax

/-!
# The selection in the finder

The finder shows the files that match the search text, sorted, and one of them is selected. The list changes with the
search text, and then its first file is selected; all else moves the selection within the list. When nothing matches,
the selection is left where it is and means nothing until something matches again. So after any events the selected file
is one of those that are shown (`selection_consistent`).
-/

open List

namespace Workbench.Finder

open Files (Path Disk)

variable {query : String} {files : List Path} {disk : Disk} {d : Dialog}

/-! ### The files that are shown -/

/-- Sorting leaves the order of what belongs to one rank as it is. -/
theorem filter_mergeSort {α : Type} {le : α → α → Bool} {p : α → Bool} (trans : ∀ a b c, le a b → le b c → le a c)
    (total : ∀ a b, le a b || le b a) (hp : ∀ a b, p a → p b → le a b) (l : List α) :
    (l.mergeSort le).filter p = l.filter p := by
  have hsorted : (l.filter p).Pairwise fun a b => le a b :=
    List.Pairwise.imp_of_mem (fun ha hb _ => hp _ _ (mem_filter.1 ha).2 (mem_filter.1 hb).2)
      (pairwise_of_forall fun _ _ => trivial)
  have hsub := (sublist_mergeSort trans total hsorted filter_sublist).filter p
  simp only [filter_filter, Bool.and_self] at hsub
  exact (hsub.eq_of_length ((mergeSort_perm l le).filter p).length_eq.symm).symm

/-- A file with its score, if its name matches. -/
def hit? (query : String) (p : Path) : Option Match :=
  match fuzzyMatch query p.name with
  | .ok ⟨true, n⟩ => some ⟨p, n⟩
  | _ => none

theorem hit?_eq_some {p : Path} {m : Match} :
    hit? query p = some m ↔ m.path = p ∧ fuzzyMatch query p.name = .ok ⟨true, m.points⟩ := by
  unfold hit?
  split
  · rename_i n hn
    rw [hn]
    obtain ⟨q, k⟩ := m
    simp [eq_comm]
  · rename_i hno
    exact ⟨fun h => absurd h (by simp), fun h => absurd h.2 (hno _)⟩

/-- Whether a file comes before another: by name if nothing is searched for, else by score. Files of one rank come
before each other. -/
def ranks (query : String) (a b : Match) : Bool :=
  if query = "" then !(Text.lower b.path.name < Text.lower a.path.name) else b.points ≤ a.points

theorem ranks_trans (a b c : Match) (hab : ranks query a b) (hbc : ranks query b c) : ranks query a c := by
  by_cases hquery : query = ""
  · simp only [ranks, if_pos hquery, Bool.not_eq_true', decide_eq_false_iff_not] at *
    exact String.le_trans hab hbc
  · simp only [ranks, if_neg hquery, decide_eq_true_eq] at *
    omega

theorem ranks_total (a b : Match) : ranks query a b || ranks query b a := by
  by_cases hquery : query = ""
  · simp only [ranks, if_pos hquery, Bool.or_eq_true, Bool.not_eq_true', decide_eq_false_iff_not]
    exact String.le_total ..
  · simp only [ranks, if_neg hquery, Bool.or_eq_true, decide_eq_true_eq]
    omega

/-- The list holds the files that match, each as often as it was found, in their order; files of one rank are in the
order in which they were found. -/
structure Shows (query : String) (files : List Path) (ms : List Match) : Prop where
  perm : ms.Perm (files.filterMap (hit? query))
  ordered : ms.Pairwise fun a b => ranks query a b
  stable : ∀ m, (ms.filter fun a => ranks query a m && ranks query m a) =
    (files.filterMap (hit? query)).filter fun a => ranks query a m && ranks query m a

theorem matching_eq (h : ∀ p ∈ files, ∃ s, fuzzyMatch query p.name = .ok s) :
    matching query files = .ok (files.filterMap (hit? query)) := by
  induction files with
  | nil => rfl
  | cons p ps ih =>
    obtain ⟨⟨found, n⟩, hs⟩ := h p (by simp)
    rw [matching, hs, ih fun q hq => h q (by simp [hq]), filterMap_cons, hit?, hs]
    cases found <;> rfl

theorem filterFiles_shows {search : String} (h : ∀ p ∈ files, ∃ s, fuzzyMatch (Text.trim search) p.name = .ok s) :
    ∃ ms, filterFiles search files = .ok ms ∧ Shows (Text.trim search) files ms := by
  have hsorted : filterFiles search files =
      .ok ((files.filterMap (hit? (Text.trim search))).mergeSort (ranks (Text.trim search))) := by
    by_cases hempty : Text.trim search = ""
    · have hhit : hit? "" = fun p => some ⟨p, 0⟩ := rfl
      rw [filterFiles, if_pos (String.isEmpty_iff.2 hempty), byName, hempty, hhit, filterMap_eq_map']
      refine congrArg Except.ok (map_mergeSort fun a _ b _ => ?_)
      rfl
    · have hranks : ranks (Text.trim search) = fun a b => decide (b.points ≤ a.points) := by
        funext a b
        exact if_neg hempty
      rw [filterFiles, if_neg (mt String.isEmpty_iff.1 hempty), matching_eq h, hranks]
      rfl
  refine ⟨_, hsorted, mergeSort_perm _ _, pairwise_mergeSort ranks_trans ranks_total _, fun m => ?_⟩
  refine filter_mergeSort ranks_trans ranks_total (fun a b ha hb => ?_) _
  rw [Bool.and_eq_true] at ha hb
  exact ranks_trans a m b ha.1 hb.2

/-! ### Events -/

/-- What happens in the window. -/
inductive Event where
  | search (text : String)
  | up
  | down
  | click (line : Option Int)

namespace Dialog

/-- What follows an event, with the disk as it is then. -/
def handle (d : Dialog) (disk : Disk) : Event → Except FuzzyError Dialog
  | .search text => d.search disk text
  | .up => .ok (d.up disk)
  | .down => .ok (d.down disk)
  | .click line => .ok (d.click disk line)

def handleAll (d : Dialog) : List (Disk × Event) → Except FuzzyError Dialog
  | [] => .ok d
  | (disk, e) :: events => do (← d.handle disk e).handleAll events

/-- The list is that of the search text, its start is on the screen, and the selection is within it. -/
structure Consistent (files : List Path) (d : Dialog) : Prop where
  scanned : d.files = files
  shown : Shows (Text.trim d.query) files d.filtered
  listed : d.listed.length ≤ d.filtered.length
  inside : d.filtered ≠ [] → 0 ≤ d.selected ∧ d.selected < d.filtered.length

theorem showSelected_eq (disk : Disk) (d : Dialog) :
    ∃ preview tagged, d.showSelected disk = { d with preview := preview, tagged := tagged } := by
  unfold showSelected
  split
  · exact ⟨_, _, rfl⟩
  · split <;> exact ⟨_, _, rfl⟩

theorem Consistent.select (hd : d.Consistent files) {k : Int} (hk : d.filtered ≠ [] → 0 ≤ k ∧ k < d.filtered.length) :
    (d.select disk k).Consistent files := by
  obtain ⟨preview, tagged, heq⟩ := showSelected_eq disk { d with selected := k, marked := d.markOn k }
  rw [Dialog.select, heq]
  exact ⟨hd.scanned, hd.shown, hd.listed, hk⟩

theorem Consistent.untagged (hd : d.Consistent files) : { d with tagged := 0 }.Consistent files :=
  ⟨hd.scanned, hd.shown, hd.listed, hd.inside⟩

theorem refilter_consistent (disk : Disk) (hfiles : d.files = files)
    (h : ∀ p ∈ files, ∃ s, fuzzyMatch (Text.trim d.query) p.name = .ok s) :
    ∃ d', d.refilter disk = .ok d' ∧ d'.Consistent files := by
  subst hfiles
  obtain ⟨ms, hms, hshows⟩ := filterFiles_shows h
  have hlisted : ((ms.take listLimit).map fun m => listedAs d.root m.path).length ≤ ms.length := by
    rw [length_map, length_take]
    exact Nat.min_le_right ..
  unfold refilter
  rw [hms]
  cases ms with
  | nil => exact ⟨_, rfl, ⟨rfl, hshows, hlisted, absurd rfl⟩⟩
  | cons m ms =>
    refine ⟨_, rfl, ?_⟩
    obtain ⟨preview, tagged, heq⟩ := showSelected_eq disk { d with
      filtered := m :: ms
      listed := ((m :: ms).take listLimit).map fun m => listedAs d.root m.path
      marked := some 0
      selected := 0 }
    exact heq ▸ ⟨rfl, hshows, hlisted, fun _ => ⟨Int.le_refl 0, Int.natCast_pos.2 (Nat.succ_pos _)⟩⟩

/-- Every event leaves the dialog consistent. -/
theorem handle_consistent (disk : Disk) (hd : d.Consistent files) {e : Event}
    (h : ∀ text, e = .search text → ∀ p ∈ files, ∃ s, fuzzyMatch (Text.trim text) p.name = .ok s) :
    ∃ d', d.handle disk e = .ok d' ∧ d'.Consistent files := by
  cases e with
  | search text =>
    exact refilter_consistent disk hd.scanned (h text rfl)
  | up =>
    refine ⟨_, rfl, ?_⟩
    unfold up
    split
    · refine hd.select fun hne => ?_
      have := hd.inside hne
      omega
    · exact hd.untagged
  | down =>
    refine ⟨_, rfl, ?_⟩
    unfold down
    split
    · refine hd.select fun hne => ?_
      have := hd.inside hne
      omega
    · exact hd.untagged
  | click line =>
    refine ⟨_, rfl, ?_⟩
    unfold click
    split
    · rename_i n hn
      obtain ⟨k, -, hk⟩ := Option.bind_eq_some_iff.1 hn
      have hlisted := hd.listed
      refine hd.select fun _ => ?_
      unfold markOn at hk
      split at hk
      · cases hk
        rename_i hin
        simp only [Bool.and_eq_true, decide_eq_true_eq] at hin
        omega
      · cases hk
    · exact ⟨hd.scanned, hd.shown, hd.listed, hd.inside⟩

theorem handleAll_consistent (hd : d.Consistent files) {events : List (Disk × Event)}
    (h : ∀ e ∈ events, ∀ text, e.2 = .search text → ∀ p ∈ files, ∃ s, fuzzyMatch (Text.trim text) p.name = .ok s) :
    ∃ d', d.handleAll events = .ok d' ∧ d'.Consistent files := by
  induction events generalizing d with
  | nil => exact ⟨d, rfl, hd⟩
  | cons e events ih =>
    obtain ⟨d', hd', hconsistent⟩ := handle_consistent e.1 hd (h e (by simp))
    obtain ⟨d'', hd'', hlast⟩ := ih hconsistent fun e he => h e (by simp [he])
    exact ⟨d'', by rw [handleAll, hd']; exact hd'', hlast⟩

theorem Consistent.selectedFile? (hd : d.Consistent files) (hne : d.filtered ≠ []) :
    ∃ m, d.filtered[d.selected.toNat]? = some m ∧ d.selectedFile? = some m.path := by
  obtain ⟨hle, hlt⟩ := hd.inside hne
  have hget := getElem?_eq_getElem (show d.selected.toNat < d.filtered.length by omega)
  refine ⟨_, hget, ?_⟩
  unfold Dialog.selectedFile?
  simp only [if_neg (show ¬ d.selected < -d.filtered.length by omega), if_neg (show ¬ d.selected < 0 by omega),
    hget, Option.map_some]

end Dialog

/-- The list is that of the search text; and if it is not empty, the selection is within it and the key for opening a
file opens the selected one, which matches. -/
structure Dialog.Sound (files : List Path) (d : Dialog) : Prop where
  shown : Shows (Text.trim d.query) files d.filtered
  opens : d.filtered ≠ [] → 0 ≤ d.selected ∧ d.selected < d.filtered.length ∧
    ∃ m, d.filtered[d.selected.toNat]? = some m ∧ m.path ∈ files ∧
      fuzzyMatch (Text.trim d.query) m.path.name = .ok ⟨true, m.points⟩ ∧
      d.enter.chosen = d.chosen ++ [m.path] ∧ d.enter.isOpen = false

/-- After any events for whose search texts the matching does not fail. -/
theorem selection_consistent {root : Path} {events : List (Disk × Event)} (hscan : scan disk root = .ok files)
    (h : ∀ e ∈ events, ∀ text, e.2 = .search text → ∀ p ∈ files, ∃ s, fuzzyMatch (Text.trim text) p.name = .ok s) :
    ∃ d d', openDialog disk root = .ok d ∧ d.handleAll events = .ok d' ∧ d'.Sound files := by
  obtain ⟨d, hd, hconsistent⟩ := Dialog.refilter_consistent disk
    (d := { root := root, files := files }) rfl fun p _ => ⟨⟨true, 0⟩, rfl⟩
  obtain ⟨d', hd', hlast⟩ := Dialog.handleAll_consistent (d := { d with
    status := s!"{files.length} files indexed from {root.text}" })
    ⟨hconsistent.scanned, hconsistent.shown, hconsistent.listed, hconsistent.inside⟩ h
  refine ⟨_, d', ?_, hd', hlast.shown, fun hne => ⟨(hlast.inside hne).1, (hlast.inside hne).2, ?_⟩⟩
  · exact bind_eq_ok.2 ⟨files, by rw [hscan]; rfl, bind_eq_ok.2 ⟨d, by rw [hd]; rfl, rfl⟩⟩
  · obtain ⟨m, hm, hselected⟩ := hlast.selectedFile? hne
    obtain ⟨p, hp, hhit⟩ := List.mem_filterMap.1 (hlast.shown.perm.mem_iff.1 (List.mem_of_getElem? hm))
    obtain ⟨rfl, hmatch⟩ := hit?_eq_some.1 hhit
    exact ⟨m, hm, hp, hmatch, by rw [Dialog.enter, hselected]; exact ⟨rfl, rfl⟩⟩

/-- The selection is moved, nothing matches for a while, and the selection is moved again. -/
def passing : List (Disk × Event) :=
  [({}, .search "ma"), ({}, .down), ({}, .search "zz"), ({}, .up), ({}, .search " Ma "), ({}, .click (some 1))]

theorem passing_sound : ∃ d d', openDialog { entries := [.file "main.ql" "", .file "sum_a.txt" ""] } ⟨.slash, []⟩ = .ok d ∧
    d.handleAll passing = .ok d' ∧ d'.Sound [⟨.slash, ["main.ql"]⟩, ⟨.slash, ["sum_a.txt"]⟩] := by
  have hmatch : ∀ text ∈ ["ma", "zz", " Ma "], ∀ name ∈ ["main.ql", "sum_a.txt"],
      ((fuzzyMatch (Text.trim text) name).toOption).isSome = true := by decide +kernel
  refine selection_consistent (by decide +kernel) fun e he text htext p hp => ?_
  have hname : p.name ∈ ["main.ql", "sum_a.txt"] := by
    simp only [List.mem_cons, List.not_mem_nil, or_false] at hp
    rcases hp with rfl | rfl <;> decide
  have hsearched : text ∈ ["ma", "zz", " Ma "] := by
    simp only [passing, List.mem_cons, List.not_mem_nil, or_false] at he
    rcases he with rfl | rfl | rfl | rfl | rfl | rfl <;> cases htext <;> decide
  obtain ⟨s, hs⟩ := Option.isSome_iff_exists.1 (hmatch text hsearched p.name hname)
  cases hok : fuzzyMatch (Text.trim text) p.name with
  | ok s => exact ⟨s, rfl⟩
  | error e =>
    rw [hok] at hs
    cases hs

end Workbench.Finder
