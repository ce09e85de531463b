import Mathlib.Data.List.Nodup
import Runbook.Proofs.SavedApart

/-!
# What work leaves on a disk

Making folders adds folders, writing puts one file, and taking a folder away takes what lies in it.
Each of them says what lies at every place afterwards, and leaves a disk as it should be.

* `OnDisk.Keeps`: a property of the disk that some work keeps, refused or not
* `Disk.makeFoldersFrom_cases`, `Disk.removeAll_cases`: all that such work can do
* `Disk.at?_makeFolders`, `Disk.at?_write`, `Disk.at?_removeAll_inside`: what lies where afterwards
* `Disk.fits`, `Disk.find?_append`: a path that is not too long shows what lies where it leads
* `Disk.text?`, `Disk.text?_write`, `Disk.text?_removeAll`: the text of the file at a place
* `Disk.IsSound`: folders lie in folders, and each place is taken once
* `Disk.list_spec`: what is listed for a folder
* `Disk.keeps_makeFolders`, `Disk.keeps_write`, `Disk.keeps_removeAll`: so after any work
-/

namespace Runbook

/-! ## Work that keeps something -/

namespace OnDisk

variable {α β : Type} {P : Disk → Prop}

/-- Whatever is done, refused or not, a property of the disk is kept. -/
def Keeps (P : Disk → Prop) (work : OnDisk α) : Prop :=
  ∀ ⦃d e outcome⦄, work.run.run d = (outcome, e) → P d → P e

theorem Keeps.pure (a : α) : Keeps P (Pure.pure a : OnDisk α) := by
  rintro d e outcome ⟨⟩
  exact id

theorem Keeps.bind {x : OnDisk α} {f : α → OnDisk β} (hx : Keeps P x) (hf : ∀ a, Keeps P (f a)) :
    Keeps P (x >>= f) := by
  intro d e outcome h hd
  rw [run_bind] at h
  rcases hrun : x.run.run d with ⟨fault | a, d'⟩
  · rw [hrun] at h
    cases h
    exact hx hrun hd
  · rw [hrun] at h
    exact hf a h (hx hrun hd)

/-- Work that goes through goes through step by step. -/
theorem exists_of_bind {x : OnDisk α} {f : α → OnDisk β} {d e : Disk} {b : β}
    (h : (x >>= f).run.run d = (.ok b, e)) :
    ∃ a d', x.run.run d = (.ok a, d') ∧ (f a).run.run d' = (.ok b, e) := by
  rw [run_bind] at h
  rcases hrun : x.run.run d with ⟨fault | a, d'⟩
  · rw [hrun] at h
    cases h
  · rw [hrun] at h
    exact ⟨a, d', rfl, h⟩

/-- Looking at the disk leaves it. -/
theorem run_look (f : Disk → Except Fault α) (d : Disk) :
    (Disk.look f).run.run d = (f d, d) := by
  have hget : (get : OnDisk Disk).run.run d = (.ok d, d) := rfl
  rw [Disk.look, run_bind, hget]
  simp only
  cases f d <;> rfl

theorem Keeps.look (f : Disk → Except Fault α) : Keeps P (Disk.look f) := by
  intro d e outcome h
  rw [run_look] at h
  cases h
  exact id

end OnDisk

namespace Disk

/-! ## What lies where afterwards -/

theorem at?_filter (d : Disk) (keep : Place → Bool) (place : Place) :
    at? ⟨d.entries.filter fun e => keep e.1⟩ place = if keep place then d.at? place else none := by
  rw [at?, at?, List.find?_filter]
  split
  · rename_i hkeep
    congr 2
    funext e
    by_cases he : e.1 = place
    · simp [he, hkeep]
    · simp [he]
  · rename_i hdrop
    rw [List.find?_eq_none.mpr, Option.map_none]
    intro e _ he
    simp only [decide_eq_true_eq] at he
    exact hdrop (he.2 ▸ he.1)

theorem at?_clear (d : Disk) (dir place : Place) :
    (d.clear dir).at? place = if dir <+: place then none else d.at? place := by
  rw [clear, at?_filter d fun p => !dir.isPrefixOf p]
  by_cases h : dir <+: place
  · simp [h, List.isPrefixOf_iff_prefix.mpr h]
  · simp [h]

theorem at?_hollow (d : Disk) (dir place : Place) :
    (d.hollow dir).at? place = if dir <+: place ∧ place ≠ dir then none else d.at? place := by
  rw [hollow, at?_filter d fun p => p = dir || !dir.isPrefixOf p]
  by_cases h : dir <+: place
  · by_cases heq : place = dir <;> simp [h, heq, List.isPrefixOf_iff_prefix.mpr h]
  · simp [h]

theorem clear_hollow (d : Disk) (dir : Place) : (d.hollow dir).clear dir = d.clear dir := by
  rw [clear, hollow, clear, List.filter_filter]
  congr 2
  funext e
  cases dir.isPrefixOf e.1 <;> simp

/-- The first part of a path stops the work, is passed, or is a folder to be made. -/
theorem makeFoldersFrom_cases {here : Place} {part : String} {rest : List String} {d e : Disk}
    {outcome : Except Fault Unit}
    (h : (makeFoldersFrom here (part :: rest)).run.run d = (outcome, e)) :
    (outcome = .error .disk ∧ e = d) ∨
      (∃ there, (there = here ∨ there = here.dropLast ∨ d.at? there = some .folder) ∧
        (makeFoldersFrom there rest).run.run d = (outcome, e)) ∨
      d.at? (here ++ [part]) = none ∧
        (makeFoldersFrom (here ++ [part]) rest).run.run (d.put (here ++ [part]) .folder) =
          (outcome, e) := by
  rw [run_makeFoldersFrom_cons] at h
  by_cases hidle : isIdle part = true
  · rw [if_pos hidle] at h
    exact .inr (.inl ⟨here, .inl rfl, h⟩)
  rw [if_neg hidle] at h
  by_cases hup : part = ".."
  · rw [if_pos hup] at h
    exact .inr (.inl ⟨here.dropLast, .inr (.inl rfl), h⟩)
  rw [if_neg hup] at h
  by_cases hlong : isTooLong part = true
  · rw [if_pos hlong] at h
    cases h
    exact .inl ⟨rfl, rfl⟩
  rw [if_neg hlong] at h
  cases hat : d.at? (here ++ [part]) with
  | none =>
    simp only [hat] at h
    exact .inr (.inr ⟨rfl, h⟩)
  | some entry =>
    simp only [hat] at h
    cases entry with
    | file text =>
      cases h
      exact .inl ⟨rfl, rfl⟩
    | folder => exact .inr (.inl ⟨_, .inr (.inr hat), h⟩)

/-- Making folders leaves what is there and puts nothing but folders. -/
theorem at?_makeFoldersFrom (path : List String) : ∀ {here : Place} {d e : Disk}
    {outcome : Except Fault Unit}, (makeFoldersFrom here path).run.run d = (outcome, e) →
    ∀ place, e.at? place = d.at? place ∨ d.at? place = none ∧ e.at? place = some .folder := by
  induction path with
  | nil =>
    rintro here d e outcome ⟨⟩ place
    exact .inl rfl
  | cons part rest ih =>
    intro here d e outcome h place
    rcases makeFoldersFrom_cases h with ⟨-, rfl⟩ | ⟨_, -, h⟩ | ⟨hat, h⟩
    · exact .inl rfl
    · exact ih h place
    · have hrest := ih h place
      rw [at?_put] at hrest
      by_cases hplace : place = here ++ [part]
      · subst hplace
        rw [if_pos rfl] at hrest
        exact .inr ⟨hat, hrest.elim id fun hnone => nomatch hnone.1⟩
      · rw [if_neg hplace] at hrest
        exact hrest

theorem at?_makeFolders {path : List String} {d e : Disk} {outcome : Except Fault Unit}
    (h : (makeFolders path).run.run d = (outcome, e)) (place : Place) :
    e.at? place = d.at? place ∨ d.at? place = none ∧ e.at? place = some .folder := by
  rw [run_makeFolders] at h
  split at h
  · have hrest := at?_makeFoldersFrom path h place
    by_cases htop : d.at? [] = none
    · rw [if_pos htop, at?_put] at hrest
      by_cases hplace : place = []
      · rw [if_pos hplace] at hrest
        rw [hplace] at hrest ⊢
        exact .inr ⟨htop, hrest.elim id fun hnone => nomatch hnone.1⟩
      · rwa [if_neg hplace] at hrest
    · rwa [if_neg htop] at hrest
  · cases h
    exact .inl rfl

/-- A path leads where it would if every folder was there. -/
theorem eq_target_of_follow? {d : Disk} {path : List String} {place : Place}
    (h : d.follow? path = some place) : place = target [] path := by
  rw [follow?] at h
  split at h
  · exact eq_target_of_walk? path h
  · cases h

/-- Writing puts the text where the path leads, in a folder. -/
theorem at?_write {path : List String} {text : String} {d e : Disk}
    (h : (write path text).run.run d = (.ok (), e)) :
    e = d.put (target [] path) (.file text) ∧ e.follow? path = some (target [] path) ∧
      d.at? (target [] path) ≠ some .folder ∧
      d.at? (target [] path).dropLast = some .folder := by
  rcases write_cases h with ⟨hrefused, -⟩ | ⟨-, place, heq, hfollow, hfree, habove⟩
  · cases hrefused
  · obtain rfl := eq_target_of_follow? hfollow
    exact ⟨heq, hfollow, hfree, habove⟩

/-- A path leads to a folder, or it does not. -/
theorem folder_cases (d : Disk) (path : List String) :
    d.folder path = .error .disk ∨ d.folder path = .ok (target [] path) ∧
      d.follow? path = some (target [] path) ∧ d.at? (target [] path) = some .folder := by
  rw [folder]
  cases hfollow : d.follow? path with
  | none => exact .inl rfl
  | some place =>
    obtain rfl := eq_target_of_follow? hfollow
    by_cases hat : d.at? (target [] path) = some .folder
    · exact .inr ⟨if_pos hat, rfl, hat⟩
    · exact .inl (if_neg hat)

/-- Taking a folder away is refused, or takes away all that lies in it, and the folder too unless
that is refused or its path led through what is gone. -/
theorem removeAll_cases {path : List String} {d e : Disk} {outcome : Except Fault Unit}
    (h : (removeAll path).run.run d = (outcome, e)) :
    (outcome = .error .disk ∧ e = d) ∨
      d.follow? path = some (target [] path) ∧ d.at? (target [] path) = some .folder ∧
        ((outcome = .ok () ∧ e = d.clear (target [] path)) ∨
          e = d.hollow (target [] path) ∧
            (outcome = .ok () → (d.hollow (target [] path)).follow? path = none)) := by
  have hget : ∀ e : Disk, (get : OnDisk Disk).run.run e = (.ok e, e) := fun _ => rfl
  have hmodify : ∀ (f : Disk → Disk) (e : Disk),
      (modify f : OnDisk Unit).run.run e = (.ok (), f e) := fun _ _ => rfl
  rw [removeAll, OnDisk.run_bind, OnDisk.run_look] at h
  rcases d.folder_cases path with hfolder | ⟨hfolder, hfollow, hat⟩
  · rw [hfolder] at h
    cases h
    exact .inl ⟨rfl, rfl⟩
  · refine .inr ⟨hfollow, hat, ?_⟩
    rw [hfolder] at h
    simp only [OnDisk.run_bind, hmodify, hget] at h
    split at h
    · split at h
      · cases h
        exact .inr ⟨rfl, nofun⟩
      · cases h
        exact .inl ⟨rfl, clear_hollow ..⟩
    · rename_i hlost
      cases h
      exact .inr ⟨rfl, fun _ => Option.not_isSome_iff_eq_none.mp hlost⟩

/-- Besides the folder that is taken away, all stays. -/
theorem at?_removeAll_outside {path : List String} {d e : Disk} {outcome : Except Fault Unit}
    (h : (removeAll path).run.run d = (outcome, e)) {place : Place}
    (hout : ¬ target [] path <+: place) : e.at? place = d.at? place := by
  rcases removeAll_cases h with ⟨-, rfl⟩ | ⟨-, -, ⟨-, rfl⟩ | ⟨rfl, -⟩⟩
  · rfl
  · rw [at?_clear, if_neg hout]
  · rw [at?_hollow, if_neg fun hin => hout hin.1]

/-- What is left after a folder was taken away was there before. -/
theorem covers_of_removeAll {path : List String} {d e : Disk} {outcome : Except Fault Unit}
    (h : (removeAll path).run.run d = (outcome, e)) : d.Covers e := by
  have hleft : ∀ place, e.at? place = d.at? place ∨ e.at? place = none := by
    intro place
    rcases removeAll_cases h with ⟨-, rfl⟩ | ⟨-, -, ⟨-, rfl⟩ | ⟨rfl, -⟩⟩
    · exact .inl rfl
    · rw [at?_clear]
      split
      · exact .inr rfl
      · exact .inl rfl
    · rw [at?_hollow]
      split
      · exact .inr rfl
      · exact .inl rfl
  refine ⟨fun {place} hfolder => ?_, fun {place text} hfile => ⟨text, ?_⟩⟩
  · exact (hleft place).elim (fun hsame => hsame ▸ hfolder) fun hnone => by
      rw [hnone] at hfolder
      cases hfolder
  · exact (hleft place).elim (fun hsame => hsame ▸ hfile) fun hnone => by
      rw [hnone] at hfile
      cases hfile

/-- Nothing is left in a folder that is taken away. -/
theorem at?_removeAll_inside {path : List String} {d e : Disk}
    (h : (removeAll path).run.run d = (.ok (), e)) {place : Place}
    (hin : target [] path <+: place) (hne : place ≠ target [] path) : e.at? place = none := by
  rcases removeAll_cases h with ⟨hrefused, -⟩ | ⟨-, -, ⟨-, rfl⟩ | ⟨rfl, -⟩⟩
  · cases hrefused
  · rw [at?_clear, if_pos hin]
  · rw [at?_hollow, if_pos ⟨hin, hne⟩]

/-! ## Paths that are not too long -/

/-- A path can be put to the disk, and none of its parts is too long. -/
def fits (path : List String) : Bool := isSpeakable path && !path.any isTooLong

/-- So can a path that ends on its way. -/
theorem fits_of_append {path more : List String} (h : fits (path ++ more) = true) :
    fits path = true := by
  rw [fits, isSpeakable, Bool.and_eq_true, Bool.and_eq_true, decide_eq_true_eq] at h ⊢
  rw [List.all_append, List.any_append, Bool.and_eq_true, Bool.not_or, Bool.and_eq_true] at h
  refine ⟨⟨?_, h.1.2.1⟩, h.2.1⟩
  cases path with
  | nil =>
    rw [String.intercalate_nil]
    decide
  | cons part path =>
    cases more with
    | nil =>
      rw [List.append_nil] at h
      exact h.1.1
    | cons next more =>
      have hsize := h.1.1
      rw [String.intercalate_append_of_ne_nil (List.cons_ne_nil _ _) (List.cons_ne_nil _ _),
        String.utf8ByteSize_append, String.utf8ByteSize_append] at hsize
      omega

/-- No part of a path that leads somewhere is too long. -/
theorem not_any_isTooLong_of_walk? {d : Disk} (path : List String) :
    ∀ {here goal : Place}, d.walk? here path = some goal → path.any isTooLong = false := by
  induction path with
  | nil => exact fun _ => rfl
  | cons part rest ih =>
    intro here goal h
    rw [walk?] at h
    rw [List.any_cons]
    by_cases hidle : isIdle part = true
    · rw [if_pos hidle] at h
      rw [not_isTooLong_of_isIdle hidle, ih h]
      rfl
    rw [if_neg hidle] at h
    by_cases hup : part = ".."
    · rw [if_pos hup] at h
      rw [ih h, hup]
      rfl
    rw [if_neg hup] at h
    by_cases hlong : isTooLong part = true
    · rw [if_pos hlong] at h
      cases h
    rw [if_neg hlong] at h
    rw [Bool.eq_false_iff.mpr hlong, Bool.false_or]
    simp only at h
    split at h
    · rename_i hlast
      rw [List.isEmpty_iff.mp hlast]
      rfl
    · split at h
      · exact ih h
      · cases h

theorem fits_of_follow? {d : Disk} {path : List String} {place : Place}
    (h : d.follow? path = some place) : fits path = true := by
  rw [follow?] at h
  split at h
  · rename_i hspeak
    rw [fits, hspeak, not_any_isTooLong_of_walk? path h]
    rfl
  · cases h

/-! ## Paths that go up only from folders that are there -/

/-- A path that never goes up is passable. -/
theorem passable_of_forall_ne {d : Disk} (path : List String) :
    ∀ {here : Place}, (∀ part ∈ path, part ≠ "..") → d.Passable here path := by
  induction path with
  | nil => exact fun _ => trivial
  | cons part rest ih =>
    intro here h
    obtain ⟨hpart, hrest⟩ := List.forall_mem_cons.mp h
    rw [Passable, if_neg hpart]
    split <;> exact ih hrest

/-- So is every path that leads somewhere. -/
theorem Passable.of_walk? {d : Disk} (htree : d.IsTree) (path : List String) :
    ∀ {here goal : Place}, d.at? here = some .folder → d.walk? here path = some goal →
      d.Passable here path := by
  induction path with
  | nil => exact fun _ _ => trivial
  | cons part rest ih =>
    intro here goal hhere h
    rw [walk?] at h
    rw [Passable]
    by_cases hidle : isIdle part = true
    · rw [if_pos hidle] at h ⊢
      exact ih hhere h
    rw [if_neg hidle] at h ⊢
    by_cases hup : part = ".."
    · rw [if_pos hup] at h ⊢
      exact ⟨hhere, ih (htree here (by rw [hhere]; exact Option.some_ne_none _)) h⟩
    rw [if_neg hup] at h ⊢
    split at h
    · cases h
    · simp only at h
      split at h
      · rename_i hlast
        rw [List.isEmpty_iff.mp hlast]
        trivial
      · split at h
        · exact ih ‹_› h
        · cases h

theorem Passable.of_append {d : Disk} {more : List String} (path : List String) :
    ∀ {here : Place}, d.Passable here (path ++ more) → d.Passable here path := by
  induction path with
  | nil => exact fun _ => trivial
  | cons part rest ih =>
    intro here h
    rw [List.cons_append, Passable] at h
    rw [Passable]
    split
    · rw [if_pos ‹_›] at h
      exact ih h
    · rw [if_neg ‹_›] at h
      split
      · rw [if_pos ‹_›] at h
        exact ⟨h.1, ih h.2⟩
      · rw [if_neg ‹_›] at h
        exact ih h

/-- What lies at the end of a passable path that goes on down is what lies there, unless the path is
too long. -/
theorem find?_append {d : Disk} (htree : d.IsTree) {path names : List String}
    (hpass : d.Passable [] path) (hnames : ∀ n ∈ names, IsName n) (hne : names ≠ []) :
    d.find? (path ++ names) =
      if fits (path ++ names) then d.at? (target [] path ++ names) else none := by
  obtain ⟨init, last, rfl⟩ := (List.eq_nil_or_concat' names).resolve_left hne
  obtain ⟨hinit, hlast⟩ := List.forall_mem_append.mp hnames
  rw [← List.append_assoc, ← List.append_assoc, ← target_append init hinit path,
    find?_concat htree (hlast last (List.mem_singleton_self last)) (hpass.append init hinit path)]
  rfl

/-! ## Texts -/

/-- The text of the file at a place. -/
def text? (d : Disk) (place : Place) : Option String :=
  match d.at? place with
  | some (.file text) => some text
  | _ => none

theorem text?_eq_some_iff {d : Disk} {place : Place} {text : String} :
    d.text? place = some text ↔ d.at? place = some (.file text) := by
  rw [text?]
  rcases d.at? place with _ | (other | _) <;> simp

theorem text?_of_folder {d : Disk} {place : Place} (h : d.at? place = some .folder) :
    d.text? place = none := by
  rw [text?, h]

theorem text?_congr {d e : Disk} {place : Place} (h : e.at? place = d.at? place) :
    e.text? place = d.text? place := by
  rw [text?, h, text?]

/-- Making folders changes no text. -/
theorem text?_makeFolders {path : List String} {d e : Disk} {outcome : Except Fault Unit}
    (h : (makeFolders path).run.run d = (outcome, e)) (place : Place) :
    e.text? place = d.text? place := by
  rcases at?_makeFolders h place with hsame | ⟨hnone, hfolder⟩
  · exact text?_congr hsame
  · rw [text?, hfolder, text?, hnone]

/-- Writing changes one. -/
theorem text?_write {path : List String} {text : String} {d e : Disk}
    (h : (write path text).run.run d = (.ok (), e)) (place : Place) :
    e.text? place = if place = target [] path then some text else d.text? place := by
  obtain ⟨rfl, -⟩ := at?_write h
  by_cases hplace : place = target [] path
  · rw [if_pos hplace, text?, at?_put, if_pos hplace]
  · rw [if_neg hplace, text?, at?_put, if_neg hplace, text?]

/-- Taking a folder away takes the texts in it. -/
theorem text?_removeAll {path : List String} {d e : Disk}
    (h : (removeAll path).run.run d = (.ok (), e)) (place : Place) :
    e.text? place = if target [] path <+: place then none else d.text? place := by
  split
  · rename_i hin
    by_cases hplace : place = target [] path
    · rcases removeAll_cases h with ⟨hrefused, -⟩ | ⟨-, hfolder, ⟨-, rfl⟩ | ⟨rfl, -⟩⟩
      · cases hrefused
      · rw [text?, at?_clear, if_pos hin]
      · rw [hplace]
        refine text?_of_folder ?_
        rw [at?_hollow, if_neg fun hbelow => hbelow.2 rfl, hfolder]
    · rw [text?, at?_removeAll_inside h hin hplace]
  · exact text?_congr (at?_removeAll_outside h ‹_›)

/-! ## Disks as they should be -/

/-- Folders lie in folders, and each place is taken once. -/
structure IsSound (d : Disk) : Prop where
  /-- whatever lies somewhere lies in a folder -/
  tree : d.IsTree
  /-- no place is taken twice -/
  nodup : (d.entries.map Prod.fst).Nodup

theorem isSound_empty : IsSound empty := by
  refine ⟨fun place hplace => ?_, List.nodup_singleton _⟩
  rw [at?, empty, List.find?_singleton] at hplace
  split at hplace
  · rename_i htop
    rw [← of_decide_eq_true htop]
    rfl
  · exact absurd rfl hplace

namespace IsSound

variable {d : Disk}

theorem put (h : d.IsSound) {place : Place} {entry : Entry}
    (habove : place ≠ [] → d.at? place.dropLast = some .folder)
    (hkeep : d.at? place = some .folder ∨ place = [] → entry = .folder) :
    (d.put place entry).IsSound := by
  refine ⟨h.tree.put habove hkeep, ?_⟩
  rw [Disk.put, List.map_append]
  refine List.Nodup.append (h.nodup.sublist (List.filter_sublist.map _)) (List.nodup_singleton _) ?_
  refine List.disjoint_singleton.mpr fun hmem => ?_
  obtain ⟨e, he, heq⟩ := List.mem_map.mp hmem
  exact of_decide_eq_true (List.mem_filter.mp he).2 heq

/-- A sound disk from which some of what lies there is taken away, with all that lies in it. -/
theorem filter (h : d.IsSound) (keep : Place → Bool)
    (hkeep : ∀ place, keep place = true → keep place.dropLast = true) :
    IsSound ⟨d.entries.filter fun e => keep e.1⟩ := by
  refine ⟨fun place hplace => ?_, h.nodup.sublist (List.filter_sublist.map _)⟩
  rw [at?_filter] at hplace
  split at hplace
  · rename_i hthere
    rw [at?_filter, if_pos (hkeep place hthere)]
    exact h.tree place hplace
  · exact absurd rfl hplace

theorem clear (h : d.IsSound) (dir : Place) : (d.clear dir).IsSound := by
  refine h.filter (fun p => !dir.isPrefixOf p) fun place hplace => ?_
  rw [Bool.not_eq_true', Bool.eq_false_iff, Ne, List.isPrefixOf_iff_prefix] at hplace ⊢
  exact fun hin => hplace (hin.trans (List.dropLast_prefix place))

theorem hollow (h : d.IsSound) (dir : Place) : (d.hollow dir).IsSound := by
  refine h.filter (fun p => p = dir || !dir.isPrefixOf p) fun place hplace => ?_
  simp only [Bool.or_eq_true, decide_eq_true_eq, Bool.not_eq_true', Bool.eq_false_iff, Ne,
    List.isPrefixOf_iff_prefix] at hplace ⊢
  by_cases hin : dir <+: place.dropLast
  · -- what lies in the folder is gone, so the place is the folder itself, and at the top
    have hbelow : dir <+: place := hin.trans (List.dropLast_prefix place)
    obtain rfl := hplace.resolve_right fun hout => hout hbelow
    exact .inl ((List.dropLast_prefix place).eq_of_length_le hin.length_le)
  · exact .inr hin

end IsSound

theorem at?_ne_none_iff {d : Disk} {place : Place} :
    d.at? place ≠ none ↔ place ∈ d.entries.map Prod.fst := by
  rw [at?, Ne, Option.map_eq_none_iff, List.find?_eq_none, List.mem_map]
  constructor
  · intro h
    by_contra hnone
    exact h fun e he heq => hnone ⟨e, he, of_decide_eq_true heq⟩
  · rintro ⟨e, he, heq⟩ hnone
    exact hnone e he (decide_eq_true heq)

/-- What lies right in a folder is the last part of its place. -/
theorem lastIn_iff {dir place : Place} {n : String} :
    (if place.dropLast = dir then place.getLast? else none) = some n ↔ place = dir ++ [n] := by
  constructor
  · intro hlast
    split at hlast
    · rename_i hdrop
      rw [← hdrop, List.dropLast_append_getLast? n hlast]
    · cases hlast
  · rintro rfl
    rw [List.dropLast_concat, if_pos rfl, List.getLast?_concat]

/-- The names that are listed for a folder are those of what lies right in it, each once. -/
theorem list_spec {d : Disk} (h : d.IsSound) {path names : List String}
    (hlist : d.list path = .ok names) :
    names.Nodup ∧ ∀ n, n ∈ names ↔ d.at? (target [] path ++ [n]) ≠ none := by
  rw [list] at hlist
  rcases d.folder_cases path with hfolder | ⟨hfolder, -, -⟩
  · rw [hfolder] at hlist
    cases hlist
  rw [hfolder] at hlist
  have hnames : names = (d.entries.map Prod.fst).filterMap fun p =>
      if p.dropLast = target [] path then p.getLast? else none := by
    rw [List.filterMap_map]
    exact (Except.ok.inj hlist).symm
  rw [hnames]
  refine ⟨h.nodup.filterMap fun p q n hp hq => ?_, fun n => ?_⟩
  · exact (lastIn_iff.mp hp).trans (lastIn_iff.mp hq).symm
  · rw [List.mem_filterMap, at?_ne_none_iff]
    constructor
    · rintro ⟨p, hp, hn⟩
      exact lastIn_iff.mp hn ▸ hp
    · exact fun hp => ⟨_, hp, lastIn_iff.mpr rfl⟩

theorem keeps_makeFoldersFrom (path : List String) : ∀ {here : Place} {d e : Disk}
    {outcome : Except Fault Unit}, (makeFoldersFrom here path).run.run d = (outcome, e) →
    d.at? here = some .folder → d.IsSound → e.IsSound := by
  induction path with
  | nil =>
    rintro here d e outcome ⟨⟩ - hd
    exact hd
  | cons part rest ih =>
    intro here d e outcome h hhere hd
    rcases makeFoldersFrom_cases h with ⟨-, rfl⟩ | ⟨there, hthere, h⟩ | ⟨-, h⟩
    · exact hd
    · refine ih h ?_ hd
      rcases hthere with rfl | rfl | hfolder
      · exact hhere
      · exact hd.tree here (by rw [hhere]; exact Option.some_ne_none _)
      · exact hfolder
    · refine ih h (by rw [at?_put, if_pos rfl]) (hd.put (fun _ => ?_) fun _ => rfl)
      rwa [List.dropLast_concat]

theorem keeps_makeFolders (path : List String) : OnDisk.Keeps IsSound (makeFolders path) := by
  intro d e outcome h hd
  rw [run_makeFolders] at h
  split at h
  · by_cases htop : d.at? [] = none
    · rw [if_pos htop] at h
      exact keeps_makeFoldersFrom path h (by rw [at?_put, if_pos rfl])
        (hd.put (fun hne => absurd rfl hne) fun _ => rfl)
    · rw [if_neg htop] at h
      exact keeps_makeFoldersFrom path h (hd.tree [] htop) hd
  · cases h
    exact hd

theorem keeps_write (path : List String) (text : String) :
    OnDisk.Keeps IsSound (write path text) := by
  intro d e outcome h hd
  rcases write_cases h with ⟨-, rfl⟩ | ⟨-, place, rfl, -, hfree, habove⟩
  · exact hd
  · refine hd.put (fun _ => habove) ?_
    rintro (hfolder | rfl)
    · exact absurd hfolder hfree
    · exact absurd habove hfree

/-- What is written is written along a passable path. -/
theorem passable_of_write {path : List String} {text : String} {d e : Disk} (hd : d.IsTree)
    (h : (write path text).run.run d = (.ok (), e)) : d.Passable [] path := by
  obtain ⟨-, -, -, habove⟩ := at?_write h
  have htop : d.at? [] = some .folder := hd.top (habove ▸ Option.some_ne_none _)
  have hget : (get : OnDisk Disk).run.run d = (.ok d, d) := rfl
  rw [write, OnDisk.run_bind, hget] at h
  simp only at h
  cases hfollow : d.follow? path with
  | none =>
    rw [hfollow] at h
    cases h
  | some place =>
    rw [follow?] at hfollow
    split at hfollow
    · exact .of_walk? hd path htop hfollow
    · cases hfollow

theorem keeps_removeAll (path : List String) : OnDisk.Keeps IsSound (removeAll path) := by
  intro d e outcome h hd
  rcases removeAll_cases h with ⟨-, rfl⟩ | ⟨-, -, ⟨-, rfl⟩ | ⟨rfl, -⟩⟩
  · exact hd
  · exact hd.clear _
  · exact hd.hollow _

end Disk

end Runbook
