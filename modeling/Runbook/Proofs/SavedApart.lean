import Mathlib.Data.List.Induction
import Runbook.Proofs.Components
import Runbook.Proofs.Stores

/-!
# Stores that keep sessions apart

What is stored for a session is what was stored for it last. Whatever is stored for others may be
left out, before and after, and what is refused is refused all the same. On a disk the sessions
have folders of their own, but share those above.

* `Disk.IsTree`, `Disk.Passable`: a disk of folders in folders, and a path that does not go up from
  a folder that is missing
* `Disk.target`, `Disk.find?_concat`: such a path leads to one place, whatever else is there
* `Disk.Alike`: two disks that differ only besides and above a folder
* `Archive.saveState_both`, `Archive.saveState_left`: kept by what is stored in the folder on both,
  and by what is stored besides it on one
* `Store.Tidy`, `Store.Alike`, `Store.alike_saveAll`: the same for all stores
* `Store.load_saveAll_filter`: what is stored for others may be left out
-/

namespace Runbook

/-! ## Disks of folders in folders -/

namespace Disk

/-- Every place that is taken lies in a folder, and at the top there is one. -/
def IsTree (d : Disk) : Prop := ∀ place, d.at? place ≠ none → d.at? place.dropLast = some .folder

/-- Where the parts of a path lead from a folder if every folder on the way is there. -/
def target (here : Place) : List String → Place
  | [] => here
  | name :: rest =>
    if isIdle name then target here rest
    else if name = ".." then target here.dropLast rest
    else target (here ++ [name]) rest

/-- A path from a folder goes up only from folders that are there. -/
def Passable (d : Disk) (here : Place) : List String → Prop
  | [] => True
  | name :: rest =>
    if isIdle name then Passable d here rest
    else if name = ".." then d.at? here = some .folder ∧ Passable d here.dropLast rest
    else Passable d (here ++ [name]) rest

/-- A part of a path that leads down. -/
structure IsName (part : String) : Prop where
  /-- it leads somewhere -/
  not_idle : ¬ isIdle part = true
  /-- it does not lead up -/
  not_up : part ≠ ".."

theorem target_append (names : List String) (hnames : ∀ n ∈ names, IsName n) (path : List String) :
    ∀ here : Place, target here (path ++ names) = target here path ++ names := by
  induction path with
  | nil =>
    induction names with
    | nil => exact fun here => (List.append_nil here).symm
    | cons n rest ih =>
      intro here
      have hn := hnames n (List.mem_cons_self ..)
      have hrest : target (here ++ [n]) rest = here ++ [n] ++ rest :=
        ih (fun m hm => hnames m (List.mem_cons_of_mem _ hm)) (here ++ [n])
      show target here (n :: rest) = here ++ n :: rest
      rw [target, if_neg hn.not_idle, if_neg hn.not_up, hrest, List.append_assoc,
        List.singleton_append]
  | cons part rest ih =>
    intro here
    simp only [List.cons_append, target, ih]
    split
    · rfl
    · split <;> rfl

theorem Passable.append {d : Disk} (names : List String) (hnames : ∀ n ∈ names, IsName n)
    (path : List String) :
    ∀ {here : Place}, d.Passable here path → d.Passable here (path ++ names) := by
  induction path with
  | nil =>
    induction names with
    | nil => exact fun h => h
    | cons n rest ih =>
      intro here _
      have hn := hnames n (List.mem_cons_self ..)
      rw [List.nil_append, Passable, if_neg hn.not_idle, if_neg hn.not_up]
      exact ih (fun m hm => hnames m (List.mem_cons_of_mem _ hm)) trivial
  | cons part rest ih =>
    intro here h
    rw [Passable] at h
    rw [List.cons_append, Passable]
    split
    · rw [if_pos ‹_›] at h
      exact ih h
    · rw [if_neg ‹_›] at h
      split
      · rw [if_pos ‹_›] at h
        exact ⟨h.1, ih h.2⟩
      · rw [if_neg ‹_›] at h
        exact ih h

/-- Folders that stay keep a path passable. -/
theorem Passable.of_covers {d d' : Disk} (hcovers : d'.Covers d) (path : List String) :
    ∀ {here : Place}, d.Passable here path → d'.Passable here path := by
  induction path with
  | nil => exact fun h => h
  | cons part rest ih =>
    intro here h
    rw [Passable] at h ⊢
    split
    · rw [if_pos ‹_›] at h
      exact ih h
    · rw [if_neg ‹_›] at h
      split
      · rw [if_pos ‹_›] at h
        exact ⟨hcovers.folder h.1, ih h.2⟩
      · rw [if_neg ‹_›] at h
        exact ih h

namespace IsTree

variable {d : Disk}

/-- Whatever a place lies in is a folder. -/
theorem folder_of_prefix (h : d.IsTree) {p q : Place} (hpq : p <+: q) (hne : p ≠ q)
    (hq : d.at? q ≠ none) : d.at? p = some .folder := by
  obtain ⟨r, rfl⟩ := hpq
  induction r using List.reverseRecOn with
  | nil => exact absurd (List.append_nil p).symm hne
  | append_singleton r x ih =>
    have habove : d.at? (p ++ r) = some .folder := by
      have hdrop := h _ hq
      rwa [← List.append_assoc, List.dropLast_concat] at hdrop
    by_cases hr : r = []
    · rwa [hr, List.append_nil] at habove
    · refine ih (fun heq => hr ?_) (by rw [habove]; exact Option.some_ne_none _)
      exact List.append_cancel_left (heq.symm.trans (List.append_nil p).symm)

/-- Where anything lies the top is a folder. -/
theorem top (h : d.IsTree) {place : Place} (hplace : d.at? place ≠ none) :
    d.at? [] = some .folder := by
  by_cases htop : place = []
  · rw [htop] at hplace
    exact h [] hplace
  · exact h.folder_of_prefix List.nil_prefix (Ne.symm htop) hplace

/-- What is put into a folder, where no other folder was, leaves a tree. -/
theorem put (h : d.IsTree) {place : Place} {entry : Entry}
    (habove : place ≠ [] → d.at? place.dropLast = some .folder)
    (hkeep : d.at? place = some .folder ∨ place = [] → entry = .folder) :
    (d.put place entry).IsTree := by
  have hfolder : ∀ {q : Place}, d.at? q = some .folder →
      (d.put place entry).at? q = some .folder := by
    intro q hq
    rw [at?_put]
    split
    · rename_i heq
      rw [hkeep (.inl (heq ▸ hq))]
    · exact hq
  intro q hq
  rw [at?_put] at hq
  split at hq
  · rename_i heq
    rw [heq]
    by_cases htop : place = []
    · rw [htop, List.dropLast_nil, at?_put, if_pos rfl, hkeep (.inr htop)]
    · exact hfolder (habove htop)
  · exact hfolder (h q hq)

end IsTree

/-- The disk with a folder at the top. -/
def withTop (d : Disk) : Disk := if d.at? [] = none then d.put [] .folder else d

theorem covers_withTop (d : Disk) : d.withTop.Covers d := by
  rw [withTop]
  split
  · exact covers_put_of_none ‹_› _
  · exact .rfl

theorem IsTree.at?_withTop {d : Disk} (h : d.IsTree) : d.withTop.at? [] = some .folder := by
  rw [withTop]
  split
  · rw [at?_put, if_pos rfl]
  · exact h [] ‹_›

theorem IsTree.withTop {d : Disk} (h : d.IsTree) : d.withTop.IsTree := by
  rw [Disk.withTop]
  split
  · exact h.put (fun hne => absurd rfl hne) fun _ => rfl
  · exact h

/-- A passable path stays below where it goes on from, or goes up through that folder. -/
theorem Passable.prefix_or {d : Disk} (htree : d.IsTree) (path : List String) :
    ∀ {here : Place}, d.Passable here path →
      here <+: target here path ∨ d.at? here = some .folder := by
  induction path with
  | nil => exact fun _ => .inl (List.prefix_refl _)
  | cons part rest ih =>
    intro here h
    rw [Passable] at h
    rw [target]
    split
    · rw [if_pos ‹_›] at h
      exact ih h
    · rw [if_neg ‹_›] at h
      split
      · rw [if_pos ‹_›] at h
        exact .inr h.1
      · rw [if_neg ‹_›] at h
        rcases ih h with hprefix | hfolder
        · exact .inl ((List.prefix_append here [part]).trans hprefix)
        · have habove := htree _ (by rw [hfolder]; exact Option.some_ne_none _)
          rw [List.dropLast_concat] at habove
          exact .inr habove

/-! ## Where paths lead -/

/-- Wherever a path leads, it is where it would lead if every folder was there. -/
theorem eq_target_of_walk? {d : Disk} (path : List String) :
    ∀ {here goal : Place}, d.walk? here path = some goal → goal = target here path := by
  induction path with
  | nil => exact fun h => (Option.some.inj h).symm
  | cons part rest ih =>
    intro here goal h
    rw [walk?] at h
    rw [target]
    split
    · rw [if_pos ‹_›] at h
      exact ih h
    · rw [if_neg ‹_›] at h
      split
      · rw [if_pos ‹_›] at h
        exact ih h
      · rw [if_neg ‹_›] at h
        split at h
        · cases h
        · simp only at h
          split at h
          · rename_i hlast
            rw [List.isEmpty_iff.mp hlast]
            exact (Option.some.inj h).symm
          · split at h
            · exact ih h
            · cases h

theorem not_isTooLong_of_isIdle {part : String} (h : isIdle part = true) :
    isTooLong part = false := by
  rw [isIdle, Bool.or_eq_true, decide_eq_true_eq, decide_eq_true_eq] at h
  rcases h with rfl | rfl <;> rfl

/-- A passable path to a name in a folder that is there leads to that name, unless a part of it is
too long. -/
theorem walk?_concat {d : Disk} (htree : d.IsTree) {last : String} (hlast : IsName last)
    (path : List String) : ∀ {here : Place}, d.Passable here path →
      d.at? (target here path) = some .folder →
      d.walk? here (path ++ [last]) =
        if (path ++ [last]).any isTooLong then none else some (target here path ++ [last]) := by
  induction path with
  | nil =>
    intro here _ _
    rw [List.nil_append, walk?, if_neg hlast.not_idle, if_neg hlast.not_up, List.any_cons,
      List.any_nil, Bool.or_false]
    rfl
  | cons part rest ih =>
    intro here h hfolder
    rw [Passable] at h
    rw [target] at hfolder
    rw [List.cons_append, walk?, target, List.any_cons]
    by_cases hidle : isIdle part = true
    · rw [if_pos hidle] at h hfolder ⊢
      rw [if_pos hidle, not_isTooLong_of_isIdle hidle, Bool.false_or]
      exact ih h hfolder
    rw [if_neg hidle] at h hfolder ⊢
    rw [if_neg hidle]
    by_cases hup : part = ".."
    · have hshort : isTooLong part = false := hup ▸ rfl
      rw [if_pos hup] at h hfolder ⊢
      rw [if_pos hup, hshort, Bool.false_or]
      exact ih h.2 hfolder
    rw [if_neg hup] at h hfolder ⊢
    rw [if_neg hup]
    by_cases hlong : isTooLong part = true
    · rw [if_pos hlong, hlong, Bool.true_or, if_pos rfl]
    · -- the folder is on the way to one that is there, or the path goes up from it
      have hnext : d.at? (here ++ [part]) = some .folder := by
        rcases Passable.prefix_or htree rest h with hprefix | hthere
        · by_cases heq : here ++ [part] = target (here ++ [part]) rest
          · exact heq ▸ hfolder
          · exact htree.folder_of_prefix hprefix heq (by rw [hfolder]; exact Option.some_ne_none _)
        · exact hthere
      have hmore : (rest ++ [last]).isEmpty = false := by
        rw [List.isEmpty_eq_false_iff]
        exact List.append_ne_nil_of_right_ne_nil _ (List.cons_ne_nil last [])
      rw [if_neg hlong, Bool.eq_false_iff.mpr hlong, Bool.false_or]
      simp only [hmore, Bool.false_eq_true, if_false, hnext, if_true]
      exact ih h hfolder

/-- What lies at the end of a passable path to a name is what lies at that name, unless the path is
too long. -/
theorem find?_concat {d : Disk} (htree : d.IsTree) {last : String} (hlast : IsName last)
    {path : List String} (h : d.Passable [] path) :
    d.find? (path ++ [last]) =
      if isSpeakable (path ++ [last]) && !(path ++ [last]).any isTooLong then
        d.at? (target [] path ++ [last])
      else none := by
  rw [find?, follow?]
  by_cases hspeak : isSpeakable (path ++ [last]) = true
  · rw [if_pos hspeak, hspeak, Bool.true_and]
    by_cases htaken : d.at? (target [] path ++ [last]) = none
    · rw [htaken, ite_self]
      cases hwalk : d.walk? [] (path ++ [last]) with
      | none => rfl
      | some goal =>
        have hgoal := eq_target_of_walk? _ hwalk
        rw [target_append [last] (fun n hn => List.mem_singleton.mp hn ▸ hlast)] at hgoal
        rw [Option.bind_some, hgoal, htaken]
    · have hfolder := htree _ htaken
      rw [List.dropLast_concat] at hfolder
      rw [walk?_concat htree hlast path h hfolder]
      cases (path ++ [last]).any isTooLong <;> rfl
  · rw [if_neg hspeak, Bool.eq_false_iff.mpr hspeak]
    rfl

/-! ## Disks that differ only besides and above a folder -/

/-- Two disks have the same in a folder. Above it the first may have some more folders; what lies
besides may differ. -/
structure Alike (dir : Place) (d d' : Disk) : Prop where
  /-- the first is a tree -/
  tree : d.IsTree
  /-- so is the second -/
  tree' : d'.IsTree
  /-- the same lies in the folder -/
  below : ∀ place, dir <+: place → d'.at? place = d.at? place
  /-- what lies above is the same, or a folder of the first only -/
  above : ∀ place, place <+: dir → d'.at? place = d.at? place ∨
    d'.at? place = none ∧ d.at? place = some .folder

namespace Alike

variable {dir : Place} {d d' : Disk}

theorem refl (h : d.IsTree) (dir : Place) : Alike dir d d :=
  ⟨h, h, fun _ _ => rfl, fun _ _ => .inl rfl⟩

/-- The same may be put at a place on both. -/
theorem put_both (h : Alike dir d d') {place : Place} {entry : Entry}
    (htree : (d.put place entry).IsTree) (htree' : (d'.put place entry).IsTree) :
    Alike dir (d.put place entry) (d'.put place entry) := by
  refine ⟨htree, htree', fun q hq => ?_, fun q hq => ?_⟩
  · rw [at?_put, at?_put, h.below q hq]
  · rw [at?_put, at?_put]
    split
    · exact .inl rfl
    · exact h.above q hq

/-- A folder may be made on the second that the first has already. -/
theorem put_right (h : Alike dir d d') {place : Place}
    (hfolder : d.at? place = some .folder) (htree' : (d'.put place .folder).IsTree) :
    Alike dir d (d'.put place .folder) := by
  have hmade : ∀ q, q = place → some Entry.folder = d.at? q := fun q hq => hq ▸ hfolder.symm
  refine ⟨h.tree, htree', fun q hq => ?_, fun q hq => ?_⟩
  · rw [at?_put]
    split
    · exact hmade q ‹_›
    · exact h.below q hq
  · rw [at?_put]
    split
    · exact .inl (hmade q ‹_›)
    · exact h.above q hq

/-- On the first, anything may be put besides the folder, and folders where nothing was above. -/
theorem put_left (h : Alike dir d d') {place : Place} {entry : Entry}
    (hout : ¬ dir <+: place) (hmade : place <+: dir → entry = .folder ∧ d.at? place = none)
    (htree : (d.put place entry).IsTree) : Alike dir (d.put place entry) d' := by
  refine ⟨htree, h.tree', fun q hq => ?_, fun q hq => ?_⟩
  · have hne : q ≠ place := fun heq => hout (heq ▸ hq)
    rw [at?_put, if_neg hne]
    exact h.below q hq
  · rw [at?_put]
    split
    · rename_i heq
      obtain ⟨rfl, hnone⟩ := hmade (heq ▸ hq)
      have hnone' : d'.at? q = none := by
        rcases h.above q hq with hsame | ⟨hnone', -⟩
        · rw [hsame, heq, hnone]
        · exact hnone'
      exact .inr ⟨hnone', rfl⟩
    · exact h.above q hq

/-- On both disks the folders on the way to the folder are made, or refused for the same reason. -/
theorem makeFoldersFrom_both (path : List String) : ∀ {here : Place} {d d' : Disk},
    Alike dir d d' → d.Passable here path → d'.Passable here path →
    d.at? here = some .folder → d'.at? here = some .folder → target here path = dir →
    ∃ outcome e e', (makeFoldersFrom here path).run.run d = (outcome, e) ∧
      (makeFoldersFrom here path).run.run d' = (outcome, e') ∧ Alike dir e e' ∧
      (outcome = .ok () → e.at? dir = some .folder) := by
  induction path with
  | nil =>
    intro here d d' h _ _ hhere _ htarget
    exact ⟨_, _, _, rfl, rfl, h, fun _ => htarget ▸ hhere⟩
  | cons part rest ih =>
    intro here d d' h hpass hpass' hhere hhere' htarget
    rw [Passable] at hpass hpass'
    rw [target] at htarget
    simp only [run_makeFoldersFrom_cons]
    by_cases hidle : isIdle part = true
    · simp only [if_pos hidle] at hpass hpass' htarget ⊢
      exact ih h hpass hpass' hhere hhere' htarget
    simp only [if_neg hidle] at hpass hpass' htarget ⊢
    by_cases hup : part = ".."
    · simp only [if_pos hup] at hpass hpass' htarget ⊢
      have hsome : ∀ {e : Disk}, e.at? here = some .folder → e.at? here ≠ none :=
        fun he => by rw [he]; exact Option.some_ne_none _
      exact ih h hpass.2 hpass'.2 (h.tree _ (hsome hhere)) (h.tree' _ (hsome hhere')) htarget
    simp only [if_neg hup] at hpass hpass' htarget ⊢
    by_cases hlong : isTooLong part = true
    · simp only [if_pos hlong]
      exact ⟨_, _, _, rfl, rfl, h, nofun⟩
    simp only [if_neg hlong]
    -- a folder that is made lies in the one that was come to
    have hput : ∀ {e : Disk}, e.IsTree → e.at? here = some .folder →
        (e.put (here ++ [part]) .folder).IsTree := by
      intro e he hhere
      refine he.put (fun _ => ?_) fun _ => rfl
      rwa [List.dropLast_concat]
    have hthere : ∀ {e : Disk}, (e.put (here ++ [part]) .folder).at? (here ++ [part]) =
        some .folder := by
      intro e
      rw [at?_put, if_pos rfl]
    have hcase : d'.at? (here ++ [part]) = d.at? (here ++ [part]) ∨
        d'.at? (here ++ [part]) = none ∧ d.at? (here ++ [part]) = some .folder := by
      rcases Passable.prefix_or h.tree rest hpass with hprefix | hfolder
      · exact h.above _ (htarget ▸ hprefix)
      · rcases Passable.prefix_or h.tree' rest hpass' with hprefix | hfolder'
        · exact h.above _ (htarget ▸ hprefix)
        · exact .inl (hfolder'.trans hfolder.symm)
    rcases hcase with hsame | ⟨hnone, hfolder⟩
    · rw [hsame]
      cases hat : d.at? (here ++ [part]) with
      | none =>
        have hcovers := covers_put_of_none hat .folder
        have hcovers' := covers_put_of_none (hsame.trans hat) .folder
        exact ih (h.put_both (hput h.tree hhere) (hput h.tree' hhere'))
          (hpass.of_covers hcovers) (hpass'.of_covers hcovers') hthere hthere htarget
      | some entry =>
        cases entry with
        | file text => exact ⟨_, _, _, rfl, rfl, h, nofun⟩
        | folder => exact ih h hpass hpass' hat (hsame.trans hat) htarget
    · rw [hnone, hfolder]
      have hcovers' := covers_put_of_none hnone .folder
      exact ih (h.put_right hfolder (hput h.tree' hhere')) hpass
        (hpass'.of_covers hcovers') hfolder hthere htarget

/-- On the way to somewhere else folders may be made on the first disk alone. -/
theorem makeFoldersFrom_left (path : List String) : ∀ {here : Place} {d e : Disk}
    {outcome : Except Fault Unit}, Alike dir d d' → d.Passable here path →
    d.at? here = some .folder → ¬ dir <+: target here path →
    (makeFoldersFrom here path).run.run d = (outcome, e) → Alike dir e d' := by
  induction path with
  | nil =>
    rintro here d e outcome h - - - ⟨⟩
    exact h
  | cons part rest ih =>
    intro here d e outcome h hpass hhere hout hrun
    rw [Passable] at hpass
    rw [target] at hout
    rw [run_makeFoldersFrom_cons] at hrun
    by_cases hidle : isIdle part = true
    · simp only [if_pos hidle] at hpass hout hrun
      exact ih h hpass hhere hout hrun
    simp only [if_neg hidle] at hpass hout hrun
    by_cases hup : part = ".."
    · simp only [if_pos hup] at hpass hout hrun
      exact ih h hpass.2 (h.tree _ (by rw [hhere]; exact Option.some_ne_none _)) hout hrun
    simp only [if_neg hup] at hpass hout hrun
    by_cases hlong : isTooLong part = true
    · simp only [if_pos hlong] at hrun
      cases hrun
      exact h
    simp only [if_neg hlong] at hrun
    cases hat : d.at? (here ++ [part]) with
    | none =>
      simp only [hat] at hrun
      -- it is a folder on the way, as nobody can have gone up from it
      have hprefix : here ++ [part] <+: target (here ++ [part]) rest := by
        rcases Passable.prefix_or h.tree rest hpass with hprefix | hfolder
        · exact hprefix
        · rw [hat] at hfolder
          cases hfolder
      have htree : (d.put (here ++ [part]) .folder).IsTree := by
        refine h.tree.put (fun _ => ?_) fun _ => rfl
        rwa [List.dropLast_concat]
      refine ih (h.put_left (fun hin => hout (hin.trans hprefix)) (fun _ => ⟨rfl, hat⟩) htree)
        (hpass.of_covers (covers_put_of_none hat _)) ?_ hout hrun
      rw [at?_put, if_pos rfl]
    | some entry =>
      cases entry with
      | file text =>
        simp only [hat] at hrun
        cases hrun
        exact h
      | folder =>
        simp only [hat] at hrun
        exact ih h hpass hat hout hrun

theorem withTop_both (h : Alike dir d d') : Alike dir d.withTop d'.withTop := by
  have htree := h.tree.withTop
  have htree' := h.tree'.withTop
  rw [withTop] at htree htree' ⊢
  rw [withTop]
  rcases h.above [] List.nil_prefix with hsame | ⟨hnone, hfolder⟩
  · rw [hsame] at htree' ⊢
    split
    · rw [if_pos ‹_›] at htree htree'
      exact h.put_both htree htree'
    · exact h
  · rw [if_pos hnone] at htree' ⊢
    rw [if_neg (by rw [hfolder]; exact Option.some_ne_none _)]
    exact h.put_right hfolder htree'

theorem withTop_left (h : Alike dir d d') (hdir : dir ≠ []) : Alike dir d.withTop d' := by
  have htree := h.tree.withTop
  rw [withTop] at htree ⊢
  split
  · rw [if_pos ‹_›] at htree
    exact h.put_left (fun hin => hdir (List.prefix_nil.mp hin)) (fun _ => ⟨rfl, ‹_›⟩) htree
  · exact h

/-- On both disks all folders down to the folder are made, or refused for the same reason. -/
theorem makeFolders_both {path : List String} (h : Alike dir d d') (hpass : d.Passable [] path)
    (hpass' : d'.Passable [] path) (htarget : target [] path = dir) :
    ∃ outcome e e', (makeFolders path).run.run d = (outcome, e) ∧
      (makeFolders path).run.run d' = (outcome, e') ∧ Alike dir e e' ∧
      (outcome = .ok () → e.at? dir = some .folder) := by
  simp only [run_makeFolders]
  by_cases hspeak : isSpeakable path = true
  · simp only [if_pos hspeak]
    exact makeFoldersFrom_both path h.withTop_both (hpass.of_covers d.covers_withTop)
      (hpass'.of_covers d'.covers_withTop) h.tree.at?_withTop h.tree'.at?_withTop htarget
  · simp only [if_neg hspeak]
    exact ⟨_, _, _, rfl, rfl, h, nofun⟩

theorem makeFolders_left {path : List String} {e : Disk} {outcome : Except Fault Unit}
    (h : Alike dir d d') (hpass : d.Passable [] path) (hout : ¬ dir <+: target [] path)
    (hrun : (makeFolders path).run.run d = (outcome, e)) : Alike dir e d' := by
  rw [run_makeFolders] at hrun
  split at hrun
  · have hdir : dir ≠ [] := fun heq => hout (heq ▸ List.nil_prefix)
    exact makeFoldersFrom_left path (h.withTop_left hdir) (hpass.of_covers d.covers_withTop)
      h.tree.at?_withTop hout hrun
  · cases hrun
    exact h

/-- On both disks a file in the folder is written, or refused for the same reason. -/
theorem write_both {path : List String} {last : String} (h : Alike dir d d')
    (hpass : d.Passable [] path) (hpass' : d'.Passable [] path) (htarget : target [] path = dir)
    (hlast : IsName last) (hthere : d.at? dir = some .folder) (text : String) :
    ∃ outcome e e', (write (path ++ [last]) text).run.run d = (outcome, e) ∧
      (write (path ++ [last]) text).run.run d' = (outcome, e') ∧ Alike dir e e' := by
  have hget : ∀ e : Disk, (get : OnDisk Disk).run.run e = (.ok e, e) := fun _ => rfl
  have hthere' : d'.at? dir = some .folder := (h.below dir (List.prefix_refl _)).trans hthere
  have hfollow : ∀ {e : Disk}, e.IsTree → e.Passable [] path → e.at? dir = some .folder →
      e.follow? (path ++ [last]) = if isSpeakable (path ++ [last]) then
        if (path ++ [last]).any isTooLong then none else some (dir ++ [last])
      else none := by
    intro e htree hpass hthere
    rw [follow?, walk?_concat htree hlast path hpass (htarget ▸ hthere), htarget]
  have hput : ∀ {e : Disk}, e.IsTree → e.at? dir = some .folder →
      e.at? (dir ++ [last]) ≠ some .folder → (e.put (dir ++ [last]) (.file text)).IsTree := by
    intro e htree hthere hfree
    refine htree.put (fun _ => by rwa [List.dropLast_concat]) ?_
    rintro (hfolder | hnil)
    · exact absurd hfolder hfree
    · exact absurd hnil (List.append_ne_nil_of_right_ne_nil _ (List.cons_ne_nil last []))
  simp only [write, OnDisk.run_bind, hget, hfollow h.tree hpass hthere,
    hfollow h.tree' hpass' hthere']
  by_cases hspeak : isSpeakable (path ++ [last]) = true
  · rw [if_pos hspeak]
    by_cases hlong : (path ++ [last]).any isTooLong = true
    · rw [if_pos hlong]
      exact ⟨_, _, _, rfl, rfl, h⟩
    · rw [if_neg hlong]
      have hsame := h.below (dir ++ [last]) (List.prefix_append ..)
      simp only [List.dropLast_concat, hthere, hthere', hsame]
      by_cases hfree : d.at? (dir ++ [last]) = some .folder
      · simp only [hfree]
        exact ⟨_, _, _, rfl, rfl, h⟩
      · simp only [hfree]
        exact ⟨_, _, _, rfl, rfl, h.put_both (hput h.tree hthere hfree)
          (hput h.tree' hthere' (hsame ▸ hfree))⟩
  · rw [if_neg hspeak]
    exact ⟨_, _, _, rfl, rfl, h⟩

/-- Besides the folder and those above it, a file may be written on the first disk alone. -/
theorem write_left {path : List String} {text : String} {e : Disk} {outcome : Except Fault Unit}
    (h : Alike dir d d') (hout : ¬ dir <+: target [] path) (hbeside : ¬ target [] path <+: dir)
    (hrun : (write path text).run.run d = (outcome, e)) : Alike dir e d' := by
  rcases write_cases hrun with ⟨-, rfl⟩ | ⟨-, place, rfl, hfollow, hfree, hfolder⟩
  · exact h
  · have hplace : place = target [] path := by
      rw [follow?] at hfollow
      split at hfollow
      · exact eq_target_of_walk? path hfollow
      · cases hfollow
    have htop : place ≠ [] := fun heq => hbeside (hplace ▸ heq ▸ List.nil_prefix)
    refine h.put_left (hplace ▸ hout) (fun habove => absurd (hplace ▸ habove) hbeside)
      (h.tree.put (fun _ => hfolder) ?_)
    rintro (hfolder | hnil)
    · exact absurd hfolder hfree
    · exact absurd hnil htop

end Alike

end Disk

/-! ## Archives -/

theorem Component.isName_encode (name : String) : Disk.IsName (encode name) := by
  have hname := decode?_encode name
  refine ⟨fun hidle => ?_, fun hup => ?_⟩
  · rw [Disk.isIdle, Bool.or_eq_true, decide_eq_true_eq, decide_eq_true_eq] at hidle
    rcases hidle with heq | heq <;> rw [heq] at hname <;> cases hname
  · rw [hup] at hname
    cases hname

namespace Archive

variable (a : Archive)

/-- The place of a session's folder. -/
def sessionPlace (file session : String) : Place := Disk.target [] (a.sessionDir file session)

theorem sessionDir_eq (file session : String) : a.sessionDir file session =
    a.inside [] ++ [Component.encode file, Component.encode session] := by
  rw [sessionDir, inside, Disk.join, inside, Disk.join, List.append_nil]

theorem statePath_eq (file session : String) :
    a.statePath file session = a.sessionDir file session ++ [stateFile] := by
  rw [statePath, sessionDir, inside, Disk.join, inside, Disk.join, List.append_assoc]
  rfl

theorem isName_stateFile : Disk.IsName stateFile := ⟨by decide, by decide⟩

theorem isName_of_mem {file session n : String}
    (hn : n ∈ [Component.encode file, Component.encode session]) : Disk.IsName n := by
  rcases List.mem_pair.mp hn with rfl | rfl <;> exact Component.isName_encode _

theorem sessionPlace_eq (file session : String) : a.sessionPlace file session =
    Disk.target [] (a.inside []) ++ [Component.encode file, Component.encode session] := by
  rw [sessionPlace, sessionDir_eq, Disk.target_append _ fun n => isName_of_mem]

theorem target_statePath (file session : String) :
    Disk.target [] (a.statePath file session) = a.sessionPlace file session ++ [stateFile] := by
  rw [statePath_eq, Disk.target_append [stateFile]
    fun n hn => List.mem_singleton.mp hn ▸ isName_stateFile, sessionPlace]

theorem passable_sessionDir {d : Disk} (h : d.Passable [] (a.inside [])) (file session : String) :
    d.Passable [] (a.sessionDir file session) := by
  rw [sessionDir_eq]
  exact h.append _ (fun n => isName_of_mem) _

/-- Sessions have folders of their own, none of which lies in another. -/
theorem not_prefix_sessionPlace {file name other session : String}
    (hne : (other, session) ≠ (file, name)) (more : List String) :
    ¬ a.sessionPlace file name <+: a.sessionPlace other session ++ more := by
  intro hprefix
  have hlength : (a.sessionPlace file name).length = (a.sessionPlace other session).length := by
    rw [sessionPlace_eq, sessionPlace_eq, List.length_append, List.length_append]
    rfl
  have heq := (List.prefix_of_prefix_length_le hprefix (List.prefix_append ..)
    (Nat.le_of_eq hlength)).eq_of_length hlength
  rw [sessionPlace_eq, sessionPlace_eq] at heq
  have hparts := List.append_cancel_left heq
  rw [List.cons.injEq, List.cons.injEq] at hparts
  exact hne (Prod.ext (Component.encode_inj hparts.1.symm) (Component.encode_inj hparts.2.1.symm))

variable {a} {d d' : Disk} {file name : String}

theorem covers_saveState {session : String} {state : Snapshot} {e : Disk}
    {outcome : Except Fault Unit}
    (h : (a.saveState file session state).run.run d = (outcome, e)) : e.Covers d := by
  rw [saveState, OnDisk.run_bind] at h
  rcases hfolders : (Disk.makeFolders (a.sessionDir file session)).run.run d with ⟨fault | u, e₁⟩
  · rw [hfolders] at h
    cases h
    exact (Disk.makeFolders_again hfolders).1
  · rw [hfolders] at h
    exact (Disk.write_again h).1.trans (Disk.makeFolders_again hfolders).1

/-- A session's state is stored on both disks, or refused for the same reason. -/
theorem saveState_both (h : Disk.Alike (a.sessionPlace file name) d d')
    (hpass : d.Passable [] (a.inside [])) (hpass' : d'.Passable [] (a.inside []))
    (state : Snapshot) :
    ∃ outcome e e', (a.saveState file name state).run.run d = (outcome, e) ∧
      (a.saveState file name state).run.run d' = (outcome, e') ∧
      Disk.Alike (a.sessionPlace file name) e e' := by
  obtain ⟨outcome, e, e', hrun, hrun', halike, hthere⟩ := h.makeFolders_both
    (a.passable_sessionDir hpass file name) (a.passable_sessionDir hpass' file name) rfl
  simp only [saveState, OnDisk.run_bind, hrun, hrun']
  cases outcome with
  | error fault => exact ⟨_, _, _, rfl, rfl, halike⟩
  | ok u =>
    rw [statePath_eq]
    exact halike.write_both
      (a.passable_sessionDir (hpass.of_covers (Disk.makeFolders_again hrun).1 _) file name)
      (a.passable_sessionDir (hpass'.of_covers (Disk.makeFolders_again hrun').1 _) file name) rfl
      isName_stateFile (hthere rfl) _

/-- Another session's state may be stored on the first disk alone. -/
theorem saveState_left {other session : String} {state : Snapshot} {e : Disk}
    {outcome : Except Fault Unit} (h : Disk.Alike (a.sessionPlace file name) d d')
    (hpass : d.Passable [] (a.inside [])) (hne : (other, session) ≠ (file, name))
    (hrun : (a.saveState other session state).run.run d = (outcome, e)) :
    Disk.Alike (a.sessionPlace file name) e d' := by
  rw [saveState, OnDisk.run_bind] at hrun
  have hout : ¬ a.sessionPlace file name <+: a.sessionPlace other session := by
    have hout := a.not_prefix_sessionPlace hne []
    rwa [List.append_nil] at hout
  rcases hfolders : (Disk.makeFolders (a.sessionDir other session)).run.run d with
    ⟨fault | u, e₁⟩
  · rw [hfolders] at hrun
    cases hrun
    exact h.makeFolders_left (a.passable_sessionDir hpass other session) hout hfolders
  · rw [hfolders] at hrun
    refine (h.makeFolders_left (a.passable_sessionDir hpass other session) hout
      hfolders).write_left ?_ ?_ hrun
    · rw [target_statePath]
      exact a.not_prefix_sessionPlace hne _
    · -- the file lies deeper than the folder does
      rw [target_statePath]
      intro hprefix
      have hlength := hprefix.length_le
      rw [List.length_append, sessionPlace_eq, sessionPlace_eq, List.length_append,
        List.length_append] at hlength
      exact absurd hlength (by simp)

/-- The same state is stored for the session on both disks. -/
theorem loadState_eq (h : Disk.Alike (a.sessionPlace file name) d d')
    (hpass : d.Passable [] (a.inside [])) (hpass' : d'.Passable [] (a.inside [])) :
    a.loadState file name d' = a.loadState file name d := by
  have hfind : d'.find? (a.statePath file name) = d.find? (a.statePath file name) := by
    rw [statePath_eq,
      Disk.find?_concat h.tree isName_stateFile (a.passable_sessionDir hpass file name),
      Disk.find?_concat h.tree' isName_stateFile (a.passable_sessionDir hpass' file name)]
    have hbelow := h.below (a.sessionPlace file name ++ [stateFile]) (List.prefix_append ..)
    rw [sessionPlace] at hbelow
    rw [hbelow]
  rw [loadState, loadState, Disk.has, Disk.has, Disk.read, Disk.read, hfind]

end Archive

/-! ## All stores -/

namespace Store

/-- A store that is not at odds with itself: on a disk, every folder lies in one, and the path of
the folder for sessions goes up only from folders that are there. -/
def Tidy : Store → Prop
  | disk a d => d.IsTree ∧ d.Passable [] (a.inside [])
  | _ => True

/-- Two stores that have the same for a session, and will whatever is stored for it. -/
inductive Alike (file name : String) : Store → Store → Prop
  /-- in memory, the texts for the session are the same -/
  | memory {m m' : MemoryStore} (h : m'.text? file name = m.text? file name) :
    Alike file name (memory m) (memory m')
  /-- on disks, the folders for the session are -/
  | disk {a : Archive} {d d' : Disk} (h : Disk.Alike (a.sessionPlace file name) d d')
    (hpass : d.Passable [] (a.inside [])) (hpass' : d'.Passable [] (a.inside [])) :
    Alike file name (disk a d) (disk a d')
  /-- nothing is stored at all -/
  | broken {fault : Fault} : Alike file name (broken fault) (broken fault)

namespace Alike

variable {file name : String} {st st' : Store}

theorem refl (h : st.Tidy) (file name : String) : Alike file name st st := by
  cases st with
  | memory m => exact .memory rfl
  | disk a d => exact .disk (.refl h.1 _) h.2 h.2
  | broken fault => exact .broken

/-- What is stored for the session is stored in both. -/
theorem save_both (h : Alike file name st st') (state : Snapshot) :
    Alike file name (st.save file name state).2 (st'.save file name state).2 := by
  cases h with
  | @memory m m' _ =>
    refine .memory ?_
    rw [MemoryStore.save, MemoryStore.save, m.text?_putText_self, m'.text?_putText_self]
  | @disk a d d' h hpass hpass' =>
    obtain ⟨outcome, e, e', hrun, hrun', halike⟩ := Archive.saveState_both h hpass hpass' state
    rw [save, save, onDisk, onDisk, hrun, hrun']
    exact .disk halike (hpass.of_covers (Archive.covers_saveState hrun) _)
      (hpass'.of_covers (Archive.covers_saveState hrun') _)
  | broken => exact .broken

/-- What is stored for another session may be stored in the first alone. -/
theorem save_left (h : Alike file name st st') {other session : String}
    (hne : (other, session) ≠ (file, name)) (state : Snapshot) :
    Alike file name (st.save other session state).2 st' := by
  cases h with
  | @memory m m' h =>
    refine .memory ?_
    rw [MemoryStore.save, m.text?_putText_of_ne _ hne.symm, h]
  | @disk a d d' h hpass hpass' =>
    rcases hrun : (a.saveState other session state).run.run d with ⟨outcome, e⟩
    rw [save, onDisk, hrun]
    exact .disk (Archive.saveState_left h hpass hne hrun)
      (hpass.of_covers (Archive.covers_saveState hrun) _) hpass'
  | broken => exact .broken

theorem load_eq (h : Alike file name st st') : st'.load file name = st.load file name := by
  cases h with
  | memory h => rw [load, load, MemoryStore.load, MemoryStore.load, h]
  | disk h hpass hpass' => exact Archive.loadState_eq h hpass hpass'
  | broken => rfl

end Alike

/-- The store after some states were stored for some sessions of some files, one after another. A
state that is refused is let be. -/
def saveAll (st : Store) (saves : List ((String × String) × Snapshot)) : Store :=
  saves.foldl (fun st save => (st.save save.1.1 save.1.2 save.2).2) st

theorem saveAll_concat (st : Store) (saves : List ((String × String) × Snapshot))
    (file session : String) (state : Snapshot) :
    st.saveAll (saves ++ [((file, session), state)]) =
      ((st.saveAll saves).save file session state).2 := List.foldl_concat ..

theorem alike_saveAll {file name : String} (saves : List ((String × String) × Snapshot)) :
    ∀ {st st' : Store}, Alike file name st st' → Alike file name (st.saveAll saves)
      (st'.saveAll (saves.filter fun save => save.1 = (file, name))) := by
  induction saves with
  | nil => exact fun h => h
  | cons save rest ih =>
    intro st st' h
    obtain ⟨⟨other, session⟩, state⟩ := save
    by_cases hsame : (other, session) = (file, name)
    · rw [List.filter_cons, if_pos (decide_eq_true hsame)]
      cases hsame
      exact ih (h.save_both state)
    · rw [List.filter_cons, if_neg fun heq => hsame (of_decide_eq_true heq)]
      exact ih (h.save_left hsame state)

/-- **Stores keep sessions apart.** What is stored for a session in the end is what would be if
nothing had been stored for any other. -/
theorem load_saveAll_filter {st : Store} (h : st.Tidy) (file name : String)
    (saves : List ((String × String) × Snapshot)) :
    (st.saveAll (saves.filter fun save => save.1 = (file, name))).load file name =
      (st.saveAll saves).load file name :=
  (alike_saveAll saves (.refl h file name)).load_eq

end Store

end Runbook
