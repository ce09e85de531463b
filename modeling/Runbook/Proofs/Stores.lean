import Runbook.Store

/-!
# Stores that keep what they are given

A store that does not refuse a state holds it afterwards, in memory and on a disk alike, and to
store it once more makes no difference.

* `Disk.read_of_write`: what was written is read back
* `Disk.Covers`: nothing was taken away
* `Disk.makeFolders_again`, `Disk.write_again`: the same work once more
* `Store.Holds`: the text of a state is stored for a session
* `Store.holds_save`: stored states are held
* `Store.save_save`: storing twice is storing once
-/

namespace Runbook

/-! ## Disks -/

/-- Work in two parts: what the first part did stays done if the second is refused. -/
theorem OnDisk.run_bind {α β : Type} (x : OnDisk α) (f : α → OnDisk β) (d : Disk) :
    (x >>= f).run.run d = match x.run.run d with
      | (.ok a, d) => (f a).run.run d
      | (.error fault, d) => (.error fault, d) := by
  show (match x d with | (outcome, d) => ExceptT.bindCont f outcome d) = _
  rcases h : x d with ⟨fault | a, d'⟩
  · have hrun : x.run.run d = (.error fault, d') := h
    rw [hrun]
    rfl
  · have hrun : x.run.run d = (.ok a, d') := h
    rw [hrun]
    rfl

namespace Disk

theorem at?_put (d : Disk) (place other : Place) (entry : Entry) :
    (d.put place entry).at? other = if other = place then some entry else d.at? other := by
  simp only [at?, put, List.find?_append, List.find?_filter]
  by_cases h : other = place
  · -- nothing of the old is left at that place
    have hnone : d.entries.find? (fun e => decide (decide (e.1 ≠ place) = true ∧
        decide (e.1 = other) = true)) = none := by
      rw [List.find?_eq_none]
      intro e _
      simp [h]
    rw [hnone, if_pos h, h]
    simp
  · -- what was put is not at this place, and nothing else was taken away
    have hlast : [(place, entry)].find? (fun e => decide (e.1 = other)) = none := by
      simp [Ne.symm h]
    rw [hlast, Option.or_none, if_neg h]
    congr 2
    funext e
    by_cases he : e.1 = other
    · simp [he, h]
    · simp [he]

/-- A file put where no folder was stands in nobody's way. -/
theorem walk?_put {d : Disk} {place : Place} (h : d.at? place ≠ some .folder) (text : String)
    (path : List String) : ∀ {here goal : Place}, d.walk? here path = some goal →
      (d.put place (.file text)).walk? here path = some goal := by
  induction path with
  | nil => exact fun hgoal => hgoal
  | cons name rest ih =>
    intro here goal hgoal
    rw [walk?] at hgoal ⊢
    by_cases hidle : isIdle name = true
    · rw [if_pos hidle] at hgoal ⊢
      exact ih hgoal
    rw [if_neg hidle] at hgoal ⊢
    by_cases hup : name = ".."
    · rw [if_pos hup] at hgoal ⊢
      exact ih hgoal
    rw [if_neg hup] at hgoal ⊢
    by_cases hlong : isTooLong name = true
    · rw [if_pos hlong] at hgoal
      cases hgoal
    rw [if_neg hlong] at hgoal ⊢
    by_cases hlast : rest.isEmpty = true
    · simp only [if_pos hlast] at hgoal ⊢
      exact hgoal
    simp only [if_neg hlast] at hgoal ⊢
    by_cases hfolder : d.at? (here ++ [name]) = some .folder
    · -- what is put is not at a folder's place
      have hne : here ++ [name] ≠ place := fun heq => h (heq ▸ hfolder)
      rw [if_pos hfolder] at hgoal
      rw [at?_put, if_neg hne, if_pos hfolder]
      exact ih hgoal
    · rw [if_neg hfolder] at hgoal
      cases hgoal

/-- Where a folder was there still is one, and where a file was there still is a file. Texts may
differ, and more may lie on the disk. -/
structure Covers (d' d : Disk) : Prop where
  /-- folders stay -/
  folder : ∀ {place : Place}, d.at? place = some .folder → d'.at? place = some .folder
  /-- files stay -/
  file : ∀ {place : Place} {text : String}, d.at? place = some (.file text) →
    ∃ text', d'.at? place = some (.file text')

theorem Covers.rfl {d : Disk} : d.Covers d := ⟨id, fun h => ⟨_, h⟩⟩

theorem Covers.trans {d d' d'' : Disk} (h' : d''.Covers d') (h : d'.Covers d) : d''.Covers d :=
  ⟨fun hd => h'.folder (h.folder hd), fun hd => (h.file hd).elim fun _ hd' => h'.file hd'⟩

/-- What is put where nothing was covers everything. -/
theorem covers_put_of_none {d : Disk} {place : Place} (h : d.at? place = none) (entry : Entry) :
    (d.put place entry).Covers d := by
  have hsame : ∀ {other : Place} {e : Entry}, d.at? other = some e →
      (d.put place entry).at? other = some e := by
    intro other e he
    rw [at?_put, if_neg fun heq => ?_, he]
    rw [heq, h] at he
    cases he
  exact ⟨hsame, fun hd => ⟨_, hsame hd⟩⟩

/-- A file put where no folder was covers everything. -/
theorem covers_put_file {d : Disk} {place : Place} (h : d.at? place ≠ some .folder)
    (text : String) : (d.put place (.file text)).Covers d := by
  refine ⟨fun {other} hd => ?_, fun {other old} hd => ?_⟩
  · have hne : other ≠ place := fun heq => h (heq ▸ hd)
    rw [at?_put, if_neg hne, hd]
  · rw [at?_put]
    split
    · exact ⟨text, rfl⟩
    · exact ⟨old, hd⟩

theorem put_put (d : Disk) (place : Place) (entry : Entry) :
    (d.put place entry).put place entry = d.put place entry := by
  simp [put, List.filter_append, List.filter_filter]

/-- One more part of a path along which folders are made. -/
theorem run_makeFoldersFrom_cons (here : Place) (name : String) (rest : List String) (d : Disk) :
    (makeFoldersFrom here (name :: rest)).run.run d =
      if isIdle name then (makeFoldersFrom here rest).run.run d
      else if name = ".." then (makeFoldersFrom here.dropLast rest).run.run d
      else if isTooLong name then (.error .disk, d)
      else match d.at? (here ++ [name]) with
        | some .folder => (makeFoldersFrom (here ++ [name]) rest).run.run d
        | some (.file _) => (.error .disk, d)
        | none => (makeFoldersFrom (here ++ [name]) rest).run.run
            (d.put (here ++ [name]) .folder) := by
  have hget : (get : OnDisk Disk).run.run d = (.ok d, d) := rfl
  rw [makeFoldersFrom]
  split
  · rfl
  split
  · rfl
  split
  · rfl
  rw [OnDisk.run_bind, hget]
  simp only
  rcases d.at? (here ++ [name]) with _ | (text | _) <;> rfl

/-- Making folders takes nothing away. Wherever all is as it was afterwards, folders and files that
is, making them again ends in the same way and changes nothing. -/
theorem makeFoldersFrom_again (path : List String) :
    ∀ {here : Place} {d d' : Disk} {outcome : Except Fault Unit},
      (makeFoldersFrom here path).run.run d = (outcome, d') → d'.Covers d ∧
        ∀ {d₂ : Disk}, d₂.Covers d' → (makeFoldersFrom here path).run.run d₂ = (outcome, d₂) := by
  induction path with
  | nil =>
    rintro here d d' outcome ⟨⟩
    exact ⟨.rfl, fun _ => rfl⟩
  | cons name rest ih =>
    intro here d d' outcome h
    simp only [run_makeFoldersFrom_cons] at h ⊢
    by_cases hidle : isIdle name = true
    · simp only [if_pos hidle] at h ⊢
      exact ih h
    simp only [if_neg hidle] at h ⊢
    by_cases hup : name = ".."
    · simp only [if_pos hup] at h ⊢
      exact ih h
    simp only [if_neg hup] at h ⊢
    by_cases hlong : isTooLong name = true
    · simp only [if_pos hlong] at h ⊢
      cases h
      exact ⟨.rfl, fun _ => rfl⟩
    simp only [if_neg hlong] at h ⊢
    cases hat : d.at? (here ++ [name]) with
    | none =>
      simp only [hat] at h
      obtain ⟨hmore, hagain⟩ := ih h
      refine ⟨hmore.trans (covers_put_of_none hat _), fun {d₂} hd₂ => ?_⟩
      -- the folder that was made is there from then on
      have hmade : (d.put (here ++ [name]) .folder).at? (here ++ [name]) = some .folder := by
        rw [at?_put, if_pos rfl]
      rw [hd₂.folder (hmore.folder hmade)]
      exact hagain hd₂
    | some entry =>
      cases entry with
      | folder =>
        simp only [hat] at h
        obtain ⟨hmore, hagain⟩ := ih h
        refine ⟨hmore, fun {d₂} hd₂ => ?_⟩
        rw [hd₂.folder (hmore.folder hat)]
        exact hagain hd₂
      | file text =>
        simp only [hat] at h
        cases h
        refine ⟨.rfl, fun {d₂} hd₂ => ?_⟩
        obtain ⟨text', hfile⟩ := hd₂.file hat
        rw [hfile]

/-- Before the folders along a path, the one at the top is made. -/
theorem run_makeFolders (path : List String) (d : Disk) :
    (makeFolders path).run.run d =
      if isSpeakable path then (makeFoldersFrom [] path).run.run
        (if d.at? [] = none then d.put [] .folder else d)
      else (.error .disk, d) := by
  have hget : (get : OnDisk Disk).run.run d = (.ok d, d) := rfl
  rw [makeFolders]
  split
  · rw [OnDisk.run_bind, hget]
    simp only
    split <;> rfl
  · rfl

theorem makeFolders_again {path : List String} {d d' : Disk} {outcome : Except Fault Unit}
    (h : (makeFolders path).run.run d = (outcome, d')) : d'.Covers d ∧
      ∀ {d₂ : Disk}, d₂.Covers d' → (makeFolders path).run.run d₂ = (outcome, d₂) := by
  simp only [run_makeFolders] at h ⊢
  by_cases hspeak : isSpeakable path = true
  · simp only [if_pos hspeak] at h ⊢
    by_cases htop : d.at? [] = none
    · rw [if_pos htop] at h
      obtain ⟨hmore, hagain⟩ := makeFoldersFrom_again path h
      refine ⟨hmore.trans (covers_put_of_none htop _), fun {d₂} hd₂ => ?_⟩
      have hmade : (d.put [] .folder).at? [] = some .folder := by rw [at?_put, if_pos rfl]
      rw [if_neg (by simp [hd₂.folder (hmore.folder hmade)])]
      exact hagain hd₂
    · rw [if_neg htop] at h
      obtain ⟨hmore, hagain⟩ := makeFoldersFrom_again path h
      refine ⟨hmore, fun {d₂} hd₂ => ?_⟩
      have hthere : d₂.at? [] ≠ none := by
        obtain ⟨entry, hentry⟩ := Option.ne_none_iff_exists'.mp htop
        cases entry with
        | folder => simp [(hd₂.trans hmore).folder hentry]
        | file text =>
          obtain ⟨text', htext⟩ := (hd₂.trans hmore).file hentry
          simp [htext]
      rw [if_neg hthere]
      exact hagain hd₂
  · simp only [if_neg hspeak] at h ⊢
    cases h
    exact ⟨.rfl, fun _ => rfl⟩

/-- Writing a file is refused and changes nothing, or it puts the text where the path leads, which
is in a folder and not a folder itself, and still leads afterwards. -/
theorem write_cases {d d' : Disk} {path : List String} {text : String}
    {outcome : Except Fault Unit} (h : (write path text).run.run d = (outcome, d')) :
    (outcome = .error .disk ∧ d' = d) ∨
      (outcome = .ok () ∧ ∃ place, d' = d.put place (.file text) ∧
        d'.follow? path = some place ∧ d.at? place ≠ some .folder ∧
        d.at? place.dropLast = some .folder) := by
  have hget : (get : OnDisk Disk).run.run d = (.ok d, d) := rfl
  rw [write, OnDisk.run_bind, hget] at h
  simp only at h
  cases hplace : d.follow? path with
  | none =>
    rw [hplace] at h
    cases h
    exact .inl ⟨rfl, rfl⟩
  | some place =>
    rw [hplace] at h
    simp only at h
    split at h
    · cases h
      exact .inl ⟨rfl, rfl⟩
    · rename_i hfree
      cases h
      simp only [Bool.or_eq_true, decide_eq_true_eq, not_or, Decidable.not_not] at hfree
      refine .inr ⟨rfl, place, rfl, ?_, hfree⟩
      -- the path still leads to the same place, as no folder was put over
      rw [follow?] at hplace ⊢
      split at hplace
      · rw [if_pos ‹_›]
        exact walk?_put hfree.1 text path hplace
      · cases hplace

/-- What was written to a file is read back from it. -/
theorem read_of_write {d d' : Disk} {path : List String} {text : String}
    (h : (write path text).run.run d = (.ok (), d')) : d'.read path = .ok text := by
  rcases write_cases h with ⟨hrefused, -⟩ | ⟨-, place, rfl, hfollow, -, -⟩
  · cases hrefused
  · rw [read, find?, hfollow, Option.bind_some, at?_put, if_pos rfl]

/-- Writing the same once more ends in the same way and changes nothing. -/
theorem write_again {d d' : Disk} {path : List String} {text : String}
    {outcome : Except Fault Unit} (h : (write path text).run.run d = (outcome, d')) :
    d'.Covers d ∧ (write path text).run.run d' = (outcome, d') := by
  rcases write_cases h with ⟨rfl, rfl⟩ | ⟨rfl, place, rfl, hfollow, hfile, hfolder⟩
  · exact ⟨.rfl, h⟩
  · refine ⟨covers_put_file hfile text, ?_⟩
    have hget : (get : OnDisk Disk).run.run (d.put place (.file text)) =
      (.ok (d.put place (.file text)), d.put place (.file text)) := rfl
    have habove : (d.put place (.file text)).at? place.dropLast = some .folder :=
      (covers_put_file hfile text).folder hfolder
    rw [write, OnDisk.run_bind, hget]
    simp only [hfollow, habove, at?_put, if_pos]
    show (Except.ok (), (d.put place (.file text)).put place (.file text)) = _
    rw [put_put]

end Disk

/-! ## Stores -/

namespace Store

/-- The text of a state is what is stored for a session. -/
def Holds (st : Store) (file session : String) (state : Snapshot) : Prop :=
  match st with
  | memory m => m.text? file session = some state.compact
  | disk a d => d.read (a.statePath file session) = .ok state.pretty
  | broken _ => False

/-- What a store does not refuse it holds. -/
theorem holds_save {st : Store} {file session : String} {state : Snapshot}
    (h : (st.save file session state).1 = .ok ()) :
    (st.save file session state).2.Holds file session state := by
  cases st with
  | memory m => exact m.text?_putText_self file session state.compact
  | disk a d =>
    rw [save, onDisk] at h ⊢
    rcases hrun : (a.saveState file session state).run.run d with ⟨outcome, d'⟩
    rw [hrun] at h
    obtain rfl : outcome = .ok () := h
    rw [Archive.saveState, OnDisk.run_bind] at hrun
    split at hrun
    · exact Disk.read_of_write hrun
    · cases hrun
  | broken fault => cases h

/-- Storing the same state once more ends in the same way and changes nothing, be it refused or
not. -/
theorem save_save (st : Store) (file session : String) (state : Snapshot) :
    (st.save file session state).2.save file session state = st.save file session state := by
  cases st with
  | memory m => simp [save, MemoryStore.save, MemoryStore.putText, MemoryStore.remove]
  | broken fault => rfl
  | disk a d =>
    have hagain : ∀ {outcome : Except Fault Unit} {d' : Disk},
        (a.saveState file session state).run.run d = (outcome, d') →
        (a.saveState file session state).run.run d' = (outcome, d') := by
      intro outcome d' h
      rw [Archive.saveState, OnDisk.run_bind] at h ⊢
      rcases hfolders : (Disk.makeFolders (a.sessionDir file session)).run.run d with
        ⟨fault | u, d₁⟩
      · rw [hfolders] at h
        cases h
        rw [(Disk.makeFolders_again hfolders).2 .rfl]
      · rw [hfolders] at h
        obtain ⟨hcovers, hwrite⟩ := Disk.write_again h
        rw [(Disk.makeFolders_again hfolders).2 hcovers]
        exact hwrite
    rcases h : (a.saveState file session state).run.run d with ⟨outcome, d'⟩
    simp only [save, onDisk, h, hagain h]

end Store

end Runbook
