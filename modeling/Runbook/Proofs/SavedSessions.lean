import Mathlib.Data.List.Sort
import Mathlib.Data.String.Basic
import Runbook.Proofs.DiskWork

/-!
# Sessions on disk

A session has a folder, with its history and its latest state in two files. What is stored for it
is the text of these files; storing it changes no other text, and removing it takes both away. What
is read back depends on these texts alone, as long as the paths of the archive can be followed.

* `Archive.historyPlace`, `Archive.statePlace`: where the files of a session lie
* `Archive.text?_saveSession`, `Archive.text?_saveState`, `Archive.text?_removeSession`: the texts
  afterwards
* `Archive.IsReached`, `Archive.find?_inside`: a disk on which the paths of an archive can be
  followed
* `Archive.mem_of_listSessions`: the sessions that are listed are those that have a history
* `Archive.loadSession_of_text?`: a session is read back from its files
-/

namespace Runbook

namespace Disk

/-- Looking at a path shows what lies where it leads. -/
def Finds (d : Disk) (path : List String) : Prop := d.find? path = d.at? (target [] path)

/-- What was written can be put to the disk. -/
theorem fits_of_write {d e : Disk} {path : List String} {text : String}
    (h : (write path text).run.run d = (.ok (), e)) : fits path = true :=
  fits_of_follow? (at?_write h).2.1

/-- The names in a folder can be listed. -/
theorem exists_list {d : Disk} {path : List String} (h : d.find? path = some .folder) :
    ∃ names, d.list path = .ok names := by
  obtain ⟨place, hfollow, hplace⟩ := Option.bind_eq_some_iff.mp h
  rw [list, folder, hfollow]
  simp only [hplace, if_true]
  exact ⟨_, rfl⟩

/-- A file cannot be listed. -/
theorem list_of_file {d : Disk} {path : List String} {text : String}
    (h : d.find? path = some (.file text)) : d.list path = .error .disk := by
  obtain ⟨place, hfollow, hplace⟩ := Option.bind_eq_some_iff.mp h
  have hfile : ¬ d.at? place = some .folder := by
    rw [hplace]
    exact fun heq => nomatch heq
  rw [list, folder, hfollow]
  simp only [if_neg hfile]
  rfl

end Disk

namespace Archive

variable {a : Archive} {d e : Disk} {file session : String}

/-! ## Places -/

/-- The place of the archive's folder. -/
def root (a : Archive) : Place := Disk.target [] (a.inside [])

/-- The place of a file's folder. -/
def filePlace (a : Archive) (file : String) : Place := a.root ++ [Component.encode file]

/-- The place of a session's history. -/
def historyPlace (a : Archive) (file session : String) : Place :=
  a.sessionPlace file session ++ [sessionFile]

/-- The place of a session's state. -/
def statePlace (a : Archive) (file session : String) : Place :=
  a.sessionPlace file session ++ [stateFile]

/-- The archive in the usual folder. -/
def usual : Archive := ⟨".sessions"⟩

theorem isName_sessionFile : Disk.IsName sessionFile := ⟨by decide, by decide⟩

theorem inside_eq (a : Archive) (names : List String) : a.inside names = a.inside [] ++ names := by
  rw [inside, Disk.join, inside, Disk.join, List.append_nil]

theorem target_inside {names : List String} (hnames : ∀ n ∈ names, Disk.IsName n) :
    Disk.target [] (a.inside names) = a.root ++ names := by
  rw [inside_eq, Disk.target_append names hnames, root]

theorem sessionPlace_eq_root (a : Archive) (file session : String) : a.sessionPlace file session =
    a.root ++ [Component.encode file, Component.encode session] := a.sessionPlace_eq file session

theorem target_historyPath (a : Archive) (file session : String) :
    Disk.target [] (a.historyPath file session) = a.historyPlace file session := by
  have hnames : ∀ n ∈ [Component.encode file, Component.encode session, sessionFile],
      Disk.IsName n := by
    simp [Component.isName_encode, isName_sessionFile]
  rw [historyPath, target_inside hnames, historyPlace, sessionPlace_eq_root, List.append_assoc]
  rfl

/-- Files of two sessions do not lie at one place. -/
theorem session_of_place {other name x y : String}
    (h : a.sessionPlace other name ++ [x] = a.sessionPlace file session ++ [y]) :
    (other, name) = (file, session) := by
  by_contra hne
  refine a.not_prefix_sessionPlace hne [x] ?_
  rw [h]
  exact List.prefix_append ..

theorem statePlace_inj {other name : String}
    (h : a.statePlace other name = a.statePlace file session) :
    (other, name) = (file, session) := session_of_place h

theorem historyPlace_inj {other name : String}
    (h : a.historyPlace other name = a.historyPlace file session) :
    (other, name) = (file, session) := session_of_place h

theorem historyPlace_ne_statePlace {other name : String} :
    a.historyPlace other name ≠ a.statePlace file session := by
  intro h
  have hlast := congrArg List.getLast? h
  rw [historyPlace, statePlace, List.getLast?_concat, List.getLast?_concat] at hlast
  exact absurd (Option.some.inj hlast) (by decide)

/-! ## What is stored and removed -/

/-- A state that is stored is a text at its place, and no other text changes. -/
theorem text?_saveState {state : Snapshot}
    (h : (a.saveState file session state).run.run d = (.ok (), e)) (place : Place) :
    e.text? place = if place = a.statePlace file session then some state.pretty
      else d.text? place := by
  obtain ⟨_, d₁, hfolders, hwrite⟩ := OnDisk.exists_of_bind h
  rw [Disk.text?_write hwrite, target_statePath, ← statePlace, Disk.text?_makeFolders hfolders]

theorem keeps_saveState (a : Archive) (file session : String) (state : Snapshot) :
    OnDisk.Keeps Disk.IsSound (a.saveState file session state) :=
  .bind (Disk.keeps_makeFolders _) fun _ => Disk.keeps_write ..

/-- The history of a session as it is stored. -/
def historyOf (s : Session) (now : Instant) : SessionRecord where
  version := SessionRecord.currentVersion
  savedAt := now
  lastUpdate := s.lastUpdate
  executions := s.executions

/-- The steps in which a session is stored. -/
theorem exists_of_saveSession {s : Session} {now : Instant}
    (h : (a.saveSession file s now).run.run d = (.ok (), e)) :
    ∃ d₁ d₂, (Disk.makeFolders (a.sessionDir file s.id)).run.run d = (.ok (), d₁) ∧
      (Disk.write (a.historyPath file s.id) (historyOf s now).toJson.pretty).run.run d₁ =
        (.ok (), d₂) ∧
      (a.saveState file s.id s.overall).run.run d₂ = (.ok (), e) := by
  obtain ⟨_, d₁, hfolders, h⟩ := OnDisk.exists_of_bind h
  obtain ⟨_, d₂, hwrite, hstate⟩ := OnDisk.exists_of_bind h
  exact ⟨d₁, d₂, hfolders, hwrite, hstate⟩

/-- A session that is stored is two texts at their places, and no other text changes. -/
theorem text?_saveSession {s : Session} {now : Instant}
    (h : (a.saveSession file s now).run.run d = (.ok (), e)) (place : Place) :
    e.text? place = if place = a.statePlace file s.id then some s.overall.pretty
      else if place = a.historyPlace file s.id then some (historyOf s now).toJson.pretty
      else d.text? place := by
  obtain ⟨d₁, d₂, hfolders, hwrite, hstate⟩ := exists_of_saveSession h
  rw [text?_saveState hstate, Disk.text?_write hwrite, target_historyPath,
    Disk.text?_makeFolders hfolders]

/-- The paths of a session that is stored are not too long. -/
theorem fits_of_saveSession {s : Session} {now : Instant}
    (h : (a.saveSession file s now).run.run d = (.ok (), e)) :
    Disk.fits (a.historyPath file s.id) = true ∧ Disk.fits (a.statePath file s.id) = true := by
  obtain ⟨d₁, d₂, -, hwrite, hstate⟩ := exists_of_saveSession h
  obtain ⟨_, d₃, -, hwrite'⟩ := OnDisk.exists_of_bind hstate
  exact ⟨Disk.fits_of_write hwrite, Disk.fits_of_write hwrite'⟩

theorem keeps_saveSession (a : Archive) (file : String) (s : Session) (now : Instant) :
    OnDisk.Keeps Disk.IsSound (a.saveSession file s now) :=
  .bind (Disk.keeps_makeFolders _) fun _ => .bind (Disk.keeps_write ..) fun _ =>
    keeps_saveState ..

theorem run_removeSession (a : Archive) (file session : String) (d : Disk) :
    (a.removeSession file session).run.run d =
      if d.has (a.sessionDir file session) then
        (Disk.removeAll (a.sessionDir file session)).run.run d
      else (.ok (), d) := by
  have hget : (get : OnDisk Disk).run.run d = (.ok d, d) := rfl
  rw [removeSession, OnDisk.run_bind, hget]
  simp only
  split <;> rfl

/-- A session that is removed leaves no text, and no other text changes. -/
theorem text?_removeSession (htree : d.IsTree) (hfinds : d.Finds (a.sessionDir file session))
    (h : (a.removeSession file session).run.run d = (.ok (), e)) (place : Place) :
    e.text? place = if a.sessionPlace file session <+: place then none else d.text? place := by
  rw [run_removeSession] at h
  split at h
  · exact Disk.text?_removeAll h place
  · rename_i hnothing
    cases h
    split
    · -- where there is no folder nothing lies in it
      rename_i hin
      rw [Disk.has, Option.not_isSome_iff_eq_none, hfinds] at hnothing
      rw [Disk.text?]
      by_cases heq : a.sessionPlace file session = place
      · rw [← heq, sessionPlace, hnothing]
      · cases hat : d.at? place with
        | none => rfl
        | some entry =>
          have hfolder := htree.folder_of_prefix hin heq (by rw [hat]; exact Option.some_ne_none _)
          rw [sessionPlace, hnothing] at hfolder
          cases hfolder
    · rfl

theorem keeps_removeSession (a : Archive) (file session : String) :
    OnDisk.Keeps Disk.IsSound (a.removeSession file session) := by
  intro d e outcome h hd
  rw [run_removeSession] at h
  split at h
  · exact Disk.keeps_removeAll _ h hd
  · cases h
    exact hd

/-- What is left after a session was removed was there before. -/
theorem covers_of_removeSession {outcome : Except Fault Unit}
    (h : (a.removeSession file session).run.run d = (outcome, e)) : d.Covers e := by
  rw [run_removeSession] at h
  split at h
  · exact Disk.covers_of_removeAll h
  · cases h
    exact .rfl

/-! ## What is read back -/

/-- What is read back as the state of a session, if it can be looked at, is the text at its
place. -/
theorem loadState_eq_text? (hfinds : d.Finds (a.statePath file session))
    (hok : a.loadState file session d ≠ .error .disk) :
    a.loadState file session d = match d.text? (a.statePlace file session) with
      | some text => (Snapshot.parse session text).map some
      | none => .ok none := by
  rw [Disk.Finds, target_statePath, ← statePlace] at hfinds
  rw [loadState, Disk.has, Disk.read, hfinds] at hok ⊢
  rw [Disk.text?]
  cases hat : d.at? (a.statePlace file session) with
  | none => rfl
  | some entry =>
    cases entry with
    | folder =>
      rw [hat] at hok
      exact absurd rfl hok
    | file text =>
      simp only [Option.isSome_some, if_true]
      show (Snapshot.parse session text >>= fun state => Except.ok (some state)) = _
      cases Snapshot.parse session text <;> rfl

/-- It is refused only where a folder lies in its place. -/
theorem loadState_ne_disk (hfinds : d.Finds (a.statePath file session))
    (hplace : d.at? (a.statePlace file session) ≠ some .folder) :
    a.loadState file session d ≠ .error .disk := by
  rw [Disk.Finds, target_statePath, ← statePlace] at hfinds
  rw [loadState, Disk.has, Disk.read, hfinds]
  cases hat : d.at? (a.statePlace file session) with
  | none => rintro ⟨⟩
  | some entry =>
    cases entry with
    | folder => exact absurd hat hplace
    | file text =>
      simp only [Option.isSome_some, if_true]
      show (Snapshot.parse session text >>= fun state => Except.ok (some state)) ≠ _
      rw [Snapshot.parse]
      cases Snapshot.parse? text <;> rintro ⟨⟩

/-- The disk is as it should be, and the archive's path goes up only from folders that are there. -/
structure IsReached (a : Archive) (d : Disk) : Prop where
  /-- folders lie in folders, and each place is taken once -/
  sound : d.IsSound
  /-- every folder from which the path goes up is there -/
  way : d.Passable [] (a.inside [])

theorem fits_sessionDir (h : Disk.fits (a.historyPath file session) = true) :
    Disk.fits (a.sessionDir file session) = true := by
  refine Disk.fits_of_append (?_ : Disk.fits (_ ++ [sessionFile]) = true)
  rw [sessionDir, inside_eq, List.append_assoc]
  rwa [historyPath, inside_eq] at h

theorem fits_fileDir (h : Disk.fits (a.historyPath file session) = true) :
    Disk.fits (a.fileDir file) = true := by
  refine Disk.fits_of_append (?_ : Disk.fits (_ ++ [Component.encode session, sessionFile]) = true)
  rw [fileDir, inside_eq, List.append_assoc]
  rwa [historyPath, inside_eq] at h

namespace IsReached

/-- What lies at the end of a path in the archive is what lies there, unless the path is too
long. -/
theorem find?_inside (h : a.IsReached d) {names : List String}
    (hnames : ∀ n ∈ names, Disk.IsName n) (hne : names ≠ []) :
    d.find? (a.inside names) =
      if Disk.fits (a.inside names) then d.at? (a.root ++ names) else none := by
  rw [inside_eq, Disk.find?_append h.sound.tree h.way hnames hne, root]

theorem find?_fileDir (h : a.IsReached d) (hfits : Disk.fits (a.fileDir file) = true) :
    d.find? (a.fileDir file) = d.at? (a.filePlace file) := by
  rw [fileDir, h.find?_inside (by simp [Component.isName_encode]) (List.cons_ne_nil _ _),
    ← fileDir, if_pos hfits, filePlace]

theorem finds_sessionDir (h : a.IsReached d)
    (hfits : Disk.fits (a.sessionDir file session) = true) :
    d.Finds (a.sessionDir file session) := by
  rw [Disk.Finds, sessionDir,
    h.find?_inside (by simp [Component.isName_encode]) (List.cons_ne_nil _ _), ← sessionDir,
    if_pos hfits, ← sessionPlace, sessionPlace_eq_root]

theorem find?_historyPath (h : a.IsReached d) (file session : String) :
    d.find? (a.historyPath file session) =
      if Disk.fits (a.historyPath file session) then d.at? (a.historyPlace file session)
      else none := by
  rw [historyPath, h.find?_inside (by simp [Component.isName_encode, isName_sessionFile])
    (List.cons_ne_nil _ _), historyPlace, sessionPlace_eq_root, List.append_assoc]
  rfl

theorem find?_statePath (h : a.IsReached d) (file session : String) :
    d.find? (a.statePath file session) =
      if Disk.fits (a.statePath file session) then d.at? (a.statePlace file session)
      else none := by
  rw [statePath, h.find?_inside (by simp [Component.isName_encode, isName_stateFile])
    (List.cons_ne_nil _ _), statePlace, sessionPlace_eq_root, List.append_assoc]
  rfl

/-- A session has a history if there is a text at its place. -/
theorem hasFile_historyPath (h : a.IsReached d) (file session : String) :
    d.hasFile (a.historyPath file session) = true ↔
      Disk.fits (a.historyPath file session) = true ∧
        d.text? (a.historyPlace file session) ≠ none := by
  rw [Disk.hasFile, h.find?_historyPath, Disk.text?]
  by_cases hfits : Disk.fits (a.historyPath file session) = true
  · rw [if_pos hfits]
    rcases d.at? (a.historyPlace file session) with _ | (text | _) <;> simp [hfits]
  · rw [if_neg hfits]
    simp [hfits]

/-- Where a history lies there is a folder for the session. -/
theorem folder_of_hasFile (h : a.IsReached d)
    (hhas : d.hasFile (a.historyPath file session) = true) :
    d.at? (a.sessionPlace file session) = some .folder ∧
      d.find? (a.fileDir file) = some .folder := by
  obtain ⟨hfits, htext⟩ := (h.hasFile_historyPath file session).mp hhas
  have hthere : d.at? (a.historyPlace file session) ≠ none := by
    intro hnone
    rw [Disk.text?, hnone] at htext
    exact htext rfl
  have habove : ∀ {p : Place} {more : List String}, a.historyPlace file session = p ++ more →
      more ≠ [] → d.at? p = some .folder := by
    intro p more heq hmore
    refine h.sound.tree.folder_of_prefix (heq ▸ List.prefix_append p more) (fun hsame => ?_) hthere
    rw [heq] at hsame
    exact hmore (List.append_cancel_left (hsame.symm.trans (List.append_nil p).symm))
  have hfile : a.historyPlace file session =
      a.filePlace file ++ [Component.encode session, sessionFile] := by
    rw [historyPlace, sessionPlace_eq_root, filePlace, List.append_assoc, List.append_assoc]
    rfl
  refine ⟨habove rfl (List.cons_ne_nil _ _), ?_⟩
  rw [h.find?_fileDir (fits_fileDir hfits), habove hfile (List.cons_ne_nil _ _)]

end IsReached

/-- A session is read back from the texts in its folder. -/
theorem loadSession_of_text? (h : a.IsReached d)
    (hfits : Disk.fits (a.historyPath file session) = true)
    (hfits' : Disk.fits (a.statePath file session) = true) {history latest : String}
    {r : SessionRecord} {state : Snapshot}
    (hhistory : d.text? (a.historyPlace file session) = some history)
    (hrecord : (Document.read? history).bind SessionRecord.ofDocument? = some r)
    (hlatest : d.text? (a.statePlace file session) = some latest)
    (hstate : Snapshot.parse? latest = some state) :
    a.loadSession file session d = .ok (some {
      id := session, executions := r.executions, lastUpdate := r.lastUpdate,
      overall := state }) := by
  rw [Disk.text?_eq_some_iff] at hhistory hlatest
  have hfind := h.find?_historyPath file session
  rw [if_pos hfits, hhistory] at hfind
  have hfind' := h.find?_statePath file session
  rw [if_pos hfits', hlatest] at hfind'
  have hload : a.loadState file session d = .ok (some state) := by
    rw [loadState, Disk.has, Disk.read, hfind', Option.isSome_some, if_pos rfl]
    show (Snapshot.parse session latest >>= fun state => Except.ok (some state)) = _
    rw [Snapshot.parse, hstate]
    rfl
  have hshown : a.stateOrEmpty file session d = state := by
    unfold stateOrEmpty
    rw [hload]
  have hread : d.read (a.historyPath file session) = .ok history := by rw [Disk.read, hfind]
  rw [loadSession, Disk.has, hfind, Option.isSome_some, if_pos rfl, hread, hshown]
  simp only [bind, Except.bind, hrecord]
  rfl

/-! ## What is listed -/

/-- The sessions that are listed are in order, each once, and they are those with a history. -/
theorem mem_of_listSessions (h : a.IsReached d) {names : List String}
    (hlist : a.listSessions file d = .ok names) :
    names.Pairwise (· ≤ ·) ∧ names.Nodup ∧
      ∀ name, name ∈ names ↔ d.hasFile (a.historyPath file name) = true := by
  rw [listSessions] at hlist
  split at hlist
  · cases hfolders : d.list (a.fileDir file) with
    | error fault =>
      rw [hfolders] at hlist
      cases hlist
    | ok folders =>
      rw [hfolders] at hlist
      obtain ⟨hnodup, hmem⟩ := Disk.list_spec h.sound hfolders
      obtain rfl := (Except.ok.inj hlist).symm
      refine ⟨List.pairwise_mergeSort' (· ≤ ·) _, ?_, fun name => ?_⟩
      · refine (List.mergeSort_perm _ _).nodup_iff.mpr
          ((hnodup.filter _).filterMap fun x y name hx hy => ?_)
        exact (Component.decode?_eq_some_iff.mp hx).trans (Component.decode?_eq_some_iff.mp hy).symm
      · rw [List.mem_mergeSort, List.mem_filterMap]
        constructor
        · rintro ⟨folder, hfolder, hdecode⟩
          rw [Component.decode?_eq_some_iff.mp hdecode] at hfolder
          exact (List.mem_filter.mp hfolder).2
        · intro hhas
          refine ⟨Component.encode name, List.mem_filter.mpr ⟨(hmem _).mpr ?_, hhas⟩,
            Component.decode?_encode name⟩
          rw [fileDir, target_inside (by simp [Component.isName_encode]), List.append_assoc]
          have hfolder := (h.folder_of_hasFile hhas).1
          rw [sessionPlace_eq_root] at hfolder
          show d.at? (a.root ++ [Component.encode file, Component.encode name]) ≠ none
          rw [hfolder]
          exact Option.some_ne_none _
  · rename_i hnothing
    cases hlist
    refine ⟨.nil, .nil, fun name => ⟨fun hmem => absurd hmem List.not_mem_nil, fun hhas => ?_⟩⟩
    rw [Disk.has, (h.folder_of_hasFile hhas).2] at hnothing
    exact absurd rfl hnothing

/-- Whether sessions can be listed depends on what lies where the folder of the file should. -/
theorem listSessions_of_none (h : d.find? (a.fileDir file) = none) :
    a.listSessions file d = .ok [] := by
  have hhas : ¬ d.has (a.fileDir file) = true := by
    rw [Disk.has, h]
    exact Bool.false_ne_true
  rw [listSessions, if_neg hhas]
  rfl

theorem exists_listSessions (h : d.find? (a.fileDir file) = some .folder) :
    ∃ names, a.listSessions file d = .ok names := by
  obtain ⟨folders, hlist⟩ := Disk.exists_list h
  rw [listSessions, Disk.has, h, Option.isSome_some, if_pos rfl, hlist]
  exact ⟨_, rfl⟩

theorem listSessions_of_file {text : String}
    (h : d.find? (a.fileDir file) = some (.file text)) :
    a.listSessions file d = .error .disk := by
  rw [listSessions, Disk.has, h, Option.isSome_some, if_pos rfl, Disk.list_of_file h]
  rfl

/-- Lists in order that have the same members, each once, are the same. -/
theorem eq_of_mem_iff {names names' : List String} (hsorted : names.Pairwise (· ≤ ·))
    (hsorted' : names'.Pairwise (· ≤ ·)) (hnodup : names.Nodup) (hnodup' : names'.Nodup)
    (hmem : ∀ name, name ∈ names ↔ name ∈ names') : names = names' :=
  List.Perm.eq_of_pairwise (fun _ _ _ _ => le_antisymm) hsorted hsorted'
    ((List.perm_ext_iff_of_nodup hnodup hnodup').mpr hmem)

/-- The names that are listed are those of the sessions with a history, whichever they are. -/
theorem listSessions_eq (h : a.IsReached d) (hfolder : d.find? (a.fileDir file) = some .folder)
    {names : List String} (hnodup : names.Nodup)
    (hnames : ∀ name, name ∈ names ↔ d.hasFile (a.historyPath file name) = true) :
    a.listSessions file d = .ok (names.mergeSort (· ≤ ·)) := by
  obtain ⟨listed, hlist⟩ := exists_listSessions hfolder
  obtain ⟨hsorted, hnodup', hmem⟩ := mem_of_listSessions h hlist
  rw [hlist, eq_of_mem_iff hsorted (List.pairwise_mergeSort' (· ≤ ·) names) hnodup'
    ((List.mergeSort_perm _ _).nodup_iff.mpr hnodup) fun name => ?_]
  rw [List.mem_mergeSort, hmem, hnames]

/-! ## What other files show -/

section Shown

variable (hsame : ∀ more, (∀ n ∈ more, Disk.IsName n) →
  e.find? (a.inside (Component.encode file :: more)) =
    d.find? (a.inside (Component.encode file :: more)))

include hsame

/-- Two disks on which all paths of a file show the same list the same sessions for it. -/
theorem listSessions_congr (h : a.IsReached d) (h' : a.IsReached e) :
    a.listSessions file e = a.listSessions file d := by
  have hdir : e.find? (a.fileDir file) = d.find? (a.fileDir file) :=
    hsame [] fun _ hn => absurd hn List.not_mem_nil
  rcases hfind : d.find? (a.fileDir file) with _ | (text | _)
  · rw [listSessions_of_none hfind, listSessions_of_none (hdir.trans hfind)]
  · rw [listSessions_of_file hfind, listSessions_of_file (hdir.trans hfind)]
  · obtain ⟨names, hlist⟩ := exists_listSessions hfind
    obtain ⟨names', hlist'⟩ := exists_listSessions (hdir.trans hfind)
    obtain ⟨hsorted, hnodup, hmem⟩ := mem_of_listSessions h hlist
    obtain ⟨hsorted', hnodup', hmem'⟩ := mem_of_listSessions h' hlist'
    have hhistory : ∀ name, e.hasFile (a.historyPath file name) =
        d.hasFile (a.historyPath file name) := by
      intro name
      have hpath := hsame [Component.encode name, sessionFile]
        (by simp [Component.isName_encode, isName_sessionFile])
      rw [← historyPath] at hpath
      rw [Disk.hasFile, Disk.hasFile, hpath]
    rw [hlist, hlist', eq_of_mem_iff hsorted' hsorted hnodup' hnodup fun name => ?_]
    rw [hmem', hmem, hhistory]

/-- They have the same state for a session. -/
theorem loadState_congr (session : String) :
    a.loadState file session e = a.loadState file session d := by
  have hpath := hsame [Component.encode session, stateFile]
    (by simp [Component.isName_encode, isName_stateFile])
  rw [← statePath] at hpath
  rw [loadState, loadState, Disk.has, Disk.has, Disk.read, Disk.read, hpath]

/-- They have the same session under a name. -/
theorem loadSession_congr (session : String) :
    a.loadSession file session e = a.loadSession file session d := by
  have hpath := hsame [Component.encode session, sessionFile]
    (by simp [Component.isName_encode, isName_sessionFile])
  rw [← historyPath] at hpath
  have hstate : a.stateOrEmpty file session e = a.stateOrEmpty file session d := by
    unfold stateOrEmpty
    rw [loadState_congr hsame]
  rw [loadSession, loadSession, Disk.has, Disk.has, Disk.read, Disk.read, hpath, hstate]

end Shown

end Archive

end Runbook
