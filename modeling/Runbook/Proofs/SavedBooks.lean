import Runbook.Proofs.Books
import Runbook.Proofs.Forms
import Runbook.Proofs.SavedSessions
import Runbook.Proofs.WrittenJson

/-!
# Books on disk

A book that is stored is read back: the same sessions in the same order, with the same primary
session if the book has one. What other books and earlier ones of the file left on the disk makes no
difference, and other files are read as before.

* `Archive.Left`: what work with an archive leaves on a disk
* `Archive.HoldsBook`, `Archive.holdsBook_saveBook`: the files of a book, and no other histories
* `Archive.HoldsBook.loadBook_eq`: they are read back
* `Archive.alike_saveBook`, `Archive.loadBook_congr`: other files keep what is stored for them
* `Archive.loadBook_saveBook`: all of this for a book that is stored
-/

namespace Runbook

/-! ## Records -/

theorem Duration.legible (d : Duration) : d.toJson.Legible :=
  ⟨Json.legible_nat d.secs_lt, Json.legible_nat (Nat.lt_trans d.nanos_lt (by decide)), trivial⟩

theorem Instant.legible (t : Instant) : t.toJson.Legible :=
  ⟨Json.legible_nat (Nat.lt_trans t.secs_lt (by decide)),
    Json.legible_nat (Nat.lt_trans t.nanos_lt (by decide)), trivial⟩

/-- The numbers of an execution are legible if those of its state are. -/
theorem Execution.legible {e : Execution} (h : e.state.toJson.Legible) : e.toJson.Legible :=
  ⟨trivial, trivial, trivial, h, e.time.legible, trivial⟩

theorem SessionRecord.legible {r : SessionRecord} (hversion : r.version < UInt32.size)
    (h : ∀ e ∈ r.executions, e.state.toJson.Legible) : r.toJson.Legible := by
  have hlist : Json.AllLegible (r.executions.map Execution.toJson) :=
    Json.allLegible_map _ fun e he => Execution.legible (h e he)
  exact ⟨Json.legible_nat (Nat.lt_trans hversion (by decide)), r.savedAt.legible,
    r.lastUpdate.legible, hlist, trivial⟩

theorem Json.legible_strings (names : List String) : (Json.strings names).Legible :=
  allLegible_map names fun _ _ => trivial

theorem Json.depth_strings (names : List String) : (Json.strings names).depth = 1 := by
  have hflat : Json.listDepth (names.map Json.str) = 0 := by
    induction names with
    | nil => rfl
    | cons name rest ih =>
      have hname : (Json.str name).depth = 0 := by simp only [Json.depth]
      rw [List.map_cons, Json.listDepth, hname, ih, Nat.max_self]
  rw [Json.strings, Json.depth, hflat]

/-- The record of a book is read from its text. -/
theorem BookRecord.read?_pretty (r : BookRecord) :
    (Document.read? r.toJson.pretty).bind BookRecord.ofDocument? = some r := by
  obtain ⟨current, sessions⟩ := r
  have hlegible : (toJson ⟨current, sessions⟩).Legible := by
    cases current with
    | none => exact ⟨Json.legible_strings sessions, trivial⟩
    | some name => exact ⟨trivial, Json.legible_strings sessions, trivial⟩
  have hdepth : (toJson ⟨current, sessions⟩).depth ≤ Document.maxDepth := by
    have hstrings := Json.depth_strings sessions
    cases current <;> simp [toJson, Json.whenSome, Json.depth, Json.fieldsDepth, Json.fieldDepth,
      hstrings, Document.maxDepth]
  rw [Document.read?_pretty hlegible hdepth, Option.bind_some]
  exact reads _ _ (Json.saidBy_document _)

namespace Archive

variable {a : Archive} {d e : Disk} {file : String} {now : Instant}

/-! ## Places of other files -/

/-- The place of the record of a file's book. -/
def bookPlace (a : Archive) (file : String) : Place := a.filePlace file ++ [bookFile]

theorem isName_bookFile : Disk.IsName bookFile := ⟨by decide, by decide⟩

theorem sessionPlace_eq_filePlace (a : Archive) (file session : String) :
    a.sessionPlace file session = a.filePlace file ++ [Component.encode session] := by
  rw [sessionPlace_eq_root, filePlace, List.append_assoc]
  rfl

/-- Files have folders of their own, none of which lies in another. -/
theorem not_prefix_filePlace {other : String} (hne : other ≠ file) (more : List String) :
    ¬ a.filePlace other <+: a.filePlace file ++ more := by
  intro hprefix
  have hlength : (a.filePlace other).length = (a.filePlace file).length := by
    rw [filePlace, filePlace, List.length_append, List.length_append]
    rfl
  have heq := (List.prefix_of_prefix_length_le hprefix (List.prefix_append ..)
    (Nat.le_of_eq hlength)).eq_of_length hlength
  rw [filePlace, filePlace] at heq
  exact hne (Component.encode_inj (List.cons.inj (List.append_cancel_left heq)).1)

/-- A file of a session lies deeper than the record of a book. -/
theorem bookPlace_ne {other session name : String} :
    a.sessionPlace other session ++ [name] ≠ a.bookPlace file := by
  intro heq
  have hlength := congrArg List.length heq
  rw [sessionPlace_eq_filePlace, bookPlace, filePlace, filePlace] at hlength
  simp at hlength

theorem not_filePlace_prefix {other : String} (hne : other ≠ file) (more : List String) :
    ¬ a.filePlace file ++ more <+: a.filePlace other := by
  intro hprefix
  refine not_prefix_filePlace (a := a) hne.symm [] ?_
  rw [List.append_nil]
  exact (List.prefix_append ..).trans hprefix

/-! ## Storing the sessions -/

theorem covers_saveSession {s : Session} (h : (a.saveSession file s now).run.run d = (.ok (), e)) :
    e.Covers d := by
  obtain ⟨d₁, d₂, hfolders, hwrite, hstate⟩ := exists_of_saveSession h
  exact (covers_saveState hstate).trans ((Disk.write_again hwrite).1.trans
    (Disk.makeFolders_again hfolders).1)

theorem keeps_saveSessions (a : Archive) (file : String) (now : Instant)
    (sessions : List Session) : OnDisk.Keeps Disk.IsSound (a.saveSessions file now sessions) := by
  induction sessions with
  | nil => exact .pure ()
  | cons s rest ih => exact .bind (a.keeps_saveSession file s now) fun _ => ih

/-- The files of a session are there. -/
structure HoldsSession (a : Archive) (file : String) (s : Session) (now : Instant) (d : Disk) :
    Prop where
  /-- its history -/
  history : d.text? (a.historyPlace file s.id) = some (historyOf s now).toJson.pretty
  /-- its state -/
  state : d.text? (a.statePlace file s.id) = some s.overall.pretty
  /-- the path of its history is not too long -/
  fits_history : Disk.fits (a.historyPath file s.id) = true
  /-- the path of its state is not too long -/
  fits_state : Disk.fits (a.statePath file s.id) = true

/-- Storing sessions changes no text but theirs. -/
theorem text?_saveSessions (sessions : List Session) : ∀ {d : Disk},
    (a.saveSessions file now sessions).run.run d = (.ok (), e) → ∀ {place : Place},
    (∀ s ∈ sessions, place ≠ a.historyPlace file s.id ∧ place ≠ a.statePlace file s.id) →
    e.text? place = d.text? place := by
  induction sessions with
  | nil =>
    rintro d ⟨⟩ place _
    rfl
  | cons s rest ih =>
    intro d h place hplace
    obtain ⟨hs, hrest⟩ := List.forall_mem_cons.mp hplace
    obtain ⟨_, d', hsave, h⟩ := OnDisk.exists_of_bind h
    rw [ih h hrest, text?_saveSession hsave, if_neg hs.2, if_neg hs.1]

/-- Sessions of different names that are stored are all there. -/
theorem holdsSession_saveSessions (sessions : List Session) : ∀ {d : Disk},
    (sessions.map Session.id).Nodup →
    (a.saveSessions file now sessions).run.run d = (.ok (), e) →
    ∀ s ∈ sessions, a.HoldsSession file s now e := by
  induction sessions with
  | nil => exact fun _ _ _ hs => absurd hs List.not_mem_nil
  | cons s rest ih =>
    intro d hnodup h
    rw [List.map_cons, List.nodup_cons] at hnodup
    obtain ⟨_, d', hsave, h⟩ := OnDisk.exists_of_bind h
    refine List.forall_mem_cons.mpr ⟨?_, ih hnodup.2 h⟩
    have hother : ∀ t ∈ rest, s.id ≠ t.id := fun t ht heq =>
      hnodup.1 (heq ▸ List.mem_map_of_mem ht)
    obtain ⟨hfits, hfits'⟩ := fits_of_saveSession hsave
    refine ⟨?_, ?_, hfits, hfits'⟩
    · rw [text?_saveSessions rest h fun t ht => ⟨fun heq => ?_, historyPlace_ne_statePlace⟩,
        text?_saveSession hsave, if_neg historyPlace_ne_statePlace, if_pos rfl]
      exact hother t ht (congrArg Prod.snd (historyPlace_inj heq))
    · rw [text?_saveSessions rest h fun t ht =>
          ⟨fun heq => historyPlace_ne_statePlace heq.symm, fun heq => ?_⟩,
        text?_saveSession hsave, if_pos rfl]
      exact hother t ht (congrArg Prod.snd (statePlace_inj heq))

/-! ## Removing sessions -/

theorem keeps_removeSessions (a : Archive) (file : String) (names : List String) :
    OnDisk.Keeps Disk.IsSound (a.removeSessions file names) := by
  induction names with
  | nil => exact .pure ()
  | cons name rest ih => exact .bind (a.keeps_removeSession file name) fun _ => ih

theorem covers_of_removeSessions (names : List String) : ∀ {d : Disk},
    (a.removeSessions file names).run.run d = (.ok (), e) → d.Covers e := by
  induction names with
  | nil =>
    rintro d ⟨⟩
    exact .rfl
  | cons name rest ih =>
    intro d h
    obtain ⟨_, d', hremove, h⟩ := OnDisk.exists_of_bind h
    exact (covers_of_removeSession hremove).trans (ih h)

/-- Sessions that are removed leave no text, and no other text changes. -/
theorem text?_removeSessions (names : List String) : ∀ {d : Disk}, d.IsSound →
    (a.removeSessions file names).run.run d = (.ok (), e) → e.Passable [] (a.inside []) →
    (∀ name ∈ names, Disk.fits (a.sessionDir file name) = true) → ∀ place,
    e.text? place =
      if ∃ name ∈ names, a.sessionPlace file name <+: place then none else d.text? place := by
  induction names with
  | nil =>
    rintro d - ⟨⟩ - - place
    rw [if_neg fun ⟨_, hname, _⟩ => absurd hname List.not_mem_nil]
  | cons name rest ih =>
    intro d hd h hway hfits place
    obtain ⟨_, d', hremove, h⟩ := OnDisk.exists_of_bind h
    obtain ⟨hname, hrest⟩ := List.forall_mem_cons.mp hfits
    have hd' : d'.IsSound := a.keeps_removeSession file name hremove hd
    -- the way that is left at the end was there all the time
    have hreached : a.IsReached d :=
      ⟨hd, hway.of_covers ((covers_of_removeSession hremove).trans
        (covers_of_removeSessions rest h)) _⟩
    rw [ih hd' h hway hrest, text?_removeSession hd.tree (hreached.finds_sessionDir hname) hremove]
    by_cases hin : a.sessionPlace file name <+: place
    · rw [if_pos hin, ite_self, if_pos ⟨name, List.mem_cons_self .., hin⟩]
    · rw [if_neg hin]
      refine if_congr ⟨fun ⟨n, hn, hp⟩ => ⟨n, List.mem_cons_of_mem _ hn, hp⟩, ?_⟩ rfl rfl
      rintro ⟨n, hn, hp⟩
      rcases List.mem_cons.mp hn with rfl | hn
      · exact absurd hp hin
      · exact ⟨n, hn, hp⟩

/-! ## Storing a book -/

/-- The record of a book as it is stored. -/
def recordOf (b : Book) : BookRecord where
  current := b.primary
  sessions := b.names

/-- The path of the record of a file's book. -/
def bookPath (a : Archive) (file : String) : List String :=
  a.inside [Component.encode file, bookFile]

theorem target_bookPath (a : Archive) (file : String) :
    Disk.target [] (a.bookPath file) = a.bookPlace file := by
  rw [bookPath, target_inside (by simp [Component.isName_encode, isName_bookFile]), bookPlace,
    filePlace, List.append_assoc]
  rfl

/-- The steps in which a book is stored. -/
theorem exists_of_saveBook {b : Book} (h : (a.saveBook file b now).run.run d = (.ok (), e)) :
    ∃ d₁ d₂ stored d₃, (Disk.makeFolders (a.fileDir file)).run.run d = (.ok (), d₁) ∧
      (a.saveSessions file now b.sessions).run.run d₁ = (.ok (), d₂) ∧
      a.listSessions file d₂ = .ok stored ∧
      (a.removeSessions file (stored.filter fun name => !b.contains name)).run.run d₂ =
        (.ok (), d₃) ∧
      (Disk.write (a.bookPath file) (recordOf b).toJson.pretty).run.run d₃ = (.ok (), e) := by
  obtain ⟨_, d₁, hfolders, h⟩ := OnDisk.exists_of_bind h
  obtain ⟨_, d₂, hsessions, h⟩ := OnDisk.exists_of_bind h
  obtain ⟨stored, d₂', hlook, h⟩ := OnDisk.exists_of_bind h
  rw [OnDisk.run_look] at hlook
  obtain ⟨hlist, rfl⟩ := Prod.mk.inj hlook
  obtain ⟨_, d₃, hremove, hwrite⟩ := OnDisk.exists_of_bind h
  exact ⟨d₁, d₂, stored, d₃, hfolders, hsessions, hlist, hremove, hwrite⟩

/-- The first steps give what the others begin with. -/
theorem run_saveBook {b : Book} {d₁ d₂ : Disk} {stored : List String}
    (hfolders : (Disk.makeFolders (a.fileDir file)).run.run d = (.ok (), d₁))
    (hsessions : (a.saveSessions file now b.sessions).run.run d₁ = (.ok (), d₂))
    (hlist : a.listSessions file d₂ = .ok stored) :
    (a.saveBook file b now).run.run d = (do
      a.removeSessions file (stored.filter fun name => !b.contains name)
      Disk.write (a.bookPath file) (recordOf b).toJson.pretty : OnDisk Unit).run.run d₂ := by
  rw [saveBook, OnDisk.run_bind, hfolders]
  simp only
  rw [OnDisk.run_bind, hsessions]
  simp only
  rw [OnDisk.run_bind, OnDisk.run_look, hlist]
  rfl

theorem keeps_saveBook (a : Archive) (file : String) (b : Book) (now : Instant) :
    OnDisk.Keeps Disk.IsSound (a.saveBook file b now) :=
  .bind (Disk.keeps_makeFolders _) fun _ => .bind (a.keeps_saveSessions file now _) fun _ =>
    .bind (.look _) fun _ => .bind (a.keeps_removeSessions file _) fun _ => Disk.keeps_write ..

/-- The files of a book are there, and the histories of no other sessions. -/
structure HoldsBook (a : Archive) (file : String) (b : Book) (now : Instant) (d : Disk) :
    Prop where
  /-- the archive can be looked at -/
  reached : a.IsReached d
  /-- the file has a folder -/
  folder : d.find? (a.fileDir file) = some .folder
  /-- the record of the book is there -/
  record : d.find? (a.bookPath file) = some (.file (recordOf b).toJson.pretty)
  /-- so are the sessions -/
  sessions : ∀ s ∈ b.sessions, a.HoldsSession file s now d
  /-- there is no history of any other session -/
  others : ∀ name, d.hasFile (a.historyPath file name) = true → name ∈ b.names

section Finishing

variable {d₃ : Disk} {names : List String} {text : String}
  (hremove : (a.removeSessions file names).run.run d = (.ok (), d₃))
  (hwrite : (Disk.write (a.bookPath file) text).run.run d₃ = (.ok (), e))

include hremove hwrite

/-- The path of the record is followed at the end, so the way was there all the time. -/
theorem isReached_finishing (hd : d.IsSound) :
    a.IsReached d ∧ a.IsReached d₃ ∧ a.IsReached e := by
  have hd₃ := a.keeps_removeSessions file _ hremove hd
  have hway : d₃.Passable [] (a.inside []) := by
    have hpath := Disk.passable_of_write hd₃.tree hwrite
    rw [bookPath, inside_eq] at hpath
    exact hpath.of_append _
  exact ⟨⟨hd, hway.of_covers (covers_of_removeSessions _ hremove) _⟩, ⟨hd₃, hway⟩,
    Disk.keeps_write _ _ hwrite hd₃, hway.of_covers (Disk.write_again hwrite).1 _⟩

/-- The texts of the removed sessions are gone, those of the others are as they were. -/
theorem text?_finishing (hd : d.IsSound)
    (hfits : ∀ n ∈ names, Disk.fits (a.sessionDir file n) = true) (session name : String) :
    e.text? (a.sessionPlace file session ++ [name]) =
      if session ∈ names then none else d.text? (a.sessionPlace file session ++ [name]) := by
  obtain ⟨-, hreached, -⟩ := isReached_finishing hremove hwrite hd
  rw [Disk.text?_write hwrite, target_bookPath, if_neg bookPlace_ne,
    text?_removeSessions _ hd hremove hreached.way hfits]
  refine if_congr ⟨fun ⟨n, hn, hin⟩ => ?_, fun hn => ⟨session, hn, List.prefix_append ..⟩⟩ rfl rfl
  by_cases hsame : n = session
  · exact hsame ▸ hn
  · exact absurd hin (a.not_prefix_sessionPlace (fun heq => hsame (congrArg Prod.snd heq).symm) _)

end Finishing

/-- A record that is written is found, in the folder of its file. -/
theorem find?_of_writeRecord {text : String} (hreached : a.IsReached e)
    (hwrite : (Disk.write (a.bookPath file) text).run.run d = (.ok (), e)) :
    e.find? (a.fileDir file) = some .folder ∧ e.find? (a.bookPath file) = some (.file text) := by
  have hnames : ∀ n ∈ [Component.encode file, bookFile], Disk.IsName n := by
    simp [Component.isName_encode, isName_bookFile]
  have hfits : Disk.fits (a.bookPath file) = true := Disk.fits_of_write hwrite
  obtain ⟨hput, -, -, habove⟩ := Disk.at?_write hwrite
  refine ⟨?_, ?_⟩
  · rw [target_bookPath, bookPlace, List.dropLast_concat] at habove
    rw [hreached.find?_fileDir, (Disk.write_again hwrite).1.folder habove]
    refine Disk.fits_of_append (?_ : Disk.fits (_ ++ [bookFile]) = true)
    rw [fileDir, inside_eq, List.append_assoc]
    rwa [bookPath, inside_eq] at hfits
  · rw [bookPath, hreached.find?_inside hnames (List.cons_ne_nil _ _), ← bookPath, if_pos hfits,
      ← target_inside hnames, ← bookPath, hput, Disk.at?_put, if_pos rfl]

/-- A book that is stored is there. -/
theorem holdsBook_saveBook {b : Book} (hd : d.IsSound) (hnames : b.names.Nodup)
    (h : (a.saveBook file b now).run.run d = (.ok (), e)) : a.HoldsBook file b now e := by
  obtain ⟨d₁, d₂, stored, d₃, hfolders, hsessions, hlist, hremove, hwrite⟩ := exists_of_saveBook h
  have hd₂ := a.keeps_saveSessions file now _ hsessions (Disk.keeps_makeFolders _ hfolders hd)
  obtain ⟨hreached₂, -, hreached⟩ := isReached_finishing hremove hwrite hd₂
  obtain ⟨-, -, hstored⟩ := mem_of_listSessions hreached₂ hlist
  have hheld := holdsSession_saveSessions b.sessions hnames hsessions
  have hstale : ∀ {name}, name ∈ (stored.filter fun name => !b.contains name) ↔
      d₂.hasFile (a.historyPath file name) = true ∧ name ∉ b.names := by
    intro name
    rw [List.mem_filter, hstored, Bool.not_eq_true', Bool.eq_false_iff, Ne,
      Book.contains_iff_mem_names]
  have htext := text?_finishing hremove hwrite hd₂ fun name hname =>
    fits_sessionDir ((hreached₂.hasFile_historyPath file name).mp (hstale.mp hname).1).1
  obtain ⟨hfolder, hrecord⟩ := find?_of_writeRecord hreached hwrite
  refine ⟨hreached, hfolder, hrecord, fun s hs => ?_, fun name hhas => ?_⟩
  · have hkept : s.id ∉ (stored.filter fun name => !b.contains name) := fun hmem =>
      (hstale.mp hmem).2 (List.mem_map_of_mem hs)
    have hsession := hheld s hs
    refine ⟨?_, ?_, hsession.fits_history, hsession.fits_state⟩
    · rw [historyPlace, htext, if_neg hkept, ← historyPlace, hsession.history]
    · rw [statePlace, htext, if_neg hkept, ← statePlace, hsession.state]
  · obtain ⟨hshort, hthere⟩ := (hreached.hasFile_historyPath file name).mp hhas
    rw [historyPlace, htext] at hthere
    split at hthere
    · exact absurd rfl hthere
    · rename_i hkept
      by_contra hother
      exact hkept (hstale.mpr ⟨(hreached₂.hasFile_historyPath file name).mpr ⟨hshort, hthere⟩,
        hother⟩)

/-! ## Reading it back -/

/-- A session is read from its two texts. -/
def IsReadable (s : Session) (now : Instant) : Prop :=
  (Document.read? (historyOf s now).toJson.pretty).bind SessionRecord.ofDocument? =
      some (historyOf s now) ∧
    Snapshot.parse? s.overall.pretty = some s.overall

/-- A session is read from its texts if they say what a text can say. -/
theorem isReadable_of_legible {s : Session} (hhistory : (historyOf s now).toJson.Legible)
    (hhistoryDepth : (historyOf s now).toJson.depth ≤ Document.maxDepth)
    (hstate : s.overall.toJson.Legible) (hstateDepth : s.overall.toJson.depth ≤ Document.maxDepth) :
    IsReadable s now := by
  have hversion : (historyOf s now).version < UInt32.size := show 1 < UInt32.size by decide
  constructor
  · rw [Document.read?_pretty hhistory hhistoryDepth, Option.bind_some]
    exact SessionRecord.reads hversion _ (Json.saidBy_document _)
  · rw [Snapshot.pretty, Snapshot.parse?, Document.read?_pretty hstate hstateDepth]
    exact Snapshot.reads _ _ (Json.saidBy_document _)

theorem HoldsSession.loadSession_eq {s : Session} (h : a.HoldsSession file s now d)
    (hreached : a.IsReached d) (hread : IsReadable s now) :
    a.loadSession file s.id d = .ok (some s) :=
  loadSession_of_text? hreached h.fits_history h.fits_state h.history hread.1 h.state hread.2

/-- Sessions of new names are added in order. -/
theorem loadInto_eq (rest : List Session) : ∀ {b : Book},
    ((b.sessions ++ rest).map Session.id).Nodup →
    (∀ s ∈ rest, a.loadSession file s.id d = .ok (some s)) →
    a.loadInto file d b (rest.map Session.id) =
      .ok { b with sessions := b.sessions ++ rest } := by
  induction rest with
  | nil =>
    intro b _ _
    rw [List.append_nil]
    rfl
  | cons s rest ih =>
    intro b hnodup hload
    obtain ⟨hs, hrest⟩ := List.forall_mem_cons.mp hload
    have hfree : ¬ b.contains s.id = true := by
      rw [Book.contains_iff_mem_names]
      rw [List.map_append, List.map_cons] at hnodup
      exact fun hmem => List.disjoint_of_nodup_append hnodup hmem (List.mem_cons_self ..)
    have hinsert : b.insert s = { b with sessions := b.sessions ++ [s] } := if_neg hfree
    have hmore := @ih (b.insert s)
    rw [hinsert, List.append_assoc, List.singleton_append] at hmore
    rw [List.map_cons, loadInto, hs]
    show a.loadInto file d (b.insert s) (rest.map Session.id) = _
    rw [hinsert, hmore hnodup hrest]

/-- A book whose primary session is the one of that name, or else the first one. -/
def withPrimary (b : Book) (current : Option String) : Book :=
  let b := match current with
    | some name => b.setPrimary name
    | none => b
  match b.primary, b.names with
  | none, first :: _ => b.setPrimary first
  | _, _ => b

theorem withPrimary_eq (b : Book) (h : b.primary = none) (current : Option String) :
    withPrimary b current =
      { b with primary := (current.filter b.contains).or b.names.head? } := by
  have hfirst : withPrimary b none = { b with primary := b.names.head? } := by
    obtain ⟨sessions, primary⟩ := b
    cases h
    cases sessions with
    | nil => rfl
    | cons s rest =>
      have hs : (Book.mk (s :: rest) none).contains s.id = true := by
        rw [Book.contains_iff_mem_names]
        exact List.mem_cons_self ..
      show (Book.mk (s :: rest) none).setPrimary s.id = _
      rw [Book.setPrimary, if_pos hs]
      rfl
  cases current with
  | none => rw [hfirst, Option.filter_none, Option.none_or]
  | some name =>
    by_cases hname : b.contains name = true
    · have hset : b.setPrimary name = { b with primary := some name } := if_pos hname
      rw [Option.filter_some, if_pos hname, Option.some_or, withPrimary]
      simp only [hset]
    · have hset : b.setPrimary name = b := if_neg hname
      rw [Option.filter_some, if_neg hname, Option.none_or, ← hfirst, withPrimary, withPrimary]
      simp only [hset]

/-- The record of a book is read from its text. -/
theorem loadBookRecord_of_find? {text : String} {r : BookRecord}
    (hfind : d.find? (a.bookPath file) = some (.file text))
    (hread : (Document.read? text).bind BookRecord.ofDocument? = some r) :
    a.loadBookRecord file d = .ok r := by
  rw [bookPath] at hfind
  rw [loadBookRecord]
  simp only [Disk.has, Disk.read, hfind, Option.isSome_some, if_true, bind, Except.bind, hread]
  rfl

namespace HoldsBook

variable {b : Book}

/-- The sessions of the book are listed, and no others. -/
theorem listSessions_eq (h : a.HoldsBook file b now d) (hnames : b.names.Nodup) :
    a.listSessions file d = .ok (b.names.mergeSort (· ≤ ·)) := by
  refine Archive.listSessions_eq h.reached h.folder hnames fun name =>
    ⟨fun hname => ?_, h.others name⟩
  obtain ⟨s, hs, rfl⟩ := List.mem_map.mp hname
  have hsession := h.sessions s hs
  refine (h.reached.hasFile_historyPath file s.id).mpr ⟨hsession.fits_history, ?_⟩
  rw [hsession.history]
  exact Option.some_ne_none _

theorem loadBookRecord_eq (h : a.HoldsBook file b now d) :
    a.loadBookRecord file d = .ok (recordOf b) :=
  loadBookRecord_of_find? h.record (BookRecord.read?_pretty _)

/-- The sessions of the record are all there are. -/
theorem loadBook_eq_loadInto (h : a.HoldsBook file b now d) (hnames : b.names.Nodup) :
    a.loadBook file d = (a.loadInto file d .empty b.names).map (withPrimary · b.primary) := by
  have hrest : (b.names.mergeSort (· ≤ ·)).filter (fun n => !b.names.contains n) = [] := by
    refine List.filter_eq_nil_iff.mpr fun name hname => ?_
    rw [List.mem_mergeSort] at hname
    simpa using hname
  rw [loadBook, h.loadBookRecord_eq, h.listSessions_eq hnames]
  show (a.loadInto file d .empty (b.names ++
    (b.names.mergeSort (· ≤ ·)).filter fun n => !b.names.contains n) >>= _) = _
  rw [hrest, List.append_nil]
  cases a.loadInto file d .empty b.names <;> rfl

/-- The book is read back, and its first session is primary unless another one was. -/
theorem loadBook_eq (h : a.HoldsBook file b now d) (hnames : b.names.Nodup)
    (hread : ∀ s ∈ b.sessions, IsReadable s now) :
    a.loadBook file d = .ok {
      sessions := b.sessions, primary := (b.primary.filter b.contains).or b.names.head? } := by
  have hload : a.loadInto file d .empty b.names = .ok { sessions := b.sessions, primary := none } :=
    loadInto_eq b.sessions hnames fun s hs =>
      (h.sessions s hs).loadSession_eq h.reached (hread s hs)
  rw [h.loadBook_eq_loadInto hnames, hload]
  exact congrArg Except.ok (withPrimary_eq ⟨b.sessions, none⟩ rfl b.primary)

end HoldsBook

/-! ## Other files -/

theorem passable_inside (hway : d.Passable [] (a.inside [])) {names : List String}
    (hnames : ∀ n ∈ names, Disk.IsName n) : d.Passable [] (a.inside names) := by
  rw [inside_eq]
  exact hway.append names hnames _

theorem target_inside_file {more : List String} (hmore : ∀ n ∈ more, Disk.IsName n) :
    Disk.target [] (a.inside (Component.encode file :: more)) = a.filePlace file ++ more := by
  rw [target_inside (List.forall_mem_cons.mpr ⟨Component.isName_encode file, hmore⟩), filePlace,
    List.append_assoc]
  rfl

section Besides

variable {other : String} (hne : other ≠ file) {d₀ : Disk}

include hne

theorem alike_makeFolders (h : Disk.Alike (a.filePlace other) d d₀)
    (hway : d.Passable [] (a.inside [])) {more : List String} (hmore : ∀ n ∈ more, Disk.IsName n)
    (hrun : (Disk.makeFolders (a.inside (Component.encode file :: more))).run.run d =
      (.ok (), e)) : Disk.Alike (a.filePlace other) e d₀ := by
  refine h.makeFolders_left (passable_inside hway ?_) ?_ hrun
  · exact List.forall_mem_cons.mpr ⟨Component.isName_encode file, hmore⟩
  · rw [target_inside_file hmore]
    exact not_prefix_filePlace hne more

theorem alike_write (h : Disk.Alike (a.filePlace other) d d₀) {more : List String}
    (hmore : ∀ n ∈ more, Disk.IsName n) {text : String}
    (hrun : (Disk.write (a.inside (Component.encode file :: more)) text).run.run d =
      (.ok (), e)) : Disk.Alike (a.filePlace other) e d₀ := by
  refine h.write_left ?_ ?_ hrun
  · rw [target_inside_file hmore]
    exact not_prefix_filePlace hne more
  · rw [target_inside_file hmore]
    exact not_filePlace_prefix hne more

theorem alike_saveSession (h : Disk.Alike (a.filePlace other) d d₀)
    (hway : d.Passable [] (a.inside [])) {s : Session}
    (hrun : (a.saveSession file s now).run.run d = (.ok (), e)) :
    Disk.Alike (a.filePlace other) e d₀ := by
  obtain ⟨d₁, d₂, hfolders, hwrite, hstate⟩ := exists_of_saveSession hrun
  obtain ⟨_, d₃, hfolders', hwrite'⟩ := OnDisk.exists_of_bind hstate
  have hway₂ : d₂.Passable [] (a.inside []) :=
    hway.of_covers ((Disk.write_again hwrite).1.trans (Disk.makeFolders_again hfolders).1) _
  have h₁ := alike_makeFolders hne h hway (by simp [Component.isName_encode]) hfolders
  have h₂ := alike_write hne h₁ (by simp [Component.isName_encode, isName_sessionFile]) hwrite
  have h₃ := alike_makeFolders hne h₂ hway₂ (by simp [Component.isName_encode]) hfolders'
  exact alike_write hne h₃ (by simp [Component.isName_encode, isName_stateFile]) hwrite'

theorem alike_saveSessions (sessions : List Session) : ∀ {d : Disk},
    Disk.Alike (a.filePlace other) d d₀ → d.Passable [] (a.inside []) →
    (a.saveSessions file now sessions).run.run d = (.ok (), e) →
    Disk.Alike (a.filePlace other) e d₀ := by
  induction sessions with
  | nil =>
    rintro d h - ⟨⟩
    exact h
  | cons s rest ih =>
    intro d h hway hrun
    obtain ⟨_, d', hsave, hrun⟩ := OnDisk.exists_of_bind hrun
    exact ih (alike_saveSession hne h hway hsave) (hway.of_covers (covers_saveSession hsave) _) hrun

theorem alike_removeSession (h : Disk.Alike (a.filePlace other) d d₀) (hd : d.IsSound)
    {session : String} (hrun : (a.removeSession file session).run.run d = (.ok (), e)) :
    Disk.Alike (a.filePlace other) e d₀ := by
  have hsame : ∀ {place : Place}, ¬ a.sessionPlace file session <+: place →
      e.at? place = d.at? place := by
    intro place hout
    rw [run_removeSession] at hrun
    split at hrun
    · exact Disk.at?_removeAll_outside hrun hout
    · cases hrun
      rfl
  refine ⟨(a.keeps_removeSession file session hrun hd).tree, h.tree', fun q hq => ?_,
    fun q hq => ?_⟩
  · rw [hsame fun hin => ?_]
    · exact h.below q hq
    · -- the folders of both files would be on one way
      rw [sessionPlace_eq_filePlace] at hin
      obtain ⟨more, rfl⟩ := hin
      rw [List.append_assoc] at hq
      exact not_prefix_filePlace hne _ hq
  · rw [hsame fun hin => ?_]
    · exact h.above q hq
    · rw [sessionPlace_eq_filePlace] at hin
      exact not_filePlace_prefix hne _ (hin.trans hq)

theorem alike_removeSessions (names : List String) : ∀ {d : Disk},
    Disk.Alike (a.filePlace other) d d₀ → d.IsSound →
    (a.removeSessions file names).run.run d = (.ok (), e) →
    Disk.Alike (a.filePlace other) e d₀ := by
  induction names with
  | nil =>
    rintro d h - ⟨⟩
    exact h
  | cons name rest ih =>
    intro d h hd hrun
    obtain ⟨_, d', hremove, hrun⟩ := OnDisk.exists_of_bind hrun
    exact ih (alike_removeSession hne h hd hremove)
      (a.keeps_removeSession file name hremove hd) hrun

/-- What is stored for other files is left alone. -/
theorem alike_saveBook (h : a.IsReached d) {b : Book}
    (hrun : (a.saveBook file b now).run.run d = (.ok (), e)) :
    Disk.Alike (a.filePlace other) e d := by
  obtain ⟨d₁, d₂, stored, d₃, hfolders, hsessions, -, hremove, hwrite⟩ := exists_of_saveBook hrun
  have hd₁ := Disk.keeps_makeFolders _ hfolders h.sound
  have hway₁ : d₁.Passable [] (a.inside []) :=
    h.way.of_covers (Disk.makeFolders_again hfolders).1 _
  have h₁ := alike_makeFolders hne (.refl h.sound.tree _) h.way
    (fun _ hn => absurd hn List.not_mem_nil) hfolders
  have h₂ := alike_saveSessions hne b.sessions h₁ hway₁ hsessions
  have h₃ := alike_removeSessions hne _ h₂ (a.keeps_saveSessions file now _ hsessions hd₁) hremove
  exact alike_write hne h₃ (by simp [isName_bookFile]) hwrite

end Besides

/-- Two disks that differ besides a file's folder show the same for it. -/
theorem find?_eq_of_alike (h : a.IsReached d) (h' : a.IsReached e)
    (halike : Disk.Alike (a.filePlace file) e d) {more : List String}
    (hmore : ∀ n ∈ more, Disk.IsName n) :
    e.find? (a.inside (Component.encode file :: more)) =
      d.find? (a.inside (Component.encode file :: more)) := by
  have hnames : ∀ n ∈ Component.encode file :: more, Disk.IsName n :=
    List.forall_mem_cons.mpr ⟨Component.isName_encode file, hmore⟩
  have hbelow := halike.below (a.filePlace file ++ more) (List.prefix_append ..)
  rw [filePlace, List.append_assoc] at hbelow
  rw [h.find?_inside hnames (List.cons_ne_nil _ _), h'.find?_inside hnames (List.cons_ne_nil _ _)]
  exact if_congr Iff.rfl hbelow.symm rfl

section Shown

variable (hsame : ∀ more, (∀ n ∈ more, Disk.IsName n) →
  e.find? (a.inside (Component.encode file :: more)) =
    d.find? (a.inside (Component.encode file :: more)))

include hsame

theorem loadInto_congr (names : List String) : ∀ b : Book,
    a.loadInto file e b names = a.loadInto file d b names := by
  induction names with
  | nil => exact fun _ => rfl
  | cons name rest ih =>
    intro b
    rw [loadInto, loadInto, loadSession_congr hsame]
    rcases a.loadSession file name d with fault | found
    · rfl
    · cases found with
      | none => exact ih b
      | some s => exact ih (b.insert s)

/-- Two disks on which all paths of a file show the same have the same book for it. -/
theorem loadBook_congr (h : a.IsReached d) (h' : a.IsReached e) :
    a.loadBook file e = a.loadBook file d := by
  have hrecord : a.loadBookRecord file e = a.loadBookRecord file d := by
    have hpath := hsame [bookFile] (by simp [isName_bookFile])
    rw [loadBookRecord, loadBookRecord]
    simp only [Disk.has, Disk.read, hpath]
    rfl
  rw [loadBook, loadBook, hrecord, listSessions_congr hsame h h']
  simp only [loadInto_congr hsame]

end Shown

/-! ## Whatever was left -/

/-- Work with an archive. -/
inductive Work where
  /-- stores a book -/
  | saveBook (file : String) (b : Book) (now : Instant)
  /-- stores a session -/
  | saveSession (file : String) (s : Session) (now : Instant)
  /-- stores a state -/
  | saveState (file session : String) (state : Snapshot)
  /-- removes a session -/
  | removeSession (file session : String)
  /-- takes away the whole archive -/
  | clean

/-- The work on a disk. -/
def Work.onDisk (a : Archive) : Work → OnDisk Unit
  | .saveBook file b now => a.saveBook file b now
  | .saveSession file s now => a.saveSession file s now
  | .saveState file session state => a.saveState file session state
  | .removeSession file session => a.removeSession file session
  | .clean => a.clean

/-- A disk that was empty before some work with the archive, whether or not it was refused in the
end. -/
inductive Left (a : Archive) : Disk → Prop
  /-- nothing was done -/
  | empty : Left a .empty
  /-- something more was done -/
  | more {d e : Disk} {w : Work} {outcome : Except Fault Unit} (h : Left a d)
    (hrun : (w.onDisk a).run.run d = (outcome, e)) : Left a e

theorem keeps_work (a : Archive) (w : Work) : OnDisk.Keeps Disk.IsSound (w.onDisk a) := by
  cases w with
  | saveBook file b now => exact a.keeps_saveBook file b now
  | saveSession file s now => exact a.keeps_saveSession file s now
  | saveState file session state => exact a.keeps_saveState file session state
  | removeSession file session => exact a.keeps_removeSession file session
  | clean =>
    intro d e outcome h hd
    have hget : (get : OnDisk Disk).run.run d = (.ok d, d) := rfl
    rw [Work.onDisk, clean, OnDisk.run_bind, hget] at h
    simp only at h
    split at h
    · exact Disk.keeps_removeAll _ h hd
    · cases h
      exact hd

theorem Left.isSound (h : a.Left d) : d.IsSound := by
  induction h with
  | empty => exact Disk.isSound_empty
  | more _ hrun ih => exact a.keeps_work _ hrun ih

/-- **A book that is stored is read back.** Whatever earlier work left on the disk, once a book with
sessions of different names has been stored that can be read from their texts, its sessions are
those that are listed, and they are read back as they were, in the same order. The primary session
is the one of the book if it has it, or else the first one. For other files the same is read as
before, as long as the path of the archive did not go up from a folder that was missing. Once a
book has been stored, it does not. -/
theorem loadBook_saveBook {b : Book} (hleft : a.Left d) (hnames : b.names.Nodup)
    (hread : ∀ s ∈ b.sessions, IsReadable s now)
    (hsave : (a.saveBook file b now).run.run d = (.ok (), e)) :
    a.listSessions file e = .ok (b.names.mergeSort (· ≤ ·)) ∧
      a.loadBook file e = .ok {
        sessions := b.sessions
        primary := (b.primary.filter b.contains).or b.names.head? } ∧
      e.Passable [] (a.inside []) ∧
      (d.Passable [] (a.inside []) → ∀ other, other ≠ file →
        (∀ session, a.loadSession other session e = a.loadSession other session d ∧
          a.loadState other session e = a.loadState other session d) ∧
        a.listSessions other e = a.listSessions other d ∧
        a.loadBook other e = a.loadBook other d) := by
  have hbook := holdsBook_saveBook hleft.isSound hnames hsave
  refine ⟨hbook.listSessions_eq hnames, hbook.loadBook_eq hnames hread, hbook.reached.way,
    fun hway other hne => ?_⟩
  have hreached : a.IsReached d := ⟨hleft.isSound, hway⟩
  have hsame : ∀ more, (∀ n ∈ more, Disk.IsName n) →
      e.find? (a.inside (Component.encode other :: more)) =
        d.find? (a.inside (Component.encode other :: more)) := fun more =>
    find?_eq_of_alike hreached hbook.reached (alike_saveBook hne hreached hsave)
  exact ⟨fun session => ⟨loadSession_congr hsame session, loadState_congr hsame session⟩,
    listSessions_congr hsame hreached hbook.reached, loadBook_congr hsame hreached hbook.reached⟩

/-- The start of 1970. -/
def epoch : Instant := ⟨0, 0, by decide, Duration.zero.nanos_lt⟩

/-- A session in which nothing has run is read from its texts. -/
theorem isReadable_new (id : String) : IsReadable (Session.new id epoch) epoch :=
  isReadable_of_legible
    (SessionRecord.legible (show 1 < UInt32.size by decide) fun _ h => absurd h List.not_mem_nil)
    (show 2 ≤ 127 by decide) (show Snapshot.empty.toJson.Legible from trivial)
    (show 1 ≤ 127 by decide)

/-- A book whose sessions have names that lead up, or nowhere, and whose primary session is gone. -/
def dotted : Book := ⟨[Session.new ".." epoch, Session.new "" epoch], some "a"⟩

/-- The disk after the session that is gone was stored. -/
def oneStored : Disk := ((usual.saveSession "f" (Session.new "a" epoch) epoch).run.run .empty).2

/-- The disk after one was stored for another file, too. -/
def twoStored : Disk := ((usual.saveSession "g" (Session.new "a" epoch) epoch).run.run oneStored).2

/-- The disk with the folder of the file. -/
def folderMade : Disk := ((Disk.makeFolders (usual.fileDir "f")).run.run twoStored).2

/-- The disk after the sessions of the book were stored. -/
def allStored : Disk := ((usual.saveSessions "f" epoch dotted.sessions).run.run folderMade).2

/-- The disk after the book was stored. -/
def dottedStored : Disk := ((usual.saveBook "f" dotted epoch).run.run twoStored).2

theorem left_twoStored : usual.Left twoStored :=
  .more (.more .empty (w := .saveSession "f" (Session.new "a" epoch) epoch) (e := oneStored)
    (Prod.ext rfl rfl)) (w := .saveSession "g" (Session.new "a" epoch) epoch) (Prod.ext rfl rfl)

theorem listSessions_allStored : usual.listSessions "f" allStored = .ok ["", "..", "a"] := by
  have hthere : allStored.has (usual.fileDir "f") = true := by decide +kernel
  have hlist : allStored.list (usual.fileDir "f") = .ok ["a", "%2E%2E", "%"] := by decide +kernel
  have hnames : (["a", "%2E%2E", "%"].filter fun folder => allStored.hasFile
      (usual.inside [Component.encode "f", folder, sessionFile])).filterMap Component.decode? =
        ["a", "..", ""] := by decide +kernel
  have hsorted : ["a", "..", ""].mergeSort (· ≤ ·) = ["", "..", "a"] := by
    refine List.Perm.eq_of_pairwise (fun _ _ _ _ => le_antisymm)
      (List.pairwise_mergeSort' (· ≤ ·) _) (by decide +kernel)
      ((List.mergeSort_perm _ _).trans (by decide +kernel))
  rw [listSessions, if_pos hthere, hlist]
  show Except.ok ((List.filterMap Component.decode? (List.filter _ _)).mergeSort _) = _
  rw [hnames, hsorted]

theorem saveBook_dotted :
    (usual.saveBook "f" dotted epoch).run.run twoStored = (.ok (), dottedStored) := by
  have hfolders : (Disk.makeFolders (usual.fileDir "f")).run.run twoStored =
      (.ok (), folderMade) := Prod.ext (by decide +kernel) rfl
  have hsessions : (usual.saveSessions "f" epoch dotted.sessions).run.run folderMade =
      (.ok (), allStored) := Prod.ext (by decide +kernel) rfl
  refine Prod.ext ?_ rfl
  rw [run_saveBook hfolders hsessions listSessions_allStored]
  decide +kernel

theorem loadBook_saveBook_dotted :
    usual.Left twoStored ∧ dotted.names.Nodup ∧ (∀ s ∈ dotted.sessions, IsReadable s epoch) ∧
      (usual.saveBook "f" dotted epoch).run.run twoStored = (.ok (), dottedStored) ∧
      usual.loadBook "f" dottedStored = .ok { dotted with primary := some ".." } ∧
      twoStored.Passable [] (usual.inside []) ∧
      usual.loadBook "g" dottedStored = usual.loadBook "g" twoStored := by
  have hnames : dotted.names.Nodup := by decide +kernel
  have hread : ∀ s ∈ dotted.sessions, IsReadable s epoch := by
    intro s hs
    rcases List.mem_pair.mp hs with rfl | rfl <;> exact isReadable_new _
  have hway : twoStored.Passable [] (usual.inside []) :=
    Disk.passable_of_forall_ne _ (by decide +kernel)
  obtain ⟨-, hload, -, hothers⟩ := loadBook_saveBook left_twoStored hnames hread saveBook_dotted
  have hprimary : (dotted.primary.filter dotted.contains).or dotted.names.head? = some ".." := by
    decide +kernel
  rw [hprimary] at hload
  exact ⟨left_twoStored, hnames, hread, saveBook_dotted, hload, hway,
    (hothers hway "g" (by decide)).2.2⟩

end Archive

end Runbook
