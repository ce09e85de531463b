import Runbook.Proofs.SavedBooks

/-!
# States nested deeply

No more than 127 arrays and objects may be open at once in a text that is read. A state that is
stored alone may be nested that deeply. In the history of a session it lies three deeper, within the
record, the list of executions and one of these, so that a history with a state that is nested 125
deep is stored but not read back, nor is any book with it.

* `Document.NeedsRoom`: readers that read a value only if all of it is seen
* `Snapshot.parse?_pretty`: states are read back if they are nested 127 deep at most
* `Session.IsShallow`: the states of a session's executions are nested 124 deep at most
* `SessionRecord.read?_pretty`: histories are read back if they are those of shallow sessions
* `Archive.HoldsSession.loadSession_cases`, `Archive.HoldsBook.loadBook_cases`: so are sessions and
  books
* `Archive.load_iff_isShallow`: all of this for what is stored
-/

namespace Runbook

/-! ## Room for records -/

namespace Document

variable {α : Type} {read : Document → Option α}

/-- The value is not read unless there is room for all of it. -/
def NeedsRoom (read : Document → Option α) (j : Json) : Prop :=
  ∀ ⦃room : Nat⦄, room < j.depth → read (j.seen room) = none

/-- Items are not read if there is too little room for one of them. -/
theorem mapM_allSeen {write : α → Json} (h : ∀ a, NeedsRoom read (write a)) {room : Nat}
    (as : List α) (hroom : room < Json.listDepth (as.map write)) :
    (Json.allSeen room (as.map write)).mapM read = none := by
  induction as with
  | nil => simp [Json.listDepth] at hroom
  | cons a rest ih =>
    rw [List.map_cons, Json.listDepth] at hroom
    rw [List.map_cons, Json.allSeen, List.mapM_cons]
    by_cases ha : room < (write a).depth
    · rw [h a ha]
      rfl
    · rw [ih (by omega)]
      cases read ((write a).seen room) <;> rfl

theorem needsRoom_list {write : α → Json} (h : ∀ a, NeedsRoom read (write a)) (as : List α) :
    NeedsRoom (list? read) (.arr (as.map write)) := by
  intro room hroom
  rw [Json.depth] at hroom
  rw [Json.seen, opened]
  split
  · rfl
  · exact mapM_allSeen h as (by omega)

end Document

open Document (NeedsRoom)

/-! ## States, executions and histories -/

theorem Snapshot.needsRoom (s : Snapshot) : NeedsRoom ofDocument? s.toJson := by
  intro room hroom
  have hvalue := Json.value?_seen_of_lt_depth hroom
  rw [ofDocument?]
  split
  · rename_i fields hfields
    cases hvalue.symm.trans hfields
  · rfl

theorem Json.depth_nat (n : Nat) : (nat n).depth = 0 := by simp only [nat, int, depth]

theorem Duration.depth_toJson (d : Duration) : d.toJson.depth = 1 := by
  simp [toJson, Json.depth, Json.fieldsDepth, Json.fieldDepth, Json.depth_nat]

theorem Instant.depth_toJson (t : Instant) : t.toJson.depth = 1 := by
  simp [toJson, Json.depth, Json.fieldsDepth, Json.fieldDepth, Json.depth_nat]

/-- An execution is nested one deeper than its state. -/
theorem Execution.depth_toJson (e : Execution) : e.toJson.depth = e.state.toJson.depth + 1 := by
  have hstate : 1 ≤ e.state.toJson.depth := by
    rw [Snapshot.toJson, Json.depth]
    omega
  simp only [toJson, Json.depth, Json.fieldsDepth, Json.fieldDepth, Duration.depth_toJson]
  omega

theorem Execution.listDepth_le_iff {es : List Execution} {n : Nat} :
    Json.listDepth (es.map toJson) ≤ n + 1 ↔ ∀ e ∈ es, e.state.toJson.depth ≤ n := by
  induction es with
  | nil => simp [Json.listDepth]
  | cons e rest ih =>
    rw [List.map_cons, Json.listDepth, Nat.max_le, ih, depth_toJson, Nat.add_le_add_iff_right,
      List.forall_mem_cons]

theorem Execution.needsRoom (e : Execution) : NeedsRoom ofDocument? e.toJson := by
  intro room hroom
  rw [depth_toJson] at hroom
  rw [toJson, Json.seen, Document.opened]
  split
  · rfl
  have hstate := e.state.needsRoom (show room - 1 < e.state.toJson.depth by omega)
  simp [Json.fieldsSeen, Json.fieldSeen, ofDocument?, Document.record?, Document.field?,
    Document.required?, Document.defaulted?, hstate]

/-- The history of a session is nested two deeper than its executions. -/
theorem SessionRecord.depth_toJson (r : SessionRecord) :
    r.toJson.depth = Json.listDepth (r.executions.map Execution.toJson) + 2 := by
  simp only [toJson, Json.depth, Json.fieldsDepth, Json.fieldDepth, Json.depth_nat,
    Instant.depth_toJson]
  omega

/-- A record is not read if its executions are not. -/
theorem SessionRecord.ofDocument?_eq_none {doc executions : Document}
    {version savedAt lastUpdate : Option Document}
    (hrecord : doc.record? ["version", "saved_at", "last_update", "executions"] =
      some [version, savedAt, lastUpdate, some executions])
    (h : Document.list? Execution.ofDocument? executions = none) : ofDocument? doc = none := by
  rw [ofDocument?, hrecord]
  simp only [Option.bind_eq_bind, Option.bind_some, Document.defaulted?, h, Option.bind_none,
    Option.bind_fun_none]

theorem SessionRecord.needsRoom (r : SessionRecord) : NeedsRoom ofDocument? r.toJson := by
  intro room hroom
  have hexecutions : r.toJson.depth = (Json.arr (r.executions.map Execution.toJson)).depth + 1 := by
    rw [depth_toJson, Json.depth]
    omega
  rw [toJson, Json.seen, Document.opened]
  split
  · rfl
  · have hlist := Document.needsRoom_list Execution.needsRoom r.executions
      (show room - 1 < (Json.arr (r.executions.map Execution.toJson)).depth by omega)
    exact ofDocument?_eq_none rfl hlist

/-! ## Histories that are read back -/

/-- The history of a session is read back just if it is not nested too deeply. -/
theorem SessionRecord.read?_pretty {r : SessionRecord} (hversion : r.version < UInt32.size)
    (h : ∀ e ∈ r.executions, e.state.toJson.Legible) :
    (Document.read? r.toJson.pretty).bind ofDocument? =
      if r.toJson.depth ≤ Document.maxDepth then some r else none := by
  rw [Document.read?_pretty_seen (legible hversion h), Option.bind_some]
  split
  · rename_i hdepth
    rw [Json.seen_of_depth_le hdepth]
    exact reads hversion _ (Json.saidBy_document _)
  · exact r.needsRoom (by omega)

/-- A state is read back just if it is not nested too deeply. -/
theorem Snapshot.parse?_pretty {s : Snapshot} (h : s.toJson.Legible) :
    parse? s.pretty = if s.toJson.depth ≤ Document.maxDepth then some s else none := by
  rw [pretty, parse?, Document.read?_pretty_seen h]
  split
  · rename_i hdepth
    rw [Json.seen_of_depth_le hdepth]
    exact reads _ _ (Json.saidBy_document _)
  · exact s.needsRoom (by omega)

/-! ## Sessions -/

/-- The state is one that its own file can hold: its text is read as a state, and its numbers are
read as they are written, as whole numbers of 64 bits always are. -/
structure Snapshot.IsAccepted (s : Snapshot) : Prop where
  /-- the numbers are read back one by one -/
  legible : s.toJson.Legible
  /-- the text is that of a state -/
  parsed : parse? s.pretty ≠ none

theorem Snapshot.IsAccepted.parse?_eq {s : Snapshot} (h : s.IsAccepted) :
    parse? s.pretty = some s := by
  have hparsed := h.parsed
  rw [parse?_pretty h.legible] at hparsed ⊢
  split at hparsed
  · rw [if_pos ‹_›]
  · exact absurd rfl hparsed

/-- All states of the session are accepted. -/
structure Session.IsAccepted (s : Session) : Prop where
  /-- the state from which the next execution starts -/
  overall : s.overall.IsAccepted
  /-- those that its executions left -/
  states : ∀ e ∈ s.executions, e.state.IsAccepted

/-- The states of the session's executions leave room for the record, the list of executions and the
execution around them. -/
def Session.IsShallow (s : Session) : Prop :=
  ∀ e ∈ s.executions, e.state.toJson.depth + 3 ≤ Document.maxDepth

namespace Archive

variable {a : Archive} {d e : Disk} {file : String} {now : Instant}

/-- The history of a session is nested three deeper than the states in it. -/
theorem depth_historyOf_le_iff (s : Session) (now : Instant) :
    (historyOf s now).toJson.depth ≤ Document.maxDepth ↔ s.IsShallow := by
  rw [SessionRecord.depth_toJson]
  exact Nat.add_le_add_iff_right.trans ((Execution.listDepth_le_iff (n := 124)).trans
    (forall₂_congr fun _ _ => Nat.add_le_add_iff_right.symm))

/-- A session all states of which are accepted is read back just if it is shallow. -/
theorem read?_historyOf {s : Session} (h : s.IsAccepted) (now : Instant) :
    (Document.read? (historyOf s now).toJson.pretty).bind SessionRecord.ofDocument? =
      if (historyOf s now).toJson.depth ≤ Document.maxDepth then some (historyOf s now) else none :=
  SessionRecord.read?_pretty (show 1 < UInt32.size by decide) fun x hx => (h.states x hx).legible

theorem isReadable_of_isShallow {s : Session} (h : s.IsAccepted) (hshallow : s.IsShallow) :
    IsReadable s now := by
  refine ⟨?_, h.overall.parse?_eq⟩
  rw [read?_historyOf h, if_pos ((depth_historyOf_le_iff s now).mpr hshallow)]

/-- A history that is there and is no record is an error. -/
theorem loadSession_of_unread {session history : String} (h : a.IsReached d)
    (hfits : Disk.fits (a.historyPath file session) = true)
    (hhistory : d.text? (a.historyPlace file session) = some history)
    (hrecord : (Document.read? history).bind SessionRecord.ofDocument? = none) :
    a.loadSession file session d = .error .malformedText := by
  rw [Disk.text?_eq_some_iff] at hhistory
  have hfind := h.find?_historyPath file session
  rw [if_pos hfits, hhistory] at hfind
  have hread : d.read (a.historyPath file session) = .ok history := by rw [Disk.read, hfind]
  rw [loadSession, Disk.has, hfind, Option.isSome_some, if_pos rfl, hread]
  simp only [bind, Except.bind, hrecord]

/-- What is found of a session whose files are there. -/
theorem HoldsSession.loadSession_cases {s : Session} (h : a.HoldsSession file s now d)
    (hreached : a.IsReached d) (haccepted : s.IsAccepted) :
    (s.IsShallow → a.loadSession file s.id d = .ok (some s)) ∧
      (¬ s.IsShallow → a.loadSession file s.id d = .error .malformedText) := by
  refine ⟨fun hshallow => h.loadSession_eq hreached (isReadable_of_isShallow haccepted hshallow),
    fun hdeep => loadSession_of_unread hreached h.fits_history h.history ?_⟩
  rw [read?_historyOf haccepted, if_neg (mt (depth_historyOf_le_iff s now).mp hdeep)]

/-- The state of a session whose files are there is found, too. -/
theorem HoldsSession.loadState_eq {s : Session} (h : a.HoldsSession file s now d)
    (hreached : a.IsReached d) (haccepted : s.overall.IsAccepted) :
    a.loadState file s.id d = .ok (some s.overall) := by
  have hstate := h.state
  rw [Disk.text?_eq_some_iff] at hstate
  have hfind := hreached.find?_statePath file s.id
  rw [if_pos h.fits_state, hstate] at hfind
  rw [loadState, Disk.has, Disk.read, hfind, Option.isSome_some, if_pos rfl]
  show (Snapshot.parse s.id s.overall.pretty >>= fun state => Except.ok (some state)) = _
  rw [Snapshot.parse, haccepted.parse?_eq]
  rfl

/-- A session that is stored is there. -/
theorem holdsSession_saveSession {s : Session} (hd : d.IsSound)
    (h : (a.saveSession file s now).run.run d = (.ok (), e)) :
    a.IsReached e ∧ a.HoldsSession file s now e := by
  obtain ⟨hfits, hfits'⟩ := fits_of_saveSession h
  refine ⟨⟨a.keeps_saveSession file s now h hd, ?_⟩, ?_, ?_, hfits, hfits'⟩
  · obtain ⟨d₁, d₂, hfolders, hwrite, hstate⟩ := exists_of_saveSession h
    have hd₁ := Disk.keeps_makeFolders _ hfolders hd
    have hway := Disk.passable_of_write hd₁.tree hwrite
    rw [historyPath, inside_eq] at hway
    exact ((hway.of_append _).of_covers (Disk.write_again hwrite).1 _).of_covers
      (covers_saveState hstate) _
  · rw [text?_saveSession h, if_neg historyPlace_ne_statePlace, if_pos rfl]
  · rw [text?_saveSession h, if_pos rfl]

/-! ## Books -/

/-- One session that is not read is the end of it, even if all others are. -/
theorem loadInto_of_error {fault : Fault} (names : List String) : ∀ {b : Book},
    (∀ n ∈ names, (∃ s, a.loadSession file n d = .ok (some s)) ∨
      a.loadSession file n d = .error fault) →
    (∃ n ∈ names, a.loadSession file n d = .error fault) →
    a.loadInto file d b names = .error fault := by
  induction names with
  | nil => rintro b _ ⟨n, hn, _⟩; exact absurd hn List.not_mem_nil
  | cons name rest ih =>
    intro b hall hsome
    obtain ⟨hname, hrest⟩ := List.forall_mem_cons.mp hall
    rw [loadInto]
    rcases hname with ⟨s, hs⟩ | hfault
    · rw [hs]
      refine ih (b := b.insert s) hrest ?_
      obtain ⟨n, hn, hfault⟩ := hsome
      rcases List.mem_cons.mp hn with rfl | hn
      · cases hs.symm.trans hfault
      · exact ⟨n, hn, hfault⟩
    · rw [hfault]
      rfl

/-- What is found of a book whose files are there. -/
theorem HoldsBook.loadBook_cases {b : Book} (h : a.HoldsBook file b now d) (hnames : b.names.Nodup)
    (haccepted : ∀ s ∈ b.sessions, s.IsAccepted) :
    ((∀ s ∈ b.sessions, s.IsShallow) → a.loadBook file d = .ok {
      sessions := b.sessions, primary := (b.primary.filter b.contains).or b.names.head? }) ∧
    ((¬ ∀ s ∈ b.sessions, s.IsShallow) → a.loadBook file d = .error .malformedText) := by
  refine ⟨fun hshallow => h.loadBook_eq hnames fun s hs =>
    isReadable_of_isShallow (haccepted s hs) (hshallow s hs), fun hdeep => ?_⟩
  have hcases := fun s hs => (h.sessions s hs).loadSession_cases h.reached (haccepted s hs)
  have hload : a.loadInto file d .empty b.names = .error .malformedText := by
    refine loadInto_of_error _ (fun n hn => ?_) ?_
    · obtain ⟨s, hs, rfl⟩ := List.mem_map.mp hn
      by_cases hshallow : s.IsShallow
      · exact .inl ⟨s, (hcases s hs).1 hshallow⟩
      · exact .inr ((hcases s hs).2 hshallow)
    · obtain ⟨s, hs⟩ := not_forall.mp hdeep
      obtain ⟨hs, hnot⟩ := Classical.not_imp.mp hs
      exact ⟨s.id, List.mem_map_of_mem hs, (hcases s hs).2 hnot⟩
  rw [h.loadBook_eq_loadInto hnames, hload]
  rfl

/-! ## What is stored -/

/-- **Only shallow sessions are read back.** A session all states of which are accepted by
themselves is found again after it was stored, just as it was, if the states of its executions are
nested 124 deep at most; if one of them is nested deeper, its history is an error, though its latest
state is still found. A book of such sessions is found again if all of them are shallow; if one is
not, the whole book is an error. -/
theorem load_iff_isShallow (hd : d.IsSound) :
    (∀ (s : Session) (e : Disk), s.IsAccepted →
      (a.saveSession file s now).run.run d = (.ok (), e) →
      a.loadState file s.id e = .ok (some s.overall) ∧
      (s.IsShallow → a.loadSession file s.id e = .ok (some s)) ∧
      (¬ s.IsShallow → a.loadSession file s.id e = .error .malformedText)) ∧
    ∀ (b : Book) (e : Disk), b.names.Nodup → (∀ s ∈ b.sessions, s.IsAccepted) →
      (a.saveBook file b now).run.run d = (.ok (), e) →
      ((∀ s ∈ b.sessions, s.IsShallow) → a.loadBook file e = .ok {
        sessions := b.sessions, primary := (b.primary.filter b.contains).or b.names.head? }) ∧
      ((¬ ∀ s ∈ b.sessions, s.IsShallow) → a.loadBook file e = .error .malformedText) := by
  refine ⟨fun s e haccepted hsave => ?_, fun b e hnames haccepted hsave => ?_⟩
  · obtain ⟨hreached, hholds⟩ := holdsSession_saveSession hd hsave
    exact ⟨hholds.loadState_eq hreached haccepted.overall,
      hholds.loadSession_cases hreached haccepted⟩
  · exact (holdsBook_saveBook hd hnames hsave).loadBook_cases hnames haccepted

/-- Arrays within arrays. -/
def nested : Nat → Json
  | 0 => .null
  | n + 1 => .arr [nested n]

theorem depth_nested (n : Nat) : (nested n).depth = n := by
  induction n with
  | zero => simp [nested, Json.depth]
  | succ n ih =>
    rw [nested, Json.depth, Json.listDepth, Json.listDepth, ih]
    omega

theorem legible_nested (n : Nat) : (nested n).Legible := by
  induction n with
  | zero => trivial
  | succ n ih => exact ⟨ih, trivial⟩

theorem canonical_nested (n : Nat) : (nested n).Canonical := by
  induction n with
  | zero => trivial
  | succ n ih => exact ⟨ih, trivial⟩

/-- A state that is nested one deeper. -/
def nestedState (n : Nat) : Snapshot := Snapshot.empty.insert "v" (nested n) (canonical_nested n)

theorem depth_nestedState (n : Nat) : (nestedState n).toJson.depth = n + 1 := by
  have hfields : (nestedState n).fields = [("v", nested n)] := rfl
  rw [Snapshot.toJson, hfields, Json.depth, Json.fieldsDepth, Json.fieldsDepth, Json.fieldDepth,
    depth_nested]
  omega

theorem isAccepted_nestedState {n : Nat} (h : n ≤ 126) : (nestedState n).IsAccepted := by
  have hlegible : (nestedState n).toJson.Legible := ⟨legible_nested n, trivial⟩
  have hdepth : n + 1 ≤ Document.maxDepth := Nat.succ_le_succ h
  refine ⟨hlegible, ?_⟩
  rw [Snapshot.parse?_pretty hlegible, depth_nestedState, if_pos hdepth]
  exact Option.some_ne_none _

/-- A session whose only execution left such a state. -/
def nestedSession (n : Nat) : Session where
  id := "s"
  executions := [⟨"n1", "", "", nestedState n, .zero⟩]
  lastUpdate := epoch
  overall := nestedState n

theorem isAccepted_nestedSession {n : Nat} (h : n ≤ 126) : (nestedSession n).IsAccepted := by
  refine ⟨isAccepted_nestedState h, fun e he => ?_⟩
  obtain rfl := List.mem_singleton.mp he
  exact isAccepted_nestedState h

theorem isShallow_nestedSession {n : Nat} : (nestedSession n).IsShallow ↔ n + 4 ≤ 127 := by
  rw [Session.IsShallow, nestedSession, List.forall_mem_singleton, depth_nestedState]
  exact Iff.rfl

/-- The disk after that session was stored. -/
def nestedStored (n : Nat) : Disk :=
  ((usual.saveSession "f" (nestedSession n) epoch).run.run .empty).2

theorem saveSession_nested :
    (usual.saveSession "f" (nestedSession 123) epoch).run.run .empty = (.ok (), nestedStored 123) ∧
    (usual.saveSession "f" (nestedSession 124) epoch).run.run .empty = (.ok (), nestedStored 124) :=
  ⟨Prod.ext (by decide +kernel) rfl, Prod.ext (by decide +kernel) rfl⟩

/-- A book with one such session. -/
def nestedBook : Book := ⟨[nestedSession 124], none⟩

/-- The disk with the folder of its file. -/
def nestedFolder : Disk := ((Disk.makeFolders (usual.fileDir "f")).run.run .empty).2

/-- The disk after its session was stored, too. -/
def nestedSessionsStored : Disk :=
  ((usual.saveSessions "f" epoch nestedBook.sessions).run.run nestedFolder).2

/-- The disk after the book was stored. -/
def nestedBookStored : Disk := ((usual.saveBook "f" nestedBook epoch).run.run .empty).2

theorem listSessions_nestedSessionsStored :
    usual.listSessions "f" nestedSessionsStored = .ok ["s"] := by
  have hthere : nestedSessionsStored.has (usual.fileDir "f") = true := by decide +kernel
  have hlist : nestedSessionsStored.list (usual.fileDir "f") = .ok ["s"] := by decide +kernel
  have hnames : (["s"].filter fun folder => nestedSessionsStored.hasFile
      (usual.inside [Component.encode "f", folder, sessionFile])).filterMap Component.decode? =
        ["s"] := by decide +kernel
  rw [listSessions, if_pos hthere, hlist]
  show Except.ok ((List.filterMap Component.decode? (List.filter _ _)).mergeSort _) = _
  rw [hnames, List.mergeSort_singleton]

theorem saveBook_nested :
    (usual.saveBook "f" nestedBook epoch).run.run .empty = (.ok (), nestedBookStored) := by
  have hfolders : (Disk.makeFolders (usual.fileDir "f")).run.run .empty =
      (.ok (), nestedFolder) := Prod.ext (by decide +kernel) rfl
  have hsessions : (usual.saveSessions "f" epoch nestedBook.sessions).run.run nestedFolder =
      (.ok (), nestedSessionsStored) := Prod.ext (by decide +kernel) rfl
  refine Prod.ext ?_ rfl
  rw [run_saveBook hfolders hsessions listSessions_nestedSessionsStored]
  decide +kernel

theorem load_iff_isShallow_nested :
    Disk.empty.IsSound ∧ (nestedSession 123).IsAccepted ∧ (nestedSession 124).IsAccepted ∧
      (usual.saveSession "f" (nestedSession 123) epoch).run.run .empty =
        (.ok (), nestedStored 123) ∧
      usual.loadSession "f" "s" (nestedStored 123) = .ok (some (nestedSession 123)) ∧
      (usual.saveSession "f" (nestedSession 124) epoch).run.run .empty =
        (.ok (), nestedStored 124) ∧
      usual.loadState "f" "s" (nestedStored 124) = .ok (some (nestedState 124)) ∧
      usual.loadSession "f" "s" (nestedStored 124) = .error .malformedText ∧
      nestedBook.names.Nodup ∧
      (usual.saveBook "f" nestedBook epoch).run.run .empty = (.ok (), nestedBookStored) ∧
      usual.loadBook "f" nestedBookStored = .error .malformedText := by
  have hshallow : (nestedSession 123).IsShallow := isShallow_nestedSession.mpr (by decide)
  have hdeep : ¬ (nestedSession 124).IsShallow := mt isShallow_nestedSession.mp (by decide)
  have haccepted : ∀ n ≤ 126, (nestedSession n).IsAccepted := fun _ => isAccepted_nestedSession
  have hnames : nestedBook.names.Nodup := List.nodup_singleton _
  obtain ⟨hsave, hsave'⟩ := saveSession_nested
  obtain ⟨hsessions, hbooks⟩ := load_iff_isShallow Disk.isSound_empty
  obtain ⟨-, hfound, -⟩ := hsessions _ _ (haccepted 123 (by decide)) hsave
  obtain ⟨hstate, -, herror⟩ := hsessions _ _ (haccepted 124 (by decide)) hsave'
  have hbook := hbooks nestedBook _ hnames
    (fun s hs => List.mem_singleton.mp hs ▸ haccepted 124 (by decide)) saveBook_nested
  refine ⟨Disk.isSound_empty, haccepted 123 (by decide), haccepted 124 (by decide), hsave,
    hfound hshallow, hsave', hstate, herror hdeep, hnames, saveBook_nested, hbook.2 fun hall => ?_⟩
  exact hdeep (hall _ (List.mem_singleton_self _))

/-- Not every session whose states are accepted is read back. -/
theorem not_always_read_back :
    ¬ ∀ (a : Archive) (file : String) (s : Session) (now : Instant) (d e : Disk), d.IsSound →
      s.IsAccepted → (a.saveSession file s now).run.run d = (.ok (), e) →
      a.loadSession file s.id e = .ok (some s) := by
  intro h
  have hsave := saveSession_nested.2
  have haccepted : (nestedSession 124).IsAccepted := isAccepted_nestedSession (by decide)
  obtain ⟨hreached, hholds⟩ := holdsSession_saveSession Disk.isSound_empty hsave
  have hdeep : ¬ (nestedSession 124).IsShallow := mt isShallow_nestedSession.mp (by decide)
  have herror := (hholds.loadSession_cases hreached haccepted).2 hdeep
  cases herror.symm.trans (h usual "f" _ epoch .empty _ Disk.isSound_empty haccepted hsave)

end Archive

end Runbook
