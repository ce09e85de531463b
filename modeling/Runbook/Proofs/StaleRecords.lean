import Runbook.Proofs.PrefixTree
import Runbook.Proofs.SavedBooks

/-!
# Records that are out of date

The record of a book and the folders of its sessions may disagree. Sessions may be listed twice, or
listed and gone, or there and not listed, and folders may have names that no session has. What
counts is which histories there are. The record only says in which order they come, as far as it
lists them, and which of them is primary, if it is there.

* `Archive.history?`, `Archive.latest?`, `Archive.found?`: what the files of a session say
* `Archive.listSessions_spec`: the names that are listed, on any disk
* `Archive.insert_foundBook`, `Archive.loadInto_foundBook`: a session that comes up again is the
  same
* `Archive.IsIntact`, `Archive.IsRecovered`: what must be readable, and what is found
* `Archive.loadBook_of_isIntact`: it is found whatever the record says
-/

namespace Runbook

/-! ## Texts at the end of a path -/

namespace Disk

/-- The text of the file at the end of a path. -/
def textAt? (d : Disk) (path : List String) : Option String :=
  match d.find? path with
  | some (.file text) => some text
  | _ => none

variable {d : Disk} {path : List String}

theorem textAt?_eq_some_iff {text : String} :
    d.textAt? path = some text ↔ d.find? path = some (.file text) := by
  rw [textAt?]
  rcases d.find? path with _ | (other | _) <;> simp

theorem hasFile_eq : d.hasFile path = (d.textAt? path).isSome := by
  rw [hasFile, textAt?]
  rcases d.find? path with _ | (text | _) <;> rfl

theorem mem_of_at? {place : Place} {entry : Entry} (h : d.at? place = some entry) :
    (place, entry) ∈ d.entries := by
  obtain ⟨⟨p, _⟩, hfound, rfl⟩ := Option.map_eq_some_iff.mp h
  have hp := List.find?_some hfound
  obtain rfl : p = place := of_decide_eq_true hp
  exact List.mem_of_find?_eq_some hfound

end Disk

/-- A session that takes the place of itself changes nothing. -/
theorem Book.replaceFirst_eq_self {name : String} {s : Session} {ss : List Session}
    (h : ∀ t ∈ ss, t.id = name → t = s) : replaceFirst name s ss = ss := by
  induction ss with
  | nil => rfl
  | cons t rest ih =>
    obtain ⟨ht, hrest⟩ := List.forall_mem_cons.mp h
    rw [replaceFirst]
    split
    · rw [ht ‹_›]
    · rw [ih hrest]

namespace Archive

variable {a : Archive} {d : Disk} {file name : String} {r : BookRecord}

/-- Where anything is found in the archive its path can be followed. -/
theorem isReached_of_find? (hd : d.IsSound) {names : List String} {entry : Entry}
    (h : d.find? (a.inside names) = some entry) : a.IsReached d := by
  obtain ⟨place, hfollow, hplace⟩ := Option.bind_eq_some_iff.mp h
  refine ⟨hd, ?_⟩
  have htop : d.at? [] = some .folder := hd.tree.top (hplace ▸ Option.some_ne_none entry)
  rw [Disk.follow?] at hfollow
  split at hfollow
  · rw [inside_eq] at hfollow
    exact (Disk.Passable.of_walk? hd.tree _ htop hfollow).of_append _
  · cases hfollow

/-! ## What the files of a session say -/

/-- The history of a session, if there is one that can be read. -/
def history? (a : Archive) (file session : String) (d : Disk) : Option SessionRecord :=
  (d.textAt? (a.historyPath file session)).bind fun text =>
    (Document.read? text).bind SessionRecord.ofDocument?

/-- The latest state of a session, if there is one that can be read. -/
def latest? (a : Archive) (file session : String) (d : Disk) : Option Snapshot :=
  (d.textAt? (a.statePath file session)).bind Snapshot.parse?

/-- The session that its history and its latest state amount to; without a state the empty one. -/
def found? (a : Archive) (file session : String) (d : Disk) : Option Session :=
  (a.history? file session d).map fun history => {
    id := session, executions := history.executions, lastUpdate := history.lastUpdate,
    overall := (a.latest? file session d).getD .empty }

theorem id_of_found? {s : Session} (h : a.found? file name d = some s) : s.id = name := by
  obtain ⟨history, -, rfl⟩ := Option.map_eq_some_iff.mp h
  rfl

/-- A state that cannot be read counts as empty, whatever is the matter with it. -/
theorem stateOrEmpty_eq (a : Archive) (file session : String) (d : Disk) :
    a.stateOrEmpty file session d = (a.latest? file session d).getD .empty := by
  unfold stateOrEmpty
  rw [loadState, latest?, Disk.has, Disk.read, Disk.textAt?]
  rcases d.find? (a.statePath file session) with _ | (text | _)
  · rfl
  · simp only [Option.isSome_some, if_true, Option.bind_some, Snapshot.parse, bind, Except.bind]
    cases Snapshot.parse? text <;> rfl
  · rfl

/-- The session that is loaded is the one that is found, unless something other than a history lies
in the history's place. -/
theorem loadSession_eq_found? (h : ∀ entry, d.find? (a.historyPath file name) = some entry →
    a.history? file name d ≠ none) :
    a.loadSession file name d = .ok (a.found? file name d) := by
  rw [loadSession, found?, Disk.has, Disk.read]
  rw [history?, Disk.textAt?] at h ⊢
  rcases hfind : d.find? (a.historyPath file name) with _ | (text | _)
  · rfl
  · have hread := h _ hfind
    rw [hfind, Option.bind_some] at hread
    obtain ⟨history, hhistory⟩ := Option.ne_none_iff_exists'.mp hread
    simp only [Option.isSome_some, if_true, Option.bind_some, hhistory, Option.map_some, bind,
      Except.bind, stateOrEmpty_eq]
    rfl
  · have hread := h _ hfind
    rw [hfind] at hread
    exact absurd rfl hread

/-! ## What is listed -/

/-- The sessions that are listed for a file are those with a history, in order, each once. All that
can be wrong with the disk is that a file lies where the folder should. -/
theorem listSessions_spec (hd : d.IsSound)
    (hfolder : ∀ text, d.find? (a.fileDir file) ≠ some (.file text)) :
    ∃ stored, a.listSessions file d = .ok stored ∧ stored.Pairwise (· ≤ ·) ∧ stored.Nodup ∧
      ∀ name, name ∈ stored ↔ d.hasFile (a.historyPath file name) = true := by
  rcases hfind : d.find? (a.fileDir file) with _ | (text | _)
  · refine ⟨[], listSessions_of_none hfind, .nil, .nil, fun name =>
      iff_of_false List.not_mem_nil fun hhas => ?_⟩
    -- a history would lie in a folder, and there is none
    obtain ⟨text, htext⟩ := Option.isSome_iff_exists.mp (Disk.hasFile_eq ▸ hhas)
    have hreached := isReached_of_find? hd (Disk.textAt?_eq_some_iff.mp htext)
    rw [(hreached.folder_of_hasFile hhas).2] at hfind
    cases hfind
  · exact absurd hfind (hfolder text)
  · obtain ⟨stored, hlist⟩ := exists_listSessions hfind
    exact ⟨stored, hlist, mem_of_listSessions (isReached_of_find? hd hfind) hlist⟩

/-! ## Names that come up again -/

/-- The sessions that are found under some names, each once, in the order in which they come up. -/
def foundBook (a : Archive) (file : String) (d : Disk) (names : List String) : Book where
  sessions := names.eraseDups.filterMap (a.found? file · d)
  primary := none

theorem mem_foundBook {names : List String} {s : Session} :
    s ∈ (a.foundBook file d names).sessions ↔
      s.id ∈ names ∧ a.found? file s.id d = some s := by
  rw [foundBook, List.mem_filterMap]
  constructor
  · rintro ⟨name, hname, hfound⟩
    obtain rfl := id_of_found? hfound
    exact ⟨List.mem_eraseDups.mp hname, hfound⟩
  · rintro ⟨hname, hfound⟩
    exact ⟨s.id, List.mem_eraseDups.mpr hname, hfound⟩

theorem names_foundBook (a : Archive) (file : String) (d : Disk) (names : List String) :
    (a.foundBook file d names).names =
      names.eraseDups.filter fun name => (a.found? file name d).isSome := by
  show (names.eraseDups.filterMap (a.found? file · d)).map Session.id = _
  induction names.eraseDups with
  | nil => rfl
  | cons name rest ih =>
    cases hfound : a.found? file name d with
    | none =>
      rw [List.filterMap_cons_none (f := (a.found? file · d)) hfound, ih,
        List.filter_cons_of_neg (by simp [hfound])]
    | some s =>
      rw [List.filterMap_cons_some (f := (a.found? file · d)) hfound, List.map_cons, ih,
        id_of_found? hfound, List.filter_cons_of_pos (by simp [hfound])]

/-- One more name adds the session that is found under it, unless it came up before. -/
theorem sessions_foundBook_concat (a : Archive) (file : String) (d : Disk) (names : List String)
    (name : String) : (a.foundBook file d (names ++ [name])).sessions =
      (a.foundBook file d names).sessions ++
        if name ∈ names then [] else (a.found? file name d).toList := by
  rw [foundBook, foundBook, eraseDups_concat]
  split
  · rw [List.append_nil]
  · rw [List.filterMap_append]
    cases hfound : a.found? file name d with
    | none => rw [List.filterMap_cons_none (f := (a.found? file · d)) hfound]; rfl
    | some s => rw [List.filterMap_cons_some (f := (a.found? file · d)) hfound]; rfl

/-- A session that comes up again takes its own place. -/
theorem insert_foundBook {names : List String} {s : Session}
    (hfound : a.found? file name d = some s) :
    (a.foundBook file d names).insert s = a.foundBook file d (names ++ [name]) := by
  obtain rfl := id_of_found? hfound
  have hcontains : (a.foundBook file d names).contains s.id = true ↔ s.id ∈ names := by
    rw [Book.contains_iff_mem_names, names_foundBook, List.mem_filter, hfound,
      List.mem_eraseDups]
    exact and_iff_left rfl
  have hadd := sessions_foundBook_concat a file d names s.id
  rw [hfound] at hadd
  by_cases hmem : s.id ∈ names
  · have hsame : ∀ t ∈ (a.foundBook file d names).sessions, t.id = s.id → t = s := by
      intro t ht hid
      have hfound' := (mem_foundBook.mp ht).2
      rw [hid] at hfound'
      exact Option.some.inj (hfound'.symm.trans hfound)
    rw [if_pos hmem, List.append_nil] at hadd
    rw [Book.insert, if_pos (hcontains.mpr hmem), Book.replace, Book.replaceFirst_eq_self hsame,
      ← hadd]
    rfl
  · rw [if_neg hmem] at hadd
    rw [Book.insert, if_neg (mt hcontains.mp hmem)]
    show Book.mk ((a.foundBook file d names).sessions ++ (some s).toList) none = _
    rw [← hadd]
    rfl

/-- A name under which nothing is found adds nothing. -/
theorem foundBook_concat_of_none {names : List String} (hnone : a.found? file name d = none) :
    a.foundBook file d (names ++ [name]) = a.foundBook file d names := by
  have hadd := sessions_foundBook_concat a file d names name
  rw [hnone, Option.toList_none, ite_self, List.append_nil] at hadd
  exact congrArg (Book.mk · none) hadd

/-- After all names have been gone through the book has what is found under them. -/
theorem loadInto_foundBook (rest : List String) : ∀ seen : List String,
    (∀ n ∈ rest, a.loadSession file n d = .ok (a.found? file n d)) →
    a.loadInto file d (a.foundBook file d seen) rest =
      .ok (a.foundBook file d (seen ++ rest)) := by
  induction rest with
  | nil =>
    intro seen _
    rw [List.append_nil]
    rfl
  | cons name rest ih =>
    intro seen h
    obtain ⟨hname, hrest⟩ := List.forall_mem_cons.mp h
    have hmore := ih (seen ++ [name]) hrest
    rw [List.append_assoc, List.singleton_append] at hmore
    rw [loadInto, hname, ← hmore]
    cases hfound : a.found? file name d with
    | none =>
      rw [foundBook_concat_of_none hfound]
      rfl
    | some s =>
      rw [← insert_foundBook hfound]
      rfl

/-! ## Books -/

/-- What is stored for a file can be read, as far as it is there. States need not be readable, and
what the record lists need not be there. -/
structure IsIntact (a : Archive) (file : String) (r : BookRecord) (d : Disk) : Prop where
  /-- no file lies where the folder should -/
  folder : ∀ text, d.find? (a.fileDir file) ≠ some (.file text)
  /-- the record of the book says this, or there is none -/
  record : d.find? (a.bookPath file) = none ∧ r = .empty ∨
    ∃ text, d.find? (a.bookPath file) = some (.file text) ∧
      (Document.read? text).bind BookRecord.ofDocument? = some r
  /-- every history says something -/
  histories : ∀ name text, d.find? (a.historyPath file name) = some (.file text) →
    (Document.read? text).bind SessionRecord.ofDocument? ≠ none
  /-- no folder lies where a history should that the record asks for -/
  files : ∀ name ∈ r.sessions, d.find? (a.historyPath file name) ≠ some .folder

/-- A book has all that is found for a file. -/
structure IsRecovered (a : Archive) (file : String) (r : BookRecord) (d : Disk) (b : Book) :
    Prop where
  /-- no session is there twice -/
  nodup : b.names.Nodup
  /-- there is one for every folder with a history whose name can be read back -/
  mem : ∀ name, name ∈ b.names ↔ ∃ folder, Component.decode? folder = some name ∧
    d.hasFile (a.inside [Component.encode file, folder, sessionFile]) = true
  /-- first come those that the record lists, in the order in which it first does so, then the rest
  in the order of their names -/
  order : ∃ rest, b.names =
      (r.sessions.eraseDups.filter fun name => d.hasFile (a.historyPath file name)) ++ rest ∧
    rest.Pairwise (· < ·) ∧ ∀ name ∈ rest, name ∉ r.sessions
  /-- what ran in a session and when it last changed is what its history says -/
  histories : ∀ s ∈ b.sessions, ∃ history, a.history? file s.id d = some history ∧
    s.executions = history.executions ∧ s.lastUpdate = history.lastUpdate
  /-- its state is the one that is stored, or empty if there is none that can be read -/
  states : ∀ s ∈ b.sessions, s.overall = (a.latest? file s.id d).getD .empty
  /-- the primary session is the one of the record if it is there, or else the first -/
  primary : b.primary = (r.current.filter b.contains).or b.names.head?
  /-- so there is one unless there are no sessions -/
  unset : b.primary = none ↔ b.sessions = []

namespace IsIntact

variable (h : a.IsIntact file r d)

include h

theorem loadBookRecord_eq : a.loadBookRecord file d = .ok r := by
  rcases h.record with ⟨hnone, rfl⟩ | ⟨text, htext, hread⟩
  · rw [bookPath] at hnone
    rw [loadBookRecord]
    simp only [Disk.has, hnone, Option.isSome_none, Bool.false_eq_true, if_false]
    rfl
  · exact loadBookRecord_of_find? htext hread

theorem history?_ne_none (hhas : d.hasFile (a.historyPath file name) = true) :
    a.history? file name d ≠ none := by
  obtain ⟨text, htext⟩ := Option.isSome_iff_exists.mp (Disk.hasFile_eq ▸ hhas)
  rw [history?, htext, Option.bind_some]
  exact h.histories name text (Disk.textAt?_eq_some_iff.mp htext)

/-- A session is found where there is a history. -/
theorem isSome_found? (name : String) :
    (a.found? file name d).isSome = d.hasFile (a.historyPath file name) := by
  rw [found?, Option.isSome_map, Bool.eq_iff_iff]
  constructor
  · intro hsome
    obtain ⟨history, hhistory⟩ := Option.isSome_iff_exists.mp hsome
    obtain ⟨text, htext, -⟩ := Option.bind_eq_some_iff.mp hhistory
    rw [Disk.hasFile_eq, htext, Option.isSome_some]
  · exact fun hhas => Option.isSome_iff_ne_none.mpr (h.history?_ne_none hhas)

/-- Sessions that the record lists or that have a history are loaded as they are found. -/
theorem loadSession_eq (hname : name ∈ r.sessions ∨ d.hasFile (a.historyPath file name) = true) :
    a.loadSession file name d = .ok (a.found? file name d) := by
  refine loadSession_eq_found? fun entry hentry => ?_
  refine h.history?_ne_none ?_
  rcases hname with hlisted | hhas
  · cases entry with
    | file text => rw [Disk.hasFile_eq, Disk.textAt?_eq_some_iff.mpr hentry, Option.isSome_some]
    | folder => exact absurd hentry (h.files name hlisted)
  · exact hhas

end IsIntact

/-- The names that are gone through: those in the record, then those that it leaves out. -/
def listed (r : BookRecord) (stored : List String) : List String :=
  r.sessions ++ stored.filter fun name => !r.sessions.contains name

/-- A book whose primary session is chosen has one unless it has no sessions. -/
theorem primary_eq_none_iff {b : Book} {current : Option String}
    (hprimary : b.primary = (current.filter b.contains).or b.names.head?) :
    b.primary = none ↔ b.sessions = [] := by
  rw [hprimary, Option.or_eq_none_iff]
  constructor
  · exact fun hnone => List.map_eq_nil_iff.mp (List.head?_eq_none_iff.mp hnone.2)
  · intro hnil
    have hnone : b.names = [] := List.map_eq_nil_iff.mpr hnil
    refine ⟨Option.filter_eq_none_iff.mpr fun name _ hthere => ?_, by rw [hnone]; rfl⟩
    rw [Book.contains_iff_mem_names, hnone] at hthere
    exact absurd hthere List.not_mem_nil

section Recovering

variable {stored : List String} {b : Book} (h : a.IsIntact file r d) (hnodup : stored.Nodup)
  (hstored : ∀ name, name ∈ stored ↔ d.hasFile (a.historyPath file name) = true)
  (hsessions : b.sessions = (a.foundBook file d (listed r stored)).sessions)

include h hnodup hstored hsessions

/-- The sessions that are found are those of the record that have a history, then the others that
have one. -/
theorem IsIntact.names_eq : b.names =
    (r.sessions.eraseDups.filter fun name => d.hasFile (a.historyPath file name)) ++
      stored.filter fun name => !r.sessions.contains name := by
  have hnames : b.names = (a.foundBook file d (listed r stored)).names :=
    congrArg (List.map Session.id) hsessions
  have honce : (listed r stored).eraseDups =
      r.sessions.eraseDups ++ stored.filter fun name => !r.sessions.contains name := by
    rw [listed, eraseDups_append_of_nodup _ (hnodup.filter _), List.filter_filter]
    simp only [Bool.and_self]
  rw [hnames, names_foundBook, honce, List.filter_append]
  simp only [h.isSome_found?]
  rw [List.filter_eq_self.mpr fun name hname => (hstored name).mp (List.mem_filter.mp hname).1]

theorem IsIntact.mem_names (name : String) :
    name ∈ b.names ↔ d.hasFile (a.historyPath file name) = true := by
  rw [h.names_eq hnodup hstored hsessions, List.mem_append, List.mem_filter, List.mem_filter,
    List.mem_eraseDups, hstored]
  by_cases hlisted : name ∈ r.sessions <;> simp [hlisted]

theorem IsIntact.isRecovered (hsorted : stored.Pairwise (· ≤ ·))
    (hprimary : b.primary = (r.current.filter b.contains).or b.names.head?) :
    a.IsRecovered file r d b := by
  have hnames := h.names_eq hnodup hstored hsessions
  have hfound : ∀ s ∈ b.sessions, a.found? file s.id d = some s := by
    intro s hs
    rw [hsessions] at hs
    exact (mem_foundBook.mp hs).2
  refine ⟨?_, fun name => ?_, ⟨_, hnames, ?_, ?_⟩, fun s hs => ?_, fun s hs => ?_, hprimary,
    primary_eq_none_iff hprimary⟩
  · rw [hnames]
    refine ((nodup_eraseDups _).filter _).append (hnodup.filter _) fun name hname hrest => ?_
    have hlisted := List.mem_eraseDups.mp (List.mem_filter.mp hname).1
    simpa [hlisted] using (List.mem_filter.mp hrest).2
  · rw [h.mem_names hnodup hstored hsessions]
    constructor
    · exact fun hhas => ⟨Component.encode name, Component.decode?_encode name, hhas⟩
    · rintro ⟨folder, hfolder, hhas⟩
      rw [Component.decode?_eq_some_iff.mp hfolder] at hhas
      exact hhas
  · exact ((hsorted.and hnodup).filter _).imp fun hlt => lt_of_le_of_ne hlt.1 hlt.2
  · exact fun name hname => by simpa using (List.mem_filter.mp hname).2
  · obtain ⟨history, hhistory, hs⟩ := Option.map_eq_some_iff.mp (hfound s hs)
    rw [← hs]
    exact ⟨history, hhistory, rfl, rfl⟩
  · obtain ⟨history, -, hs⟩ := Option.map_eq_some_iff.mp (hfound s hs)
    rw [← hs]

end Recovering

/-- **A record that is out of date does no harm.** Whatever a disk has for a file, if its folder is
no file, the record of its book is missing or can be read, and every history can be read, the book
is loaded. It has the sessions with a history in a folder whose name can be read back, each once:
first those that the record lists, in the order in which it first lists them, then the rest in the
order of their names. Every session is as its files say, with an empty state if there is none that
can be read, and the primary session is that of the record if it is there, or else the first. -/
theorem loadBook_of_isIntact (hd : d.IsSound) (h : a.IsIntact file r d) :
    ∃ b, a.loadBook file d = .ok b ∧ a.IsRecovered file r d b := by
  obtain ⟨stored, hlist, hsorted, hnodup, hstored⟩ := listSessions_spec hd h.folder
  have hload : a.loadInto file d .empty (listed r stored) =
      .ok (a.foundBook file d (listed r stored)) := by
    refine loadInto_foundBook _ [] fun name hname => h.loadSession_eq ?_
    refine (List.mem_append.mp hname).imp id fun hrest => ?_
    exact (hstored name).mp (List.mem_filter.mp hrest).1
  have hbook : a.loadBook file d =
      .ok (withPrimary (a.foundBook file d (listed r stored)) r.current) := by
    rw [loadBook, h.loadBookRecord_eq, hlist]
    show (a.loadInto file d .empty (listed r stored) >>= _) = _
    rw [hload]
    rfl
  rw [withPrimary_eq _ rfl] at hbook
  exact ⟨_, hbook, h.isRecovered hnodup hstored rfl hsorted rfl⟩

/-- A record that lists one session twice, and one that is gone as the primary one, too. -/
def staleRecord : BookRecord := ⟨some "gone", ["b", "gone", "b", "a"]⟩

/-- The history of a session in which nothing has run. -/
def staleHistory : String := (historyOf (Session.new "a" epoch) epoch).toJson.pretty

/-- A disk with that record, three sessions, and a folder that is not the folder of a session. One
session has a state that cannot be read, and the others have none. -/
def staleDisk : Disk where
  entries := [
    ([], .folder), ([".sessions"], .folder), ([".sessions", "f"], .folder),
    ([".sessions", "f", "session.config.json"], .file staleRecord.toJson.pretty),
    ([".sessions", "f", "a"], .folder),
    ([".sessions", "f", "a", "session.json"], .file staleHistory),
    ([".sessions", "f", "b"], .folder),
    ([".sessions", "f", "b", "session.json"], .file staleHistory),
    ([".sessions", "f", "b", "state.json"], .file "lost"),
    ([".sessions", "f", "c"], .folder),
    ([".sessions", "f", "c", "session.json"], .file staleHistory),
    ([".sessions", "f", "%zz"], .folder),
    ([".sessions", "f", "%zz", "session.json"], .file "lost")]

theorem isSound_staleDisk : staleDisk.IsSound := by
  have htree : ∀ place ∈ staleDisk.entries.map Prod.fst,
      staleDisk.at? place.dropLast = some .folder := by decide +kernel
  exact ⟨fun place hplace => htree place (Disk.at?_ne_none_iff.mp hplace), by decide +kernel⟩

/-- The histories on that disk are those of the three sessions. -/
theorem find?_historyPath_staleDisk {name : String} {entry : Entry}
    (h : staleDisk.find? (usual.historyPath "f" name) = some entry) :
    (name = "a" ∨ name = "b" ∨ name = "c") ∧ entry = .file staleHistory := by
  have hplace : usual.historyPlace "f" name =
      [".sessions", "f", Component.encode name, "session.json"] := by
    have hroot : usual.root ++ [Component.encode "f"] = [".sessions", "f"] := by decide +kernel
    rw [historyPlace, sessionPlace_eq_filePlace, filePlace, hroot]
    rfl
  have hfind := (isReached_of_find? isSound_staleDisk h).find?_historyPath "f" name
  rw [h, hplace] at hfind
  split at hfind
  · have hmem := Disk.mem_of_at? hfind.symm
    simp only [staleDisk, List.mem_cons, Prod.mk.injEq, List.cons.injEq, String.reduceEq,
      List.not_mem_nil, reduceCtorEq, and_true, and_false, true_and, false_and, or_false,
      false_or] at hmem
    have hname : ∀ {folder : String}, Component.encode name = folder →
        Component.decode? folder = some name := fun heq => heq ▸ Component.decode?_encode name
    have ha : Component.decode? "a" = some "a" := by decide +kernel
    have hb : Component.decode? "b" = some "b" := by decide +kernel
    have hc : Component.decode? "c" = some "c" := by decide +kernel
    have hnone : Component.decode? "%zz" = none := by decide +kernel
    rcases hmem with ⟨heq, htext⟩ | ⟨heq, htext⟩ | ⟨heq, htext⟩ | ⟨heq, -⟩
    · exact ⟨.inl (Option.some.inj ((hname heq).symm.trans ha)), htext⟩
    · exact ⟨.inr (.inl (Option.some.inj ((hname heq).symm.trans hb))), htext⟩
    · exact ⟨.inr (.inr (Option.some.inj ((hname heq).symm.trans hc))), htext⟩
    · cases hnone.symm.trans (hname heq)
  · cases hfind

theorem isIntact_staleDisk : usual.IsIntact "f" staleRecord staleDisk := by
  have hfolder : staleDisk.find? (usual.fileDir "f") = some .folder := by decide +kernel
  have hrecord : staleDisk.find? (usual.bookPath "f") =
      some (.file staleRecord.toJson.pretty) := by decide +kernel
  refine ⟨fun text htext => ?_, .inr ⟨_, hrecord, BookRecord.read?_pretty staleRecord⟩,
    fun name text htext => ?_, fun name _ hname => ?_⟩
  · cases hfolder.symm.trans htext
  · obtain rfl := Entry.file.inj (find?_historyPath_staleDisk htext).2
    rw [staleHistory, (isReadable_new "a").1]
    exact Option.some_ne_none _
  · cases (find?_historyPath_staleDisk hname).2

/-- The session that is gone is left out, and the first one is primary in its place. -/
theorem loadBook_of_isIntact_staleDisk :
    staleDisk.IsSound ∧ usual.IsIntact "f" staleRecord staleDisk ∧
      ∃ b, usual.loadBook "f" staleDisk = .ok b ∧ b.names = ["b", "a", "c"] ∧
        b.primary = some "b" ∧ ∀ s ∈ b.sessions, s.overall = .empty := by
  obtain ⟨b, hload, hb⟩ := loadBook_of_isIntact isSound_staleDisk isIntact_staleDisk
  obtain ⟨rest, hnames, hsorted, hnew⟩ := hb.order
  have hlisted : (staleRecord.sessions.eraseDups.filter fun name =>
      staleDisk.hasFile (usual.historyPath "f" name)) = ["b", "a"] := by decide +kernel
  rw [hlisted] at hnames
  have hrest : rest = ["c"] := by
    refine List.perm_singleton.mp ((List.perm_ext_iff_of_nodup (hsorted.imp ne_of_lt)
      (List.nodup_singleton _)).mpr fun name => ⟨fun hname => ?_, fun hname => ?_⟩)
    · have hthere : name ∈ b.names := hnames ▸ List.mem_append_right _ hname
      obtain ⟨folder, hfolder, hhas⟩ := (hb.mem name).mp hthere
      obtain rfl := Component.decode?_eq_some_iff.mp hfolder
      obtain ⟨text, htext⟩ := Option.isSome_iff_exists.mp (Disk.hasFile_eq ▸ hhas)
      have hother := hnew name hname
      rcases (find?_historyPath_staleDisk (Disk.textAt?_eq_some_iff.mp htext)).1 with
        rfl | rfl | rfl
      · exact absurd (by decide +kernel) hother
      · exact absurd (by decide +kernel) hother
      · exact List.mem_singleton_self _
    · obtain rfl := List.mem_singleton.mp hname
      have hthere : "c" ∈ b.names := (hb.mem "c").mpr ⟨"c", by decide +kernel, by decide +kernel⟩
      rw [hnames] at hthere
      exact (List.mem_append.mp hthere).resolve_left (by decide +kernel)
  have hall : b.names = ["b", "a", "c"] := by rw [hnames, hrest]; rfl
  refine ⟨isSound_staleDisk, isIntact_staleDisk, b, hload, hall, ?_, fun s hs => ?_⟩
  · have hgone : b.contains "gone" = false := by
      rw [Bool.eq_false_iff, Ne, Book.contains_iff_mem_names, hall]
      decide +kernel
    rw [hb.primary, hall, staleRecord, Option.filter_some, hgone]
    rfl
  · have hname : s.id ∈ ["b", "a", "c"] := hall ▸ List.mem_map_of_mem hs
    have hnone : ∀ name ∈ ["b", "a", "c"], (usual.latest? "f" name staleDisk).isNone = true := by
      decide +kernel
    rw [hb.states s hs, Option.isNone_iff_eq_none.mp (hnone _ hname)]
    rfl

end Archive

end Runbook
