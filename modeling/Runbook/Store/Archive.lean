import Runbook.Book
import Runbook.Settings
import Runbook.Store.Component
import Runbook.Store.Disk
import Runbook.Store.Memory

/-!
# Session archives

Sessions on disk. Every file has a folder, and in it every session has one:

```text
.sessions/
└── <file>/
    ├── session.config.json   # primary session and order
    └── <session>/
        ├── session.json      # executions and last change
        └── state.json        # latest state
```

* `Archive`: where the folder for sessions is
* `Archive.saveSession`, `Archive.loadSession`: one session
* `Archive.saveBook`, `Archive.loadBook`: all sessions of a file
* `Archive.saveState`, `Archive.loadState`, `Archive.removeSession`: the latest state alone
* `Archive.stats`, `Archive.clean`: the whole archive
-/

namespace Runbook

/-! ## What the files say -/

/-- The history of a session as it is stored. -/
structure SessionRecord where
  /-- the version of the form -/
  version : Nat
  /-- when it was stored -/
  savedAt : Instant
  /-- when the session last changed -/
  lastUpdate : Instant
  /-- the executions in the order they ran -/
  executions : List Execution

/-- The version in which histories are stored. -/
def SessionRecord.currentVersion : Nat := 1

/-- The record that a document holds. -/
def SessionRecord.ofDocument? (doc : Document) : Option SessionRecord := do
  match ← doc.record? ["version", "saved_at", "last_update", "executions"] with
  | [version, savedAt, lastUpdate, executions] =>
    return {
      version := ← Document.required? (Document.below? UInt32.size) version
      savedAt := ← Document.required? Instant.ofDocument? savedAt
      lastUpdate := ← Document.required? Instant.ofDocument? lastUpdate
      executions := ← Document.defaulted? [] (Document.list? Execution.ofDocument?) executions }
  | _ => none

/-- The record as a value. -/
def SessionRecord.toJson (r : SessionRecord) : Json := .obj [
  ("version", .nat r.version), ("saved_at", r.savedAt.toJson),
  ("last_update", r.lastUpdate.toJson), ("executions", .arr (r.executions.map Execution.toJson))]

/-- What is stored about a book besides its sessions. -/
structure BookRecord where
  /-- the primary session -/
  current : Option String
  /-- the sessions in order -/
  sessions : List String

/-- Nothing stored. -/
def BookRecord.empty : BookRecord := ⟨none, []⟩

/-- The record that a document holds. -/
def BookRecord.ofDocument? (doc : Document) : Option BookRecord := do
  match ← doc.record? ["current", "sessions"] with
  | [current, sessions] =>
    return {
      current := ← Document.defaulted? none (Document.option? Document.str?) current
      sessions := ← Document.defaulted? [] (Document.list? Document.str?) sessions }
  | _ => none

/-- The record as a value. -/
def BookRecord.toJson (r : BookRecord) : Json := .obj (
  Json.whenSome "current" (r.current.map .str) ++ [("sessions", .strings r.sessions)])

/-! ## Places -/

/-- An archive of sessions. -/
structure Archive where
  /-- the path of the folder for sessions, seen from the top folder -/
  dir : String
  deriving DecidableEq, Repr

namespace Archive

/-- The file for a book's record. -/
def bookFile : String := "session.config.json"

/-- The file for a session's history. -/
def sessionFile : String := "session.json"

/-- The file for a session's state. -/
def stateFile : String := "state.json"

/-- The archive that the settings ask for. -/
def ofSettings (s : Settings) : Archive := ⟨s.sessionsDir⟩

/-- The path of the folder for sessions. -/
def base (a : Archive) : List String := Disk.parts a.dir

/-- The path of something in the archive. -/
def inside (a : Archive) (names : List String) : List String := Disk.join a.base names

/-- The path of the folder of a file. -/
def fileDir (a : Archive) (file : String) : List String := a.inside [Component.encode file]

/-- The path of the folder of a session. -/
def sessionDir (a : Archive) (file session : String) : List String :=
  a.inside [Component.encode file, Component.encode session]

/-- The path of a session's history. -/
def historyPath (a : Archive) (file session : String) : List String :=
  a.inside [Component.encode file, Component.encode session, sessionFile]

/-- The path of a session's state. -/
def statePath (a : Archive) (file session : String) : List String :=
  a.inside [Component.encode file, Component.encode session, stateFile]

/-- The path of something in the archive, as it is shown: as the folder's path was given, but
without parts at either end that lead nowhere. -/
def shown (a : Archive) (names : List String) : String :=
  let parts := a.inside names
  "/".intercalate ((parts.dropWhile Disk.isIdle).reverse.dropWhile Disk.isIdle).reverse

/-- The shown path of a file's folder. -/
def shownFileDir (a : Archive) (file : String) : String := a.shown [Component.encode file]

/-- The shown path of a session's folder. -/
def shownSessionDir (a : Archive) (file session : String) : String :=
  a.shown [Component.encode file, Component.encode session]

/-- The shown path of a session's history. -/
def shownHistory (a : Archive) (file session : String) : String :=
  a.shown [Component.encode file, Component.encode session, sessionFile]

/-! ## States -/

/-- Stores the latest state of a session. -/
def saveState (a : Archive) (file session : String) (state : Snapshot) : OnDisk Unit := do
  Disk.makeFolders (a.sessionDir file session)
  Disk.write (a.statePath file session) state.pretty

/-- The state stored for a session. -/
def loadState (a : Archive) (file session : String) (d : Disk) :
    Except Fault (Option Snapshot) := do
  if d.has (a.statePath file session) then
    return some (← Snapshot.parse session (← d.read (a.statePath file session)))
  else return none

/-- The state stored for a session; the empty one if there is none or it is no state. -/
def stateOrEmpty (a : Archive) (file session : String) (d : Disk) : Snapshot :=
  match a.loadState file session d with
  | .ok (some state) => state
  | _ => .empty

/-- Takes away all that is stored for a session. -/
def removeSession (a : Archive) (file session : String) : OnDisk Unit := do
  if (← get).has (a.sessionDir file session) then Disk.removeAll (a.sessionDir file session)

/-! ## Sessions -/

/-- Stores a session: its history, then its state. -/
def saveSession (a : Archive) (file : String) (s : Session) (now : Instant) : OnDisk Unit := do
  Disk.makeFolders (a.sessionDir file s.id)
  let r : SessionRecord := {
    version := SessionRecord.currentVersion, savedAt := now, lastUpdate := s.lastUpdate,
    executions := s.executions }
  Disk.write (a.historyPath file s.id) r.toJson.pretty
  a.saveState file s.id s.overall

/-- The session stored under a name. A state that is missing or no state counts as empty. -/
def loadSession (a : Archive) (file session : String) (d : Disk) :
    Except Fault (Option Session) := do
  if d.has (a.historyPath file session) then
    match (Document.read? (← d.read (a.historyPath file session))).bind
      SessionRecord.ofDocument? with
    | none => .error .malformedText
    | some r =>
      return some {
        id := session, executions := r.executions, lastUpdate := r.lastUpdate,
        overall := a.stateOrEmpty file session d }
  else return none

/-- The names of the sessions stored for a file, in order: one for every folder with a history
whose name can be read back. -/
def listSessions (a : Archive) (file : String) (d : Disk) : Except Fault (List String) := do
  if d.has (a.fileDir file) then
    let folders ← d.list (a.fileDir file)
    let held := folders.filter fun folder =>
      d.hasFile (a.inside [Component.encode file, folder, sessionFile])
    return (held.filterMap Component.decode?).mergeSort (· ≤ ·)
  else return []

/-! ## Books -/

/-- Stores some sessions of a file. -/
def saveSessions (a : Archive) (file : String) (now : Instant) : List Session → OnDisk Unit
  | [] => return
  | s :: rest => do
    a.saveSession file s now
    saveSessions a file now rest

/-- Takes away all that is stored for some sessions of a file. -/
def removeSessions (a : Archive) (file : String) : List String → OnDisk Unit
  | [] => return
  | name :: rest => do
    a.removeSession file name
    removeSessions a file rest

/-- Stores all sessions of a file, takes away those stored before that are no longer in the
book, and stores the book's record. -/
def saveBook (a : Archive) (file : String) (b : Book) (now : Instant) : OnDisk Unit := do
  Disk.makeFolders (a.fileDir file)
  a.saveSessions file now b.sessions
  let stored ← Disk.look (a.listSessions file)
  a.removeSessions file (stored.filter fun name => !b.contains name)
  let r : BookRecord := { current := b.primary, sessions := b.names }
  Disk.write (a.inside [Component.encode file, bookFile]) r.toJson.pretty

/-- The record of a file's book; the empty one if there is none. -/
def loadBookRecord (a : Archive) (file : String) (d : Disk) : Except Fault BookRecord := do
  let path := a.inside [Component.encode file, bookFile]
  if d.has path then
    match (Document.read? (← d.read path)).bind BookRecord.ofDocument? with
    | some r => return r
    | none => .error .malformedText
  else return .empty

/-- Adds the sessions stored under some names to a book. Names without a session are skipped. -/
def loadInto (a : Archive) (file : String) (d : Disk) (b : Book) :
    List String → Except Fault Book
  | [] => return b
  | name :: rest => do
    match ← a.loadSession file name d with
    | some s => loadInto a file d (b.insert s) rest
    | none => loadInto a file d b rest

/-- All sessions stored for a file: first those in the order of the book's record, then the rest
in the order of their names. The first session is primary unless the record names one. -/
def loadBook (a : Archive) (file : String) (d : Disk) : Except Fault Book := do
  let r ← a.loadBookRecord file d
  let stored ← a.listSessions file d
  let b ← a.loadInto file d .empty (r.sessions ++ stored.filter fun n => !r.sessions.contains n)
  let b := match r.current with
    | some name => b.setPrimary name
    | none => b
  return match b.primary, b.names with
    | none, first :: _ => b.setPrimary first
    | _, _ => b

/-! ## The whole archive -/

/-- Whether there is anything at the path of the folder for sessions. -/
def isThere (a : Archive) (d : Disk) : Bool := d.has a.base

/-- Takes away the folder for sessions. -/
def clean (a : Archive) : OnDisk Unit := do
  if a.isThere (← get) then Disk.removeAll a.base

/-- The files of the archive, with the name and text of each. -/
def files (a : Archive) (d : Disk) : List (String × String) := d.filesUnder a.base

/-- What an archive amounts to. -/
structure Stats where
  /-- bytes in all files -/
  size : Nat
  /-- files -/
  files : Nat
  /-- stored histories -/
  sessions : Nat
  deriving DecidableEq, Repr

/-- What the archive amounts to; nothing if it is not there. -/
def stats (a : Archive) (d : Disk) : Stats where
  size := (a.files d).foldl (fun size f => size + f.2.utf8ByteSize) 0
  files := (a.files d).length
  sessions := ((a.files d).filter fun f => f.1 = sessionFile).length

end Archive

end Runbook
