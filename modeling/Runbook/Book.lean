import Runbook.Session.Path

/-!
# Session books

All sessions of a file in the order they were started, and the primary one among them.

* `Book.start`, `Book.insert`, `Book.remove?`: sessions come and go
* `Book.setPrimary`, `Book.refreshPrimary`: which session is primary
-/

namespace Runbook

/-- The sessions of a file. -/
structure Book where
  /-- the sessions in the order they were started -/
  sessions : List Session
  /-- the name of the primary session -/
  primary : Option String

namespace Book

/-- The book without sessions. -/
def empty : Book := ⟨[], none⟩

instance : Inhabited Book := ⟨empty⟩

/-- The session of this name. -/
def get? (b : Book) (name : String) : Option Session := b.sessions.find? fun s => s.id = name

/-- Whether there is a session of this name. -/
def contains (b : Book) (name : String) : Bool := (b.get? name).isSome

/-- The names of the sessions in order. -/
def names (b : Book) : List String := b.sessions.map Session.id

/-- Puts a session in the place of the first one of a name. -/
def replaceFirst (name : String) (session : Session) : List Session → List Session
  | [] => []
  | s :: rest => if s.id = name then session :: rest else s :: replaceFirst name session rest

/-- The book with a session in the place of the first one of a name. -/
def replace (b : Book) (name : String) (session : Session) : Book :=
  { b with sessions := replaceFirst name session b.sessions }

/-- Starts an empty session under a free name. The first one becomes primary. -/
def start (b : Book) (file name : String) (now : Instant) : Except Fault (Session × Book) :=
  if b.contains name then .error (.duplicateSession file name)
  else
    let s := Session.new name now
    .ok (s, { sessions := b.sessions ++ [s], primary := b.primary.orElse fun _ => some name })

/-- The book with a session put in the place of one of its name, or added at the end. -/
def insert (b : Book) (s : Session) : Book :=
  if b.contains s.id then b.replace s.id s else { b with sessions := b.sessions ++ [s] }

/-- The session updated last; of several at the same instant, the last in the list. -/
def latest? : List Session → Option Session
  | [] => none
  | s :: rest => some (rest.foldl (fun best t => if best.lastUpdate.le t.lastUpdate then t else best) s)

/-- Takes out a session. If it was primary, the one updated last takes its place. -/
def remove? (b : Book) (name : String) : Option (Session × Book) :=
  (b.get? name).map fun s =>
    let rest := b.sessions.eraseP fun t => t.id = name
    (s, {
      sessions := rest
      primary := if b.primary = some name then (latest? rest).map Session.id else b.primary })

/-- The book with a session of it as the primary one; any other name is ignored. -/
def setPrimary (b : Book) (name : String) : Book :=
  if b.contains name then { b with primary := some name } else b

/-- Whether the primary session exists and is not empty. -/
def primaryIsLive (b : Book) : Bool :=
  match b.primary.bind b.get? with
  | some s => !s.isEmpty
  | none => false

/-- Moves primary from a session that is empty or gone to the one updated last of those that
are not empty, if there is any. -/
def refreshPrimary (b : Book) : Book :=
  if b.primaryIsLive then b
  else
    match latest? (b.sessions.filter fun s => !s.isEmpty) with
    | some s => { b with primary := some s.id }
    | none => b

/-- The names of the sessions in which a node ran, in order. -/
def touching (b : Book) (node : NodeId) : List String :=
  (b.sessions.filter fun s => s.contains node).map Session.id

/-- The book that a document holds. -/
def ofDocument? (doc : Document) : Option Book := do
  match ← doc.record? ["sessions", "primary"] with
  | [sessions, primary] =>
    return {
      sessions := ← Document.required? (Document.list? Session.ofDocument?) sessions
      primary := ← Document.defaulted? none (Document.option? Document.str?) primary }
  | _ => none

/-- The book as a value. -/
def toJson (b : Book) : Json := .obj [
  ("sessions", .arr (b.sessions.map Session.toJson)), ("primary", .optionStr b.primary)]

end Book

end Runbook
