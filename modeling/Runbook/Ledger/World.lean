import Runbook.Store
import Runbook.Workspace

/-!
# The world of a ledger

What calls on a ledger read and change, and the changes they make. Each change here is one
indivisible step: the workspace is updated, and the store right after it. This assumes that calls
are scheduled cooperatively: a call gives way to others only where it waits, and it waits for
nothing between the update and the write to the store. Where a deletion leaves the store to be
written later, that is a step of its own.

* `World`: the workspace, the store, the clock, and the count of runner calls
* `Ledger`: the runner and the settings, which never change
* `World.start`, `World.commit`, `World.commitReplay`, `World.removeEdge`, …: the changes
-/

namespace Runbook

/-- What calls on a ledger read and change. -/
structure World where
  /-- the files with their sessions -/
  workspace : Workspace
  /-- the latest states -/
  store : Store
  /-- the clock -/
  clock : Clock
  /-- how often the runner was called -/
  calls : Nat

/-- Who runs code, and how sessions are kept. -/
structure Ledger where
  /-- runs the code -/
  runner : Runner
  /-- how sessions are kept -/
  settings : Settings

namespace World

/-- A world with nothing loaded. -/
def initial (store : Store) : World := { workspace := .empty, store, clock := ⟨0⟩, calls := 0 }

instance : Inhabited World := ⟨initial default⟩

/-- What the clock shows. -/
def now (w : World) : Instant := w.clock.now

/-- The world after a tick of the clock. -/
def tick (w : World) : World := { w with clock := w.clock.tick }

/-- The world with another workspace, after a tick of the clock. -/
def withWorkspace (w : World) (workspace : Workspace) : World := { w.tick with workspace }

/-- Stores the state of a session, if the settings ask for it. A store that refuses is let be. -/
def persist (l : Ledger) (file session : String) (state : Snapshot) (w : World) : World :=
  if l.settings.persist then { w with store := (w.store.save file session state).2 } else w

/-! ## Changes -/

/-- Starts an empty session. -/
def start (l : Ledger) (file name : String) (w : World) : Except Fault Session × World :=
  match w.workspace.startSession file name w.now with
  | .ok (s, workspace) => (.ok s, (w.withWorkspace workspace).persist l file name s.overall)
  | .error fault => (.error fault, w)

/-- Records what a run gave as the next step of a session. -/
def commit (l : Ledger) (file session : String) (node : NodeId) (r : RunResult) (w : World) :
    Option Execution × World :=
  match w.workspace.commit? file session node r w.now with
  | some ((e, state), workspace) =>
    (some e, (w.withWorkspace workspace).persist l file session state)
  | none => (none, w)

/-- Puts a session run anew in the place of the one of its name; gives its length. -/
def commitReplay (l : Ledger) (file : String) (scratch : Session) (w : World) : Nat × World :=
  match w.workspace.commitReplay? file scratch with
  | some workspace =>
    (scratch.length, { w with workspace }.persist l file scratch.id scratch.overall)
  | none => (0, w)

/-- Deletes an edge. -/
def removeEdge (file : String) (id : EdgeId) (w : World) : Option Removal × World :=
  let (removal, workspace) := w.workspace.removeEdge file id w.now
  (removal, w.withWorkspace workspace)

/-- Deletes a node; gives the names of the sessions that ran it. -/
def removeNode (file : String) (node : NodeId) (w : World) : List String × World :=
  let (names, workspace) := w.workspace.removeNode file node w.now
  (names, w.withWorkspace workspace)

/-- Deletes a session and what is stored for it. -/
def removeSession (file name : String) (w : World) : Except Fault (Option Session) × World :=
  match w.workspace.removeSession? file name with
  | none => (.ok none, w)
  | some (s, workspace) =>
    let (outcome, store) := w.store.remove file name
    (outcome.map fun _ => some s, { w with workspace, store })

/-- Stores the state that a session has now, if it is there. -/
def persistSession (l : Ledger) (file name : String) (w : World) : World :=
  match w.workspace.session? file name with
  | some s => w.persist l file name s.overall
  | none => w

/-! ## Looks -/

/-- The session whose step an edge is. -/
def owner? (w : World) (file : String) (id : EdgeId) : Option String :=
  (w.workspace.file? file).bind fun f => (f.graph.edge? id).bind fun e => e.kind.session?

/-- The names of the sessions that ran a node, in order. -/
def touching (w : World) (file : String) (node : NodeId) : List String :=
  match w.workspace.file? file with
  | some f => (f.book.touching node).mergeSort (· ≤ ·)
  | none => []

/-- The path of a session that branches off at a node of the file's tree. -/
def branchPath? (w : World) (file target : String) (node : NodeId) (placement : Tree.Placement) :
    Option (List NodeId) :=
  (w.workspace.tree? file).bind fun t => t.branchPath? target node placement

/-- A session, or the fault that it is not there. -/
def sessionOr (w : World) (file name : String) : Except Fault Session :=
  match w.workspace.session? file name with
  | some s => .ok s
  | none => .error (.sessionNotFound file name)

end World

end Runbook
