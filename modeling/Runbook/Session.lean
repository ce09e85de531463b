import Runbook.Node
import Runbook.Snapshot
import Runbook.Time

/-!
# Sessions

A session is a named history of runs that share one interpreter state.

* `RunResult`: what one run gave
* `Execution`: one run of a node, as recorded
* `Session`: the record, with `Session.push`, `Session.removeAt?`, `Session.reset`
-/

namespace Runbook

/-- What running some code gave. -/
structure RunResult where
  /-- what it printed -/
  stdout : String
  /-- what it complained about -/
  stderr : String
  /-- the state it left -/
  state : Snapshot
  /-- how long it took -/
  time : Duration

/-- Whether the code ran without complaint. -/
def RunResult.succeeded (r : RunResult) : Bool := r.stderr.isEmpty

/-! ## Executions -/

/-- One recorded run of a node. -/
structure Execution where
  /-- the node that ran -/
  node : NodeId
  /-- what it printed -/
  stdout : String
  /-- what it complained about -/
  stderr : String
  /-- the state it left -/
  state : Snapshot
  /-- how long it took -/
  time : Duration

namespace Execution

/-- The record of a run. -/
def ofRun (node : NodeId) (r : RunResult) : Execution :=
  { node, stdout := r.stdout, stderr := r.stderr, state := r.state, time := r.time }

/-- Whether the node ran without complaint. -/
def succeeded (e : Execution) : Bool := e.stderr.isEmpty

/-- The execution that a document holds. -/
def ofDocument? (doc : Document) : Option Execution := do
  match ← doc.record? ["node_id", "stdout", "stderr", "state", "execution_time"] with
  | [node, stdout, stderr, state, time] =>
    return {
      node := ← Document.required? Document.str? node
      stdout := ← Document.defaulted? "" Document.str? stdout
      stderr := ← Document.defaulted? "" Document.str? stderr
      state := ← Document.defaulted? .empty Snapshot.ofDocument? state
      time := ← Document.defaulted? .zero Duration.ofDocument? time }
  | _ => none

/-- The execution as a value. -/
def toJson (e : Execution) : Json := .obj [
  ("node_id", .str e.node), ("stdout", .str e.stdout), ("stderr", .str e.stderr),
  ("state", e.state.toJson), ("execution_time", e.time.toJson)]

end Execution

/-! ## Sessions -/

/-- A named history of executions. -/
structure Session where
  /-- its name, one of a kind within the file -/
  id : String
  /-- the executions in the order they ran -/
  executions : List Execution
  /-- when it last changed -/
  lastUpdate : Instant
  /-- the state the next execution starts from -/
  overall : Snapshot

namespace Session

/-- A session in which nothing has run. -/
def new (id : String) (now : Instant) : Session :=
  { id, executions := [], lastUpdate := now, overall := .empty }

/-- The number of executions. -/
def length (s : Session) : Nat := s.executions.length

/-- Whether nothing has run. -/
def isEmpty (s : Session) : Bool := s.executions.isEmpty

/-- The nodes in the order they ran. -/
def path (s : Session) : List NodeId := s.executions.map Execution.node

/-- Whether a node has run. -/
def contains (s : Session) (node : NodeId) : Bool := s.path.contains node

/-- The state that the last of some executions left. -/
def lastState (executions : List Execution) : Snapshot :=
  match executions.getLast? with
  | some e => e.state
  | none => .empty

/-- The session after one more execution, whose state it takes over. -/
def push (s : Session) (e : Execution) (now : Instant) : Session :=
  { s with executions := s.executions ++ [e], lastUpdate := now, overall := e.state }

/-- The execution at a position counted from one, and the session without it. The state is then
the one that the last remaining execution left. -/
def removeAt? (s : Session) (position : Nat) (now : Instant) : Option (Execution × Session) :=
  if position = 0 then none
  else
    s.executions[position - 1]?.map fun e =>
      let rest := s.executions.eraseIdx (position - 1)
      (e, { s with executions := rest, lastUpdate := now, overall := lastState rest })

/-- The session with nothing run. -/
def reset (s : Session) (now : Instant) : Session := new s.id now

/-- The last execution of a node. -/
def lastOf? (s : Session) (node : NodeId) : Option Execution :=
  (s.executions.filter fun e => e.node = node).getLast?

/-- The positions at which a node ran, counted from one. -/
def positionsOf (s : Session) (node : NodeId) : List Nat :=
  (s.executions.zipIdx 1).filterMap fun (e, i) => if e.node = node then some i else none

@[simp] theorem path_push (s : Session) (e : Execution) (now : Instant) :
    (s.push e now).path = s.path ++ [e.node] := by
  simp [push, path]

@[simp] theorem id_push (s : Session) (e : Execution) (now : Instant) : (s.push e now).id = s.id :=
  rfl

/-- The session that a document holds. -/
def ofDocument? (doc : Document) : Option Session := do
  match ← doc.record? ["id", "executions", "last_update", "overall_configuration"] with
  | [id, executions, lastUpdate, overall] =>
    return {
      id := ← Document.required? Document.str? id
      executions := ← Document.defaulted? [] (Document.list? Execution.ofDocument?) executions
      lastUpdate := ← Document.required? Instant.ofDocument? lastUpdate
      overall := ← Document.defaulted? .empty Snapshot.ofDocument? overall }
  | _ => none

/-- The session as a value. -/
def toJson (s : Session) : Json := .obj [
  ("id", .str s.id), ("executions", .arr (s.executions.map Execution.toJson)),
  ("last_update", s.lastUpdate.toJson), ("overall_configuration", s.overall.toJson)]

end Session

end Runbook
