import Runbook.Session
import Runbook.Fault

/-!
# Sessions as chains of edges

A session's path is drawn in its file's graph as a chain of execution edges, one list of edges
serving all sessions of the file:

```text
start --1--> n1 --2--> n2 --3--> n3
```

* `Session.edges`: the chain of a session; edge `i` is labelled `i` and named after the session
  and `i`
* `Session.rebuildEdges`: puts the chain in place of whatever the session's edges are
* `Session.appendEdge`: draws the edge of the last execution only
* `Session.removeStep`: takes out the execution an edge stands for
* `Session.removeNode`: takes out every execution of a node
-/

namespace Runbook

namespace Session

/-- The name of the edge for a step of a session. -/
def edgeId (session : String) (position : Nat) : EdgeId :=
  "exec:" ++ session ++ ":" ++ toString position

/-- The edge for a step of a session. -/
def edge (session : String) (position : Nat) (source target : NodeId) : Edge :=
  { id := edgeId session position, source, target, kind := .execution session,
    label := some (toString position) }

/-- The chain through the nodes of a path, from `source` on, its first edge at `position`. -/
def edgesFrom (session : String) (position : Nat) (source : NodeId) : List NodeId → List Edge
  | [] => []
  | target :: rest => edge session position source target ::
    edgesFrom session (position + 1) target rest

/-- The chain of a session. -/
def edges (s : Session) : List Edge := edgesFrom s.id 1 startId s.path

/-- The edges that are no steps of a session. -/
def otherEdges (session : String) (es : List Edge) : List Edge :=
  es.filter fun e => !e.isExecutionOf session

/-- The edges with the session's chain in place of its steps. -/
def rebuildEdges (s : Session) (es : List Edge) : List Edge := otherEdges s.id es ++ s.edges

/-- The edges with one for the session's last execution. -/
def appendEdge (s : Session) (es : List Edge) : List Edge :=
  match s.path.reverse with
  | [] => es
  | [target] => es ++ [edge s.id 1 startId target]
  | target :: source :: _ => es ++ [edge s.id s.length source target]

/-! ## Taking out steps -/

/-- Takes out the execution that an edge stands for, and redraws the chain. The first edge of
the name counts; if it is no step of this session, or its label is no position on the path,
nothing changes. -/
def removeStep (id : EdgeId) (now : Instant) (es : List Edge) (s : Session) :
    Except Fault (Option Execution) × List Edge × Session :=
  match es.find? fun e => e.id = id with
  | none => (.error (.unknownEdge id), es, s)
  | some e =>
    if e.isExecutionOf s.id then
      match e.step?.bind fun position => s.removeAt? position now with
      | some (removed, rest) => (.ok (some removed), rest.rebuildEdges es, rest)
      | none => (.ok none, es, s)
    else (.ok none, es, s)

/-- Takes out the executions at some positions, one after another. A chain that lacks the edge
of a position is redrawn first. Counts the executions taken out, from `count` on. -/
def removePositions (now : Instant) (count : Nat) (es : List Edge) (s : Session) :
    List Nat → Except Fault Nat × List Edge × Session
  | [] => (.ok count, es, s)
  | position :: rest =>
    let id := edgeId s.id position
    let es := if es.any fun e => e.id = id then es else s.rebuildEdges es
    match removeStep id now es s with
    | (.ok removed, es, s) =>
      removePositions now (if removed.isSome then count + 1 else count) es s rest
    | (.error fault, es, s) => (.error fault, es, s)

/-- Takes out every execution of a node, the last one first, so that the positions of the others
stay what they are. -/
def removeNode (node : NodeId) (now : Instant) (es : List Edge) (s : Session) :
    Except Fault Nat × List Edge × Session :=
  removePositions now 0 es s (s.positionsOf node).reverse

@[simp] theorem length_edgesFrom (session : String) (position : Nat) (source : NodeId)
    (path : List NodeId) : (edgesFrom session position source path).length = path.length := by
  induction path generalizing position source with
  | nil => rfl
  | cons target rest ih => simp [edgesFrom, ih]

end Session

end Runbook
