import Runbook.Ledger.World

/-!
# Ledgers

A ledger runs nodes in sessions and records what they gave. This module says what each call does
when no other call is under way; `Runbook.Ledger.Call` takes the same calls apart into the steps
that other calls may come between.

* `Ledger.Request`, `Ledger.Answer`: the calls, and what they give
* `Ledger.execute`: runs some code as one step of a session
* `Ledger.replay`: runs a session anew from the empty state
* `Ledger.branch`: starts a session and runs a path in it
* `Ledger.removeExecutionEdge`, `Ledger.removeNode`, `Ledger.removeSession`: deletions
* `Ledger.answer`: any call
-/

namespace Runbook

namespace Ledger

/-! ## Requests and answers -/

/-- A call on a ledger, which is about one file. -/
inductive Request where
  /-- start an empty session -/
  | start (name : String)
  /-- run given code as a step of a node -/
  | record (session : String) (node : NodeId) (code : String)
  /-- run a node -/
  | execute (session : String) (node : NodeId)
  /-- run a session anew -/
  | replay (session : String)
  /-- start a session and run a path in it -/
  | branch (name : String) (path : List NodeId)
  /-- the same with a path that branches off at a node of the tree -/
  | branchFromTree (name target : String) (node : NodeId) (placement : Tree.Placement)
  /-- delete an execution edge -/
  | removeExecutionEdge (edge : EdgeId)
  /-- delete a node -/
  | removeNode (node : NodeId)
  /-- delete a session -/
  | removeSession (name : String)

/-- What a call gives. -/
inductive Answer where
  /-- a session, or none -/
  | session (s : Option Session)
  /-- an execution, or none if nothing was run or recorded -/
  | execution (e : Option Execution)
  /-- how many executions there are now -/
  | count (n : Nat)
  /-- what was removed -/
  | removal (r : Option Removal)
  /-- the names of the sessions that were repaired -/
  | names (names : List String)

/-! ## Running -/

/-- Runs pieces of code as one, on top of a state. -/
def run (l : Ledger) (codes : List String) (prior : Snapshot) (w : World) :
    Except Fault RunResult × World :=
  let (outcome, calls) := l.runner.runAll codes prior w.calls
  (outcome.mapError Breakdown.fault, { w with calls })

/-- Runs code as the next step of a session and records it. Nothing is run if the node or the
session is not there. -/
def execute (l : Ledger) (file session : String) (node : NodeId) (codes : List String)
    (w : World) : Except Fault (Option Execution) × World :=
  match w.workspace.prior? file session node with
  | none => (.ok none, w)
  | some prior =>
    match l.run codes prior w with
    | (.error fault, w) => (.error fault, w)
    | (.ok r, w) =>
      let (e, w) := w.commit l file session node r
      (.ok e, w)

/-- Runs a node as the next step of a session. -/
def executeNode (l : Ledger) (file session : String) (node : NodeId) (w : World) :
    Except Fault (Option Execution) × World :=
  match w.workspace.steps? file node with
  | none => (.ok none, w)
  | some codes => l.execute file session node codes w

/-- Runs the nodes of a path one after another in a session that is on no book yet. Nodes that
mean no code are left out. -/
def replayPath (l : Ledger) (file : String) (scratch : Session) (w : World) :
    List NodeId → Except Fault Session × World
  | [] => (.ok scratch, w)
  | node :: rest =>
    match w.workspace.steps? file node with
    | none => replayPath l file scratch w rest
    | some codes =>
      match l.run codes scratch.overall w with
      | (.error fault, w) => (.error fault, w)
      | (.ok r, w) => replayPath l file (scratch.push (.ofRun node r) w.now) w.tick rest

/-- Runs a session's path anew from the empty state, and puts the outcome in its place once all
of it has run. Gives the number of executions. -/
def replay (l : Ledger) (file session : String) (w : World) : Except Fault Nat × World :=
  match w.workspace.session? file session with
  | none => (.ok 0, w)
  | some s =>
    match l.replayPath file (.new session w.now) w.tick s.path with
    | (.error fault, w) => (.error fault, w)
    | (.ok scratch, w) =>
      let (n, w) := w.commitReplay l file scratch
      (.ok n, w)

/-- Runs and records the nodes of a path one after another. -/
def runPath (l : Ledger) (file session : String) (w : World) :
    List NodeId → Except Fault Unit × World
  | [] => (.ok (), w)
  | node :: rest =>
    match l.executeNode file session node w with
    | (.error fault, w) => (.error fault, w)
    | (.ok _, w) => runPath l file session w rest

/-- Starts a session and runs a path in it. -/
def branch (l : Ledger) (file name : String) (path : List NodeId) (w : World) :
    Except Fault Session × World :=
  match w.start l file name with
  | (.error fault, w) => (.error fault, w)
  | (.ok _, w) =>
    match l.runPath file name w path with
    | (.error fault, w) => (.error fault, w)
    | (.ok (), w) => (w.sessionOr file name, w)

/-- Starts a session that branches off at a node of the tree. -/
def branchFromTree (l : Ledger) (file name target : String) (node : NodeId)
    (placement : Tree.Placement) (w : World) : Except Fault (Option Session) × World :=
  match w.branchPath? file target node placement with
  | none => (.ok none, w)
  | some path =>
    let (outcome, w) := l.branch file name path w
    (outcome.map some, w)

/-! ## Deleting -/

/-- Settles sessions that a step was taken out of: runs them anew if the settings ask for it, and
stores their states otherwise. -/
def settle (l : Ledger) (file : String) (w : World) : List String → Except Fault Unit × World
  | [] => (.ok (), w)
  | name :: rest =>
    if l.settings.replayOnRemoval then
      match l.replay file name w with
      | (.error fault, w) => (.error fault, w)
      | (.ok _, w) => settle l file w rest
    else settle l file (w.persistSession l file name) rest

/-- Takes the step out of its session that an execution edge stands for. Other edges stay. -/
def removeExecutionEdge (l : Ledger) (file : String) (edge : EdgeId) (w : World) :
    Except Fault (Option Removal) × World :=
  match w.owner? file edge with
  | none => (.ok none, w)
  | some owner =>
    match w.removeEdge file edge with
    | (none, w) => (.ok none, w)
    | (some removal, w) =>
      let (outcome, w) := l.settle file w [owner]
      (outcome.map fun _ => some removal, w)

/-- Deletes a node and settles the sessions that ran it, in the order of their names. -/
def removeNode (l : Ledger) (file : String) (node : NodeId) (w : World) :
    Except Fault (List String) × World :=
  let touching := w.touching file node
  let (affected, w) := w.removeNode file node
  let (outcome, w) := l.settle file w (touching.filter affected.contains)
  (outcome.map fun _ => affected, w)

/-! ## All calls -/

/-- What a call does when no other is under way. -/
def answer (l : Ledger) (file : String) (request : Request) (w : World) :
    Except Fault Answer × World :=
  let give {α : Type} (f : α → Answer) (p : Except Fault α × World) := (p.1.map f, p.2)
  match request with
  | .start name => give (.session ∘ some) (w.start l file name)
  | .record session node code => give .execution (l.execute file session node [code] w)
  | .execute session node => give .execution (l.executeNode file session node w)
  | .replay session => give .count (l.replay file session w)
  | .branch name path => give (.session ∘ some) (l.branch file name path w)
  | .branchFromTree name target node placement =>
    give .session (l.branchFromTree file name target node placement w)
  | .removeExecutionEdge edge => give .removal (l.removeExecutionEdge file edge w)
  | .removeNode node => give .names (l.removeNode file node w)
  | .removeSession name => give .session (w.removeSession file name)

end Ledger

end Runbook
