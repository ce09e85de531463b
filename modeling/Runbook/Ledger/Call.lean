import Runbook.Ledger
import Runbook.Ledger.Gates

/-!
# Calls under way

The calls of `Runbook.Ledger` taken apart into steps that other calls may come between. A step
reads or changes the workspace once, or calls the runner, or takes what the runner gave, or takes
or gives up a place at a gate.

Nothing can come between what one step does. This is assumed of the scheduling, which is
cooperative: one call goes on at a time, and gives way to others only where it waits, which is for
the workspace, at a gate, for the runner, or for its task. Nothing is waited for between a change
of the workspace and the write to the store that follows it, so both are one step. Calls that go on
in parallel could come between the two, and are not described here.

* `Ledger.Run`: code that is being run, a piece at a time. A runner takes its time, so the call
  and what it gives are two steps
* `Ledger.Task`: what is done while a session's turn is held. It goes on without its caller
* `Ledger.Phase`: where a call stands
* `Ledger.Phase.step`: its next step, if it is not waiting and not over
* `Ledger.Phase.abandon`: the caller goes away
-/

namespace Runbook

namespace Ledger

/-! ## Runs -/

/-- Pieces of code that are being run as one. -/
structure Run where
  /-- what the pieces before gave -/
  done : RunResult
  /-- the pieces that are left -/
  codes : List String
  /-- the number of the call by which the first of them is being run, if the runner was called -/
  call : Option Nat

namespace Run

/-- Nothing run yet. -/
def start (codes : List String) (prior : Snapshot) : Run :=
  { done := .start prior, codes, call := none }

/-- What a step leaves of a run. -/
inductive Next where
  /-- there is more to do -/
  | more (run : Run)
  /-- all pieces have run -/
  | done (result : RunResult)
  /-- the runner broke down -/
  | broken (breakdown : Breakdown)

/-- The next step of a run: calls the runner, or takes what it gave. -/
def step (l : Ledger) (r : Run) (w : World) : Next × World :=
  match r.codes, r.call with
  | [], _ => (.done r.done, w)
  | _ :: _, none => (.more { r with call := some (w.calls + 1) }, { w with calls := w.calls + 1 })
  | code :: codes, some number =>
    match l.runner.runOne code r.done number with
    | .ok done => (.more { done, codes, call := none }, w)
    | .error breakdown => (.broken breakdown, w)

end Run

/-! ## Tasks -/

/-- Work on a session whose turn is held. -/
inductive Task where
  /-- runs and records the nodes of a path; holds what the latest step recorded -/
  | path (last : Option Execution) (rest : List NodeId)
  /-- the next step is known: the state it starts from is read next -/
  | dispatch (node : NodeId) (codes : List String) (rest : List NodeId)
  /-- the step is being run; it is recorded when all of its code has run -/
  | running (node : NodeId) (run : Run) (rest : List NodeId)
  /-- runs the session anew -/
  | replay
  /-- has run the session anew up to some nodes of its path; it is put in place when none is left -/
  | replayPath (scratch : Session) (rest : List NodeId)
  /-- is running a step of the session anew -/
  | replayRunning (scratch : Session) (node : NodeId) (run : Run) (rest : List NodeId)

namespace Task

/-- Whether the runner was called and has not given anything yet. -/
def isCalling : Task → Bool
  | running _ run _ => run.call.isSome
  | replayRunning _ _ run _ => run.call.isSome
  | _ => false

/-- What a step leaves of a task: the rest of it, or what it gave. -/
inductive Next where
  /-- there is more to do -/
  | more (task : Task)
  /-- it is over -/
  | over (result : Except Fault Answer)

/-- The next step of a task. -/
def step (l : Ledger) (file session : String) (task : Task) (w : World) : Next × World :=
  match task with
  | path last [] => (.over (.ok (.execution last)), w)
  | path _ (node :: rest) =>
    match w.workspace.steps? file node with
    | none => (.more (path none rest), w)
    | some codes => (.more (dispatch node codes rest), w)
  | dispatch node codes rest =>
    match w.workspace.prior? file session node with
    | none => (.more (path none rest), w)
    | some prior => (.more (running node (.start codes prior) rest), w)
  | running node run rest =>
    match run.step l w with
    | (.more run, w) => (.more (running node run rest), w)
    | (.broken breakdown, w) => (.over (.error breakdown.fault), w)
    | (.done result, w) =>
      let (e, w) := w.commit l file session node result
      (.more (path e rest), w)
  | replay =>
    match w.workspace.session? file session with
    | none => (.over (.ok (.count 0)), w)
    | some s => (.more (replayPath (.new session w.now) s.path), w.tick)
  | replayPath scratch [] =>
    let (n, w) := w.commitReplay l file scratch
    (.over (.ok (.count n)), w)
  | replayPath scratch (node :: rest) =>
    match w.workspace.steps? file node with
    | none => (.more (replayPath scratch rest), w)
    | some codes => (.more (replayRunning scratch node (.start codes scratch.overall) rest), w)
  | replayRunning scratch node run rest =>
    match run.step l w with
    | (.more run, w) => (.more (replayRunning scratch node run rest), w)
    | (.broken breakdown, w) => (.over (.error breakdown.fault), w)
    | (.done result, w) =>
      (.more (replayPath (scratch.push (.ofRun node result) w.now) rest), w.tick)

end Task

/-! ## Phases -/

/-- What calls under way share. -/
structure Desk where
  /-- what they read and change -/
  world : World
  /-- where they wait -/
  gates : Gates

instance : Inhabited Desk := ⟨⟨default, default⟩⟩

/-- What a caller does with what its task gave. -/
inductive Report where
  /-- gives it back -/
  | pass
  /-- gives back the session, as it is then -/
  | session
  /-- settles some more sessions, whose turns it holds, and gives `answer` -/
  | settle (turns : List Turn) (answer : Answer)
  /-- nothing: the caller has gone away -/
  | nobody

/-- What a call takes a single session's turn for. -/
inductive Aim where
  /-- a task -/
  | work (task : Task) (report : Report)
  /-- to delete an edge -/
  | removeEdge (edge : EdgeId)
  /-- to delete the session -/
  | removeSession

/-- Where a call stands. -/
inductive Phase where
  /-- nothing has been done -/
  | asked (request : Request)
  /-- takes its place at a gate next -/
  | queueing (session : String) (aim : Aim)
  /-- has its place -/
  | waiting (turn : Turn) (aim : Aim)
  /-- the task is under way -/
  | working (turn : Turn) (task : Task) (report : Report)
  /-- the task is over and its turn given up; the caller takes what it gave next -/
  | reported (session : String) (report : Report) (result : Except Fault Answer)
  /-- looks at the session next -/
  | looking (session : String)
  /-- is to delete a node, and takes the turns of some sessions first; holds some already -/
  | gathering (node : NodeId) (held : List Turn) (sessions : List String)
  /-- the same, with a place at the gate of one more session -/
  | gatheringNext (node : NodeId) (held : List Turn) (turn : Turn) (sessions : List String)
  /-- settles sessions that a step was taken out of, whose turns it holds -/
  | settling (turns : List Turn) (answer : Answer)
  /-- has its answer -/
  | finished (result : Except Fault Answer)
  /-- nobody waits for an answer -/
  | abandoned

namespace Phase

instance : Inhabited Phase := ⟨abandoned⟩

/-- Whether a task is under way. -/
def isWorking : Phase → Bool
  | working .. => true
  | _ => false

/-- Whether the runner was called and has not given anything yet. -/
def isCalling : Phase → Bool
  | working _ task _ => task.isCalling
  | _ => false

/-- The place that is waited for. -/
def awaited? : Phase → Option Turn
  | waiting turn _ => some turn
  | gatheringNext _ _ turn _ => some turn
  | _ => none

/-- The places that a call has, held or waited for. -/
def turns : Phase → List Turn
  | waiting turn _ => [turn]
  | working turn _ (.settle turns _) => turn :: turns
  | working turn _ _ => [turn]
  | reported _ (.settle turns _) _ => turns
  | gathering _ held _ => held
  | gatheringNext _ held turn _ => held ++ [turn]
  | settling turns _ => turns
  | _ => []

/-- Whether the call is over. -/
def isOver : Phase → Bool
  | finished _ => true
  | abandoned => true
  | _ => false

/-- What the call gave. -/
def result? : Phase → Option (Except Fault Answer)
  | finished result => some result
  | _ => none

/-- The first step of a call. -/
def ask (l : Ledger) (file : String) (request : Request) (w : World) : Phase × World :=
  match request with
  | .start name =>
    let (outcome, w) := w.start l file name
    (finished (outcome.map (.session ∘ some)), w)
  | .record session node code => (queueing session (.work (.dispatch node [code] []) .pass), w)
  | .execute session node => (queueing session (.work (.path none [node]) .pass), w)
  | .replay session => (queueing session (.work .replay .pass), w)
  | .branch name path =>
    match w.start l file name with
    | (.error fault, w) => (finished (.error fault), w)
    | (.ok _, w) => (queueing name (.work (.path none path) .session), w)
  | .branchFromTree name target node placement =>
    match w.branchPath? file target node placement with
    | none => (finished (.ok (.session none)), w)
    | some path => (asked (.branch name path), w)
  | .removeExecutionEdge edge =>
    match w.owner? file edge with
    | none => (finished (.ok (.removal none)), w)
    | some owner => (queueing owner (.removeEdge edge), w)
  | .removeNode node => (gathering node [] (w.touching file node), w)
  | .removeSession name => (queueing name .removeSession, w)

/-- What a call does once its turn has come. -/
def act (file : String) (turn : Turn) (aim : Aim) (d : Desk) : Phase × Desk :=
  match aim with
  | .work task report => (working turn task report, d)
  | .removeEdge edge =>
    match d.world.removeEdge file edge with
    | (none, world) => (finished (.ok (.removal none)), ⟨world, d.gates.release turn⟩)
    | (some removal, world) => (settling [turn] (.removal (some removal)), { d with world })
  | .removeSession =>
    match d.world.removeSession file turn.session with
    | (.error fault, world) => (finished (.error fault), ⟨world, d.gates.release turn⟩)
    | (.ok s, world) => (finished (.ok (.session s)), ⟨world, (d.gates.release turn).prune⟩)

/-- What a call does with what its task gave. -/
def receive (session : String) (report : Report) (result : Except Fault Answer)
    (gates : Gates) : Phase × Gates :=
  match report, result with
  | .pass, _ => (finished result, gates)
  | .session, .error fault => (finished (.error fault), gates)
  | .session, .ok _ => (looking session, gates)
  | .settle turns _, .error fault => (finished (.error fault), gates.releaseAll turns)
  | .settle turns answer, .ok _ => (settling turns answer, gates)
  | .nobody, _ => (abandoned, gates)

/-- The next step of a call. There is none while it waits and when it is over. -/
def step? (l : Ledger) (file : String) (phase : Phase) (d : Desk) : Option (Phase × Desk) :=
  match phase with
  | asked request =>
    let (phase, world) := ask l file request d.world
    some (phase, { d with world })
  | queueing session aim =>
    let (turn, gates) := d.gates.arrive file session
    some (waiting turn aim, { d with gates })
  | waiting turn aim => if d.gates.isGranted turn then some (act file turn aim d) else none
  | working turn task report =>
    match task.step l file turn.session d.world with
    | (.more task, world) => some (working turn task report, { d with world })
    | (.over result, world) =>
      some (match report with
        | .nobody => abandoned
        | report => reported turn.session report result, ⟨world, d.gates.release turn⟩)
  | reported session report result =>
    let (phase, gates) := receive session report result d.gates
    some (phase, { d with gates })
  | looking session =>
    some (finished ((d.world.sessionOr file session).map (.session ∘ some)), d)
  | gathering node held (session :: sessions) =>
    let (turn, gates) := d.gates.arrive file session
    some (gatheringNext node held turn sessions, { d with gates })
  | gatheringNext node held turn sessions =>
    if d.gates.isGranted turn then some (gathering node (held ++ [turn]) sessions, d) else none
  | gathering node held [] =>
    let (affected, world) := d.world.removeNode file node
    let (kept, dropped) := held.partition fun t => affected.contains t.session
    some (settling kept (.names affected), ⟨world, d.gates.releaseAll dropped⟩)
  | settling [] answer => some (finished (.ok answer), d)
  | settling (turn :: turns) answer =>
    if l.settings.replayOnRemoval then some (working turn .replay (.settle turns answer), d)
    else some (settling turns answer,
      ⟨d.world.persistSession l file turn.session, d.gates.release turn⟩)
  | finished _ => none
  | abandoned => none

/-- The caller goes away: what it holds or waits for is given up, and nobody gets an answer. A
task that is under way goes on and holds its turn until it is over. -/
def abandon (phase : Phase) (gates : Gates) : Phase × Gates :=
  match phase with
  | working turn task (.settle turns _) => (working turn task .nobody, gates.releaseAll turns)
  | working turn task _ => (working turn task .nobody, gates)
  | finished result => (finished result, gates)
  | phase => (abandoned, gates.releaseAll phase.turns)

end Phase

/-! ## Calls -/

/-- A call under way. -/
structure Call where
  /-- the file it is about -/
  file : String
  /-- where it stands -/
  phase : Phase

instance : Inhabited Call := ⟨⟨"", default⟩⟩

namespace Call

/-- A call of which nothing has been done. -/
def of (file : String) (request : Request) : Call := ⟨file, .asked request⟩

/-- The next step of a call. -/
def step? (l : Ledger) (c : Call) (d : Desk) : Option (Call × Desk) :=
  (c.phase.step? l c.file d).map fun (phase, d) => ({ c with phase }, d)

end Call

end Ledger

end Runbook
