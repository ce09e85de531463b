import Runbook.Ledger.Traffic
import Runbook.Proofs.Worlds

/-!
# Runs of the traffic

Anything may happen at a desk in any order: new calls, steps of calls, callers that go away, and
changes of the workspace that no call makes.

* `Event`, `Traffic.next`: what may happen, and what it leaves
* `Traffic.Moves`: all that an event can do; `Traffic.Moves.call`, `Traffic.Moves.call_after` and
  `Traffic.Moves.workspace` say what it does to one call and to the workspace
* `Traffic.run`, `Traffic.history`: the traffic at each moment of a run
* `Task.Steps`, `Phase.Asks`, `Phase.Steps`: all that a step of a task and of a call can be
* `Phase.Makes`: the update that the next step of a call makes
* `Phase.workspace_step?`: a step makes that update or leaves the workspace alone
-/

namespace Runbook

namespace Ledger

/-! ## Steps -/

/-- Running code does nothing to the workspace. -/
theorem Run.workspace_eq {r : Run} {l : Ledger} {next : Next} {w w' : World}
    (h : r.step l w = (next, w')) : w'.workspace = w.workspace := by
  rw [step] at h
  split at h
  · cases h
    rfl
  · cases h
    rfl
  · split at h <;> cases h <;> rfl

namespace Task

/-- All that a step of a task on a session can be. -/
inductive Steps (l : Ledger) (file session : String) (w : World) : Task → Next → World → Prop
  /-- the path has come to its end -/
  | pathEnd {last : Option Execution} :
    Steps l file session w (path last []) (.over (.ok (.execution last))) w
  /-- the next node means no code -/
  | skip {last : Option Execution} {node : NodeId} {rest : List NodeId}
    (hsteps : w.workspace.steps? file node = none) :
    Steps l file session w (path last (node :: rest)) (.more (path none rest)) w
  /-- the next node means some code -/
  | know {last : Option Execution} {node : NodeId} {codes : List String} {rest : List NodeId}
    (hsteps : w.workspace.steps? file node = some codes) :
    Steps l file session w (path last (node :: rest)) (.more (dispatch node codes rest)) w
  /-- the session or the node is not there -/
  | miss {node : NodeId} {codes : List String} {rest : List NodeId}
    (hprior : w.workspace.prior? file session node = none) :
    Steps l file session w (dispatch node codes rest) (.more (path none rest)) w
  /-- the step begins, from the state that the session has -/
  | dispatch {node : NodeId} {codes : List String} {rest : List NodeId} {prior : Snapshot}
    (hprior : w.workspace.prior? file session node = some prior) :
    Steps l file session w (dispatch node codes rest)
      (.more (running node (.start codes prior) rest)) w
  /-- the step goes on -/
  | run {node : NodeId} {run run' : Run} {rest : List NodeId} {w' : World}
    (hrun : run.step l w = (.more run', w')) :
    Steps l file session w (running node run rest) (.more (running node run' rest)) w'
  /-- the step breaks down -/
  | breakDown {node : NodeId} {run : Run} {rest : List NodeId} {breakdown : Breakdown} {w' : World}
    (hrun : run.step l w = (.broken breakdown, w')) :
    Steps l file session w (running node run rest) (.over (.error breakdown.fault)) w'
  /-- the step has run and is recorded -/
  | commit {node : NodeId} {run : Run} {rest : List NodeId} {result : RunResult}
    {e : Option Execution} {w' w'' : World} (hrun : run.step l w = (.done result, w'))
    (hcommit : w'.commit l file session node result = (e, w'')) :
    Steps l file session w (running node run rest) (.more (path e rest)) w''
  /-- there is no session to run anew -/
  | missAnew (hs : w.workspace.session? file session = none) :
    Steps l file session w replay (.over (.ok (.count 0))) w
  /-- the session is to be run anew -/
  | readPath {s : Session} (hs : w.workspace.session? file session = some s) :
    Steps l file session w replay (.more (replayPath (.new session w.now) s.path)) w.tick
  /-- the session has run anew and is put in place -/
  | commitAnew {scratch : Session} {n : Nat} {w' : World}
    (hcommit : w.commitReplay l file scratch = (n, w')) :
    Steps l file session w (replayPath scratch []) (.over (.ok (.count n))) w'
  /-- the next node means no code -/
  | skipAnew {scratch : Session} {node : NodeId} {rest : List NodeId}
    (hsteps : w.workspace.steps? file node = none) :
    Steps l file session w (replayPath scratch (node :: rest)) (.more (replayPath scratch rest)) w
  /-- the next step begins, from the state that was come to -/
  | dispatchAnew {scratch : Session} {node : NodeId} {codes : List String} {rest : List NodeId}
    (hsteps : w.workspace.steps? file node = some codes) :
    Steps l file session w (replayPath scratch (node :: rest))
      (.more (replayRunning scratch node (.start codes scratch.overall) rest)) w
  /-- the step goes on -/
  | runAnew {scratch : Session} {node : NodeId} {run run' : Run} {rest : List NodeId} {w' : World}
    (hrun : run.step l w = (.more run', w')) :
    Steps l file session w (replayRunning scratch node run rest)
      (.more (replayRunning scratch node run' rest)) w'
  /-- the step breaks down -/
  | breakDownAnew {scratch : Session} {node : NodeId} {run : Run} {rest : List NodeId}
    {breakdown : Breakdown} {w' : World} (hrun : run.step l w = (.broken breakdown, w')) :
    Steps l file session w (replayRunning scratch node run rest)
      (.over (.error breakdown.fault)) w'
  /-- the step has run and is kept -/
  | pushAnew {scratch : Session} {node : NodeId} {run : Run} {rest : List NodeId}
    {result : RunResult} {w' : World} (hrun : run.step l w = (.done result, w')) :
    Steps l file session w (replayRunning scratch node run rest)
      (.more (replayPath (scratch.push (.ofRun node result) w'.now) rest)) w'.tick

/-- There is no other step. -/
theorem steps_of_step {l : Ledger} {file session : String} {task : Task} {next : Next}
    {w w' : World} (h : task.step l file session w = (next, w')) :
    Steps l file session w task next w' := by
  cases task with
  | path last nodes =>
    cases nodes with
    | nil =>
      cases h
      exact .pathEnd
    | cons node rest =>
      rw [step] at h
      split at h <;> cases h
      · exact .skip ‹_›
      · exact .know ‹_›
  | dispatch node codes rest =>
    rw [step] at h
    split at h <;> cases h
    · exact .miss ‹_›
    · exact .dispatch ‹_›
  | running node run rest =>
    rw [step] at h
    split at h <;> cases h
    · exact .run ‹_›
    · exact .breakDown ‹_›
    · exact .commit ‹_› rfl
  | replay =>
    rw [step] at h
    split at h <;> cases h
    · exact .missAnew ‹_›
    · exact .readPath ‹_›
  | replayPath scratch nodes =>
    cases nodes with
    | nil =>
      cases h
      exact .commitAnew rfl
    | cons node rest =>
      rw [step] at h
      split at h <;> cases h
      · exact .skipAnew ‹_›
      · exact .dispatchAnew ‹_›
  | replayRunning scratch node run rest =>
    rw [step] at h
    split at h <;> cases h
    · exact .runAnew ‹_›
    · exact .breakDownAnew ‹_›
    · exact .pushAnew ‹_›

end Task

namespace Phase

/-- All that the first step of a call on a file can be. -/
inductive Asks (l : Ledger) (file : String) (w : World) : Request → Phase → World → Prop
  /-- a session is started, or not -/
  | start {name : String} {outcome : Except Fault Session} {w' : World}
    (h : w.start l file name = (outcome, w')) :
    Asks l file w (.start name) (finished (outcome.map (.session ∘ some))) w'
  /-- the session's turn is to be taken to run the code -/
  | record {session : String} {node : NodeId} {code : String} :
    Asks l file w (.record session node code)
      (queueing session (.work (.dispatch node [code] []) .pass)) w
  /-- the session's turn is to be taken to run the node -/
  | execute {session : String} {node : NodeId} :
    Asks l file w (.execute session node) (queueing session (.work (.path none [node]) .pass)) w
  /-- the session's turn is to be taken to run it anew -/
  | replay {session : String} :
    Asks l file w (.replay session) (queueing session (.work .replay .pass)) w
  /-- no session can be started to branch off -/
  | branchRefused {name : String} {path : List NodeId} {fault : Fault} {w' : World}
    (h : w.start l file name = (.error fault, w')) :
    Asks l file w (.branch name path) (finished (.error fault)) w'
  /-- a session is started, and its turn is to be taken to run the path -/
  | branch {name : String} {path : List NodeId} {s : Session} {w' : World}
    (h : w.start l file name = (.ok s, w')) :
    Asks l file w (.branch name path) (queueing name (.work (.path none path) .session)) w'
  /-- there is no path that branches off -/
  | branchNowhere {name target : String} {node : NodeId} {placement : Tree.Placement}
    (h : w.branchPath? file target node placement = none) :
    Asks l file w (.branchFromTree name target node placement) (finished (.ok (.session none))) w
  /-- the path that branches off is known -/
  | branchFromTree {name target : String} {node : NodeId} {placement : Tree.Placement}
    {path : List NodeId} (h : w.branchPath? file target node placement = some path) :
    Asks l file w (.branchFromTree name target node placement) (asked (.branch name path)) w
  /-- the edge is no step of a session -/
  | missEdge {edge : EdgeId} (h : w.owner? file edge = none) :
    Asks l file w (.removeExecutionEdge edge) (finished (.ok (.removal none))) w
  /-- the turn of the session is to be taken whose step the edge is -/
  | removeEdge {edge : EdgeId} {owner : String} (h : w.owner? file edge = some owner) :
    Asks l file w (.removeExecutionEdge edge) (queueing owner (.removeEdge edge)) w
  /-- the turns of the sessions are to be taken that ran the node -/
  | removeNode {node : NodeId} :
    Asks l file w (.removeNode node) (gathering node [] (w.touching file node)) w
  /-- the session's turn is to be taken to delete it -/
  | removeSession {name : String} :
    Asks l file w (.removeSession name) (queueing name .removeSession) w

/-- There is no other first step. -/
theorem asks_of_ask {l : Ledger} {file : String} {request : Request} {phase : Phase} {w w' : World}
    (h : ask l file request w = (phase, w')) : Asks l file w request phase w' := by
  cases request with
  | start name =>
    cases h
    exact .start rfl
  | record session node code =>
    cases h
    exact .record
  | execute session node =>
    cases h
    exact .execute
  | replay session =>
    cases h
    exact .replay
  | branch name path =>
    rw [ask] at h
    split at h <;> cases h
    · exact .branchRefused ‹_›
    · exact .branch ‹_›
  | branchFromTree name target node placement =>
    rw [ask] at h
    split at h <;> cases h
    · exact .branchNowhere ‹_›
    · exact .branchFromTree ‹_›
  | removeExecutionEdge edge =>
    rw [ask] at h
    split at h <;> cases h
    · exact .missEdge ‹_›
    · exact .removeEdge ‹_›
  | removeNode node =>
    cases h
    exact .removeNode
  | removeSession name =>
    cases h
    exact .removeSession

/-- All that a step of a call on a file can be. -/
inductive Steps (l : Ledger) (file : String) (d : Desk) : Phase → Phase → Desk → Prop
  /-- the call is looked at for the first time -/
  | ask {request : Request} {phase : Phase} {w : World}
    (h : Asks l file d.world request phase w) :
    Steps l file d (asked request) phase { d with world := w }
  /-- it takes its place at a gate -/
  | queue {session : String} {aim : Aim} : Steps l file d (queueing session aim)
      (waiting (d.gates.arrive file session).1 aim)
      { d with gates := (d.gates.arrive file session).2 }
  /-- its turn has come, and its task begins -/
  | begin {turn : Turn} {task : Task} {report : Report} (hturn : d.gates.isGranted turn = true) :
    Steps l file d (waiting turn (.work task report)) (working turn task report) d
  /-- its turn has come, and there is no edge to delete -/
  | missEdge {turn : Turn} {edge : EdgeId} {w : World} (hturn : d.gates.isGranted turn = true)
    (h : d.world.removeEdge file edge = (none, w)) :
    Steps l file d (waiting turn (.removeEdge edge)) (finished (.ok (.removal none)))
      ⟨w, d.gates.release turn⟩
  /-- its turn has come, and it deletes an edge -/
  | removeEdge {turn : Turn} {edge : EdgeId} {removal : Removal} {w : World}
    (hturn : d.gates.isGranted turn = true)
    (h : d.world.removeEdge file edge = (some removal, w)) :
    Steps l file d (waiting turn (.removeEdge edge)) (settling [turn] (.removal (some removal)))
      { d with world := w }
  /-- its turn has come, and it deletes the session -/
  | removeSession {turn : Turn} {s : Option Session} {w : World}
    (hturn : d.gates.isGranted turn = true)
    (h : d.world.removeSession file turn.session = (.ok s, w)) :
    Steps l file d (waiting turn .removeSession) (finished (.ok (.session s)))
      ⟨w, (d.gates.release turn).prune⟩
  /-- the same, with a store that refuses -/
  | removeSessionRefused {turn : Turn} {fault : Fault} {w : World}
    (hturn : d.gates.isGranted turn = true)
    (h : d.world.removeSession file turn.session = (.error fault, w)) :
    Steps l file d (waiting turn .removeSession) (finished (.error fault))
      ⟨w, d.gates.release turn⟩
  /-- the task goes on -/
  | work {turn : Turn} {task task' : Task} {report : Report} {w : World}
    (h : task.step l file turn.session d.world = (.more task', w)) :
    Steps l file d (working turn task report) (working turn task' report) { d with world := w }
  /-- the task is over -/
  | finish {turn : Turn} {task : Task} {report : Report} {result : Except Fault Answer} {w : World}
    (hreport : report ≠ .nobody)
    (h : task.step l file turn.session d.world = (.over result, w)) :
    Steps l file d (working turn task report) (reported turn.session report result)
      ⟨w, d.gates.release turn⟩
  /-- the task is over, and nobody is there any more -/
  | finishAlone {turn : Turn} {task : Task} {result : Except Fault Answer} {w : World}
    (h : task.step l file turn.session d.world = (.over result, w)) :
    Steps l file d (working turn task .nobody) abandoned ⟨w, d.gates.release turn⟩
  /-- the caller gives back what the task gave -/
  | give {session : String} {result : Except Fault Answer} :
    Steps l file d (reported session .pass result) (finished result) d
  /-- the caller gives back the fault of the task -/
  | giveFault {session : String} {fault : Fault} :
    Steps l file d (reported session .session (.error fault)) (finished (.error fault)) d
  /-- the caller is to look at the session -/
  | lookNext {session : String} {answer : Answer} :
    Steps l file d (reported session .session (.ok answer)) (looking session) d
  /-- the caller gives up the sessions that are not settled yet -/
  | breakOff {session : String} {turns : List Turn} {answer : Answer} {fault : Fault} :
    Steps l file d (reported session (.settle turns answer) (.error fault))
      (finished (.error fault)) { d with gates := d.gates.releaseAll turns }
  /-- the caller goes on with the sessions that are not settled yet -/
  | goOn {session : String} {turns : List Turn} {answer other : Answer} :
    Steps l file d (reported session (.settle turns answer) (.ok other)) (settling turns answer) d
  /-- nobody takes what the task gave -/
  | ignore {session : String} {result : Except Fault Answer} :
    Steps l file d (reported session .nobody result) abandoned d
  /-- the caller looks at the session -/
  | look {session : String} : Steps l file d (looking session)
      (finished ((d.world.sessionOr file session).map (.session ∘ some))) d
  /-- it takes its place at one more gate -/
  | gather {node : NodeId} {held : List Turn} {session : String} {sessions : List String} :
    Steps l file d (gathering node held (session :: sessions))
      (gatheringNext node held (d.gates.arrive file session).1 sessions)
      { d with gates := (d.gates.arrive file session).2 }
  /-- its turn has come there -/
  | gathered {node : NodeId} {held : List Turn} {turn : Turn} {sessions : List String}
    (hturn : d.gates.isGranted turn = true) :
    Steps l file d (gatheringNext node held turn sessions)
      (gathering node (held ++ [turn]) sessions) d
  /-- it deletes a node, and keeps the turns of the sessions that ran it -/
  | removeNode {node : NodeId} {held : List Turn} {affected : List String} {w : World}
    (h : d.world.removeNode file node = (affected, w)) :
    Steps l file d (gathering node held [])
      (settling (held.filter fun t => affected.contains t.session) (.names affected))
      ⟨w, d.gates.releaseAll (held.filter fun t => !affected.contains t.session)⟩
  /-- all sessions are settled -/
  | settled {answer : Answer} : Steps l file d (settling [] answer) (finished (.ok answer)) d
  /-- one more session is to be run anew -/
  | replayNext {turn : Turn} {turns : List Turn} {answer : Answer}
    (hmode : l.settings.replayOnRemoval = true) :
    Steps l file d (settling (turn :: turns) answer) (working turn .replay (.settle turns answer)) d
  /-- the state of one more session is stored -/
  | persistNext {turn : Turn} {turns : List Turn} {answer : Answer}
    (hmode : l.settings.replayOnRemoval = false) :
    Steps l file d (settling (turn :: turns) answer) (settling turns answer)
      ⟨d.world.persistSession l file turn.session, d.gates.release turn⟩

/-- There is no other step. -/
theorem steps_of_step? {l : Ledger} {file : String} {phase phase' : Phase} {d d' : Desk}
    (h : phase.step? l file d = some (phase', d')) : Steps l file d phase phase' d' := by
  cases phase with
  | asked request =>
    cases h
    exact .ask (asks_of_ask rfl)
  | queueing session aim =>
    cases h
    exact .queue
  | waiting turn aim =>
    rw [step?] at h
    split at h
    · rename_i hturn
      cases aim with
      | work task report =>
        cases h
        exact .begin hturn
      | removeEdge edge =>
        rw [act] at h
        split at h <;> cases h
        · exact .missEdge hturn ‹_›
        · exact .removeEdge hturn ‹_›
      | removeSession =>
        rw [act] at h
        split at h <;> cases h
        · exact .removeSessionRefused hturn ‹_›
        · exact .removeSession hturn ‹_›
    · cases h
  | working turn task report =>
    rw [step?] at h
    split at h
    · cases h
      exact .work ‹_›
    · cases report <;> cases h
      · exact .finish nofun ‹_›
      · exact .finish nofun ‹_›
      · exact .finish nofun ‹_›
      · exact .finishAlone ‹_›
  | reported session report result =>
    cases report with
    | pass =>
      cases h
      exact .give
    | session =>
      cases result <;> cases h
      · exact .giveFault
      · exact .lookNext
    | settle turns answer =>
      cases result <;> cases h
      · exact .breakOff
      · exact .goOn
    | nobody =>
      cases h
      exact .ignore
  | looking session =>
    cases h
    exact .look
  | gathering node held sessions =>
    cases sessions with
    | nil =>
      rw [step?] at h
      rcases hremove : d.world.removeNode file node with ⟨affected, w⟩
      simp only [hremove, List.partition_eq_filter_filter] at h
      cases h
      exact .removeNode hremove
    | cons session sessions =>
      cases h
      exact .gather
  | gatheringNext node held turn sessions =>
    rw [step?] at h
    split at h <;> cases h
    exact .gathered ‹_›
  | settling turns answer =>
    cases turns with
    | nil =>
      cases h
      exact .settled
    | cons turn turns =>
      rw [step?] at h
      split at h <;> cases h
      · exact .replayNext ‹_›
      · exact .persistNext (Bool.eq_false_iff.mpr ‹_›)
  | finished result => cases h
  | abandoned => cases h

/-- The update that the next step of a call makes. -/
inductive Makes (l : Ledger) (file : String) (d : Desk) : Phase → Update → Prop
  /-- a session is started -/
  | start {name : String} : Makes l file d (asked (.start name)) (.start name d.world.now)
  /-- a session is started to branch off -/
  | branch {name : String} {path : List NodeId} :
    Makes l file d (asked (.branch name path)) (.start name d.world.now)
  /-- a step of a session has run -/
  | commit {turn : Turn} {node : NodeId} {run : Run} {rest : List NodeId} {report : Report}
      {result : RunResult} {w : World} (hrun : run.step l d.world = (.done result, w)) :
    Makes l file d (working turn (.running node run rest) report)
      (.commit turn.session node result w.now)
  /-- a session has run anew -/
  | commitReplay {turn : Turn} {scratch : Session} {report : Report} :
    Makes l file d (working turn (.replayPath scratch []) report) (.commitReplay scratch)
  /-- an edge is deleted -/
  | removeEdge {turn : Turn} {edge : EdgeId} (hturn : d.gates.isGranted turn = true) :
    Makes l file d (waiting turn (.removeEdge edge)) (.removeEdge edge d.world.now)
  /-- a session is deleted -/
  | removeSession {turn : Turn} (hturn : d.gates.isGranted turn = true) :
    Makes l file d (waiting turn .removeSession) (.removeSession turn.session)
  /-- a node is deleted -/
  | removeNode {node : NodeId} {held : List Turn} :
    Makes l file d (gathering node held []) (.removeNode node d.world.now)

/-- What a step of a task makes of the workspace. -/
theorem workspace_work {l : Ledger} {file : String} {turn : Turn} {task : Task} {report : Report}
    {next : Task.Next} {d : Desk} {w : World}
    (h : task.step l file turn.session d.world = (next, w)) :
    w.workspace = d.world.workspace ∨ ∃ u, Makes l file d (working turn task report) u ∧
      w.workspace = u.apply file d.world.workspace := by
  cases Task.steps_of_step h with
  | run hrun => exact .inl (Run.workspace_eq hrun)
  | breakDown hrun => exact .inl (Run.workspace_eq hrun)
  | commit hrun hcommit =>
    refine .inr ⟨_, .commit hrun, ?_⟩
    rw [← Run.workspace_eq hrun, ← World.workspace_commit, hcommit]
  | commitAnew hcommit =>
    refine .inr ⟨_, .commitReplay, ?_⟩
    rw [← World.workspace_commitReplay, hcommit]
  | runAnew hrun => exact .inl (Run.workspace_eq hrun)
  | breakDownAnew hrun => exact .inl (Run.workspace_eq hrun)
  | pushAnew hrun =>
    have hsame := Run.workspace_eq hrun
    exact .inl hsame
  | _ => exact .inl rfl

/-- What the first step of a call makes of the workspace. -/
theorem Asks.workspace {l : Ledger} {file : String} {request : Request} {d : Desk} {phase : Phase}
    {w : World} (h : Asks l file d.world request phase w) :
    w.workspace = d.world.workspace ∨
      ∃ u, Makes l file d (asked request) u ∧ w.workspace = u.apply file d.world.workspace := by
  have hstart {name : String} {outcome : Except Fault Session}
      (h : d.world.start l file name = (outcome, w)) :
      w.workspace = (Update.start name d.world.now).apply file d.world.workspace := by
    rw [← World.workspace_start l file name d.world, h]
  cases h with
  | start h => exact .inr ⟨_, .start, hstart h⟩
  | branchRefused h => exact .inr ⟨_, .branch, hstart h⟩
  | branch h => exact .inr ⟨_, .branch, hstart h⟩
  | _ => exact .inl rfl

/-- A step of a call makes at most one update, and no other change of the workspace. -/
theorem workspace_step? {l : Ledger} {file : String} {phase phase' : Phase} {d d' : Desk}
    (h : phase.step? l file d = some (phase', d')) :
    d'.world.workspace = d.world.workspace ∨
      ∃ u, Makes l file d phase u ∧ d'.world.workspace = u.apply file d.world.workspace := by
  cases steps_of_step? h with
  | ask hask => exact hask.workspace
  | missEdge hturn hremove =>
    refine .inr ⟨_, .removeEdge hturn, ?_⟩
    rw [← World.workspace_removeEdge, hremove]
  | removeEdge hturn hremove =>
    refine .inr ⟨_, .removeEdge hturn, ?_⟩
    rw [← World.workspace_removeEdge, hremove]
  | removeSession hturn hremove =>
    refine .inr ⟨_, .removeSession hturn, ?_⟩
    rw [← World.workspace_removeSession, hremove]
  | removeSessionRefused hturn hremove =>
    refine .inr ⟨_, .removeSession hturn, ?_⟩
    rw [← World.workspace_removeSession, hremove]
  | work hstep => exact workspace_work hstep
  | finish _ hstep => exact workspace_work hstep
  | finishAlone hstep => exact workspace_work hstep
  | removeNode hremove =>
    refine .inr ⟨_, .removeNode, ?_⟩
    rw [← World.workspace_removeNode, hremove]
  | persistNext => exact .inl (World.workspace_persistSession ..)
  | _ => exact .inl rfl

end Phase

/-! ## Events -/

/-- What may happen at a desk. -/
inductive Event where
  /-- somebody makes a new call -/
  | ask (file : String) (request : Request)
  /-- a call takes its next step, if there is one -/
  | step (i : Nat)
  /-- a caller goes away -/
  | abandon (i : Nat)
  /-- a file is changed by no call -/
  | change (file : String) (update : Update)

namespace Event

/-- The events of a list in order, and then nothing that does anything. -/
def inOrder (es : List Event) (n : Nat) : Event := (es[n]?).getD (.step es.length)

theorem inOrder_forall {P : Event → Prop} {es : List Event} (h : ∀ event ∈ es, P event)
    (hidle : ∀ i, P (.step i)) (n : Nat) : P (inOrder es n) := by
  rw [inOrder]
  cases hn : es[n]? with
  | none => exact hidle es.length
  | some event => exact h event (List.mem_of_getElem? hn)

end Event

namespace Traffic

/-- The traffic after a file was changed by no call. -/
def change (t : Traffic) (file : String) (u : Update) : Traffic :=
  let w := t.desk.world
  { t with desk := { t.desk with world := { w with workspace := u.apply file w.workspace } } }

/-- What an event leaves. -/
def next (l : Ledger) (t : Traffic) : Event → Traffic
  | .ask file request => t.ask file request
  | .step i => (t.step? l i).getD t
  | .abandon i => t.abandon i
  | .change file update => t.change file update

/-- The traffic at each moment, when one event after another happens. -/
def run (l : Ledger) (t : Traffic) (events : Nat → Event) : Nat → Traffic
  | 0 => t
  | n + 1 => (run l t events n).next l (events n)

/-- The traffic at each moment, from a desk without calls on. -/
def history (l : Ledger) (w : World) (events : Nat → Event) : Nat → Traffic :=
  (of ⟨w, .empty⟩).run l events

/-- What holds at first and is preserved by every event holds at all moments. -/
theorem run_invariant {l : Ledger} {t : Traffic} {events : Nat → Event} {P : Traffic → Prop}
    (hinit : P t) (hnext : ∀ n t, P t → P (t.next l (events n))) (n : Nat) :
    P (t.run l events n) := by
  induction n with
  | zero => exact hinit
  | succ n ih => exact hnext n _ ih

/-- All that an event can do to the traffic. -/
inductive Moves (l : Ledger) (t : Traffic) : Event → Traffic → Prop
  /-- nothing: the call is not there, or has no next step -/
  | idle {event : Event} : Moves l t event t
  /-- puts a new call behind the others -/
  | ask {file : String} {request : Request} :
    Moves l t (.ask file request) ⟨t.desk, t.calls ++ [.of file request]⟩
  /-- moves one call to its next phase -/
  | step {pre post : List Call} {c : Call} {phase : Phase} {desk : Desk}
    (hcalls : t.calls = pre ++ c :: post)
    (hstep : c.phase.step? l c.file t.desk = some (phase, desk)) :
    Moves l t (.step pre.length) ⟨desk, pre ++ ⟨c.file, phase⟩ :: post⟩
  /-- gives up what the caller of one call has -/
  | abandon {pre post : List Call} {c : Call} (hcalls : t.calls = pre ++ c :: post) :
    Moves l t (.abandon pre.length)
      ⟨{ t.desk with gates := (c.phase.abandon t.desk.gates).2 },
        pre ++ ⟨c.file, (c.phase.abandon t.desk.gates).1⟩ :: post⟩
  /-- changes a file -/
  | change {file : String} {update : Update} :
    Moves l t (.change file update) (t.change file update)

theorem moves_next (l : Ledger) (t : Traffic) (event : Event) :
    Moves l t event (t.next l event) := by
  -- the calls as they stand in front of the one that moves and behind it
  have hsplit : ∀ {i : Nat} {c : Call}, t.calls[i]? = some c → ∃ pre post,
      t.calls = pre ++ c :: post ∧ i = pre.length ∧
        ∀ c', t.calls.set i c' = pre ++ c' :: post := by
    intro i c hc
    obtain ⟨hi, rfl⟩ := List.getElem?_eq_some_iff.mp hc
    refine ⟨t.calls.take i, t.calls.drop (i + 1), ?_,
      (List.length_take_of_le (Nat.le_of_lt hi)).symm, ?_⟩
    · rw [List.getElem_cons_drop, List.take_append_drop]
    · exact fun c' => (List.set_eq_take_append_cons_drop ..).trans (if_pos hi)
  cases event with
  | ask file request => exact .ask
  | step i =>
    rw [next, step?]
    cases hc : t.calls[i]? with
    | none => exact .idle
    | some c =>
      obtain ⟨pre, post, hcalls, rfl, hset⟩ := hsplit hc
      rw [Option.bind_some, Call.step?]
      cases hstep : c.phase.step? l c.file t.desk with
      | none => exact .idle
      | some p =>
        simp only [Option.map_some, Option.getD_some, hset]
        exact .step hcalls hstep
  | abandon i =>
    rw [next, abandon]
    cases hc : t.calls[i]? with
    | none => exact .idle
    | some c =>
      obtain ⟨pre, post, hcalls, rfl, hset⟩ := hsplit hc
      simp only [hset]
      exact .abandon hcalls
  | change file update => exact .change

/-- The calls around one stand where they did, whatever has become of it. -/
theorem getElem?_middle_of_ne {pre post : List Call} {i : Nat} (hi : i ≠ pre.length)
    (c c' : Call) : (pre ++ c :: post)[i]? = (pre ++ c' :: post)[i]? := by
  rw [List.getElem?_append, List.getElem?_append]
  split
  · rfl
  · obtain ⟨k, hk⟩ := Nat.exists_eq_succ_of_ne_zero (n := i - pre.length) (by omega)
    rw [hk, List.getElem?_cons_succ, List.getElem?_cons_succ]

theorem getElem?_middle (pre post : List Call) (c : Call) :
    (pre ++ c :: post)[pre.length]? = some c := by
  rw [List.getElem?_append_right (Nat.le_refl _), Nat.sub_self, List.getElem?_cons_zero]

/-- Where a call stood before an event. -/
theorem Moves.call {l : Ledger} {t t' : Traffic} {event : Event} {i : Nat} {c : Call}
    (h : Moves l t event t') (hi : t'.calls[i]? = some c) :
    (t.calls[i]? = some c ∧ (event = .step i → t' = t)) ∨
      (∃ file request, event = .ask file request ∧ c = .of file request) ∨
      (∃ phase, event = .step i ∧ t.calls[i]? = some ⟨c.file, phase⟩ ∧
        phase.step? l c.file t.desk = some (c.phase, t'.desk)) ∨
      ∃ phase, event = .abandon i ∧ t.calls[i]? = some ⟨c.file, phase⟩ ∧
        (phase.abandon t.desk.gates).1 = c.phase := by
  cases h with
  | idle => exact .inl ⟨hi, fun _ => rfl⟩
  | ask =>
    rename_i file request
    rw [List.getElem?_append] at hi
    split at hi
    · exact .inl ⟨hi, nofun⟩
    · exact .inr (.inl ⟨file, request, rfl, (List.mem_singleton.mp (List.mem_of_getElem? hi))⟩)
  | @step pre post c' phase desk hcalls hstep =>
    by_cases hplace : i = pre.length
    · subst hplace
      obtain rfl := Option.some.inj ((getElem?_middle ..).symm.trans hi)
      exact .inr (.inr (.inl ⟨c'.phase, rfl, hcalls ▸ getElem?_middle .., hstep⟩))
    · refine .inl ⟨?_, fun heq => absurd (Event.step.inj heq).symm hplace⟩
      rw [hcalls, ← hi]
      exact getElem?_middle_of_ne hplace ..
  | @abandon pre post c' hcalls =>
    by_cases hplace : i = pre.length
    · subst hplace
      obtain rfl := Option.some.inj ((getElem?_middle ..).symm.trans hi)
      exact .inr (.inr (.inr ⟨c'.phase, rfl, hcalls ▸ getElem?_middle .., rfl⟩))
    · refine .inl ⟨?_, nofun⟩
      rw [hcalls, ← hi]
      exact getElem?_middle_of_ne hplace ..
  | change => exact .inl ⟨hi, nofun⟩

/-- Where a call stands after an event. -/
theorem Moves.call_after {l : Ledger} {t t' : Traffic} {event : Event} {i : Nat} {c : Call}
    (h : Moves l t event t') (hi : t.calls[i]? = some c) :
    t'.calls[i]? = some c ∨
      (∃ phase, c.phase.step? l c.file t.desk = some (phase, t'.desk) ∧
        t'.calls[i]? = some ⟨c.file, phase⟩) ∨
      t'.calls[i]? = some ⟨c.file, (c.phase.abandon t.desk.gates).1⟩ := by
  cases h with
  | idle => exact .inl hi
  | ask =>
    refine .inl ?_
    rw [List.getElem?_append_left (List.getElem?_eq_some_iff.mp hi).1]
    exact hi
  | @step pre post c' phase desk hcalls hstep =>
    rw [hcalls] at hi
    by_cases hplace : i = pre.length
    · subst hplace
      obtain rfl := Option.some.inj ((getElem?_middle ..).symm.trans hi)
      exact .inr (.inl ⟨phase, hstep, getElem?_middle ..⟩)
    · exact .inl ((getElem?_middle_of_ne hplace ..).trans hi)
  | @abandon pre post c' hcalls =>
    rw [hcalls] at hi
    by_cases hplace : i = pre.length
    · subst hplace
      obtain rfl := Option.some.inj ((getElem?_middle ..).symm.trans hi)
      exact .inr (.inr (getElem?_middle ..))
    · exact .inl ((getElem?_middle_of_ne hplace ..).trans hi)
  | change => exact .inl hi

/-- What an event does to the workspace: nothing, or an update by a call or by none. -/
theorem Moves.workspace {l : Ledger} {t t' : Traffic} {event : Event} (h : Moves l t event t') :
    t'.desk.world.workspace = t.desk.world.workspace ∨
      (∃ i c u, event = .step i ∧ t.calls[i]? = some c ∧ c.phase.Makes l c.file t.desk u ∧
        t'.desk.world.workspace = u.apply c.file t.desk.world.workspace) ∨
      ∃ file u, event = .change file u ∧
        t'.desk.world.workspace = u.apply file t.desk.world.workspace := by
  cases h with
  | idle => exact .inl rfl
  | ask => exact .inl rfl
  | step hcalls hstep =>
    rcases Phase.workspace_step? hstep with hsame | ⟨u, hmakes, happly⟩
    · exact .inl hsame
    · exact .inr (.inl ⟨_, _, u, rfl, hcalls ▸ getElem?_middle .., hmakes, happly⟩)
  | abandon => exact .inl rfl
  | change => exact .inr (.inr ⟨_, _, rfl, rfl⟩)

/-- What every update of a file preserves holds of the file at all moments. -/
theorem exists_file?_run {P : FileState → Prop} {file : String}
    (hupdate : ∀ (u : Update) (f : FileState), P f → P (u.onFile file f)) (l : Ledger)
    {t : Traffic} (hinit : ∃ f, t.desk.world.workspace.file? file = some f ∧ P f)
    (events : Nat → Event) (n : Nat) :
    ∃ f, (t.run l events n).desk.world.workspace.file? file = some f ∧ P f := by
  refine run_invariant (P := fun t => ∃ f, t.desk.world.workspace.file? file = some f ∧ P f) hinit
    (fun n t h => ?_) n
  rcases (moves_next l t (events n)).workspace with hsame | ⟨_, c, u, -, -, -, heq⟩ |
    ⟨other, u, -, heq⟩
  · rw [hsame]
    exact h
  · rw [heq]
    exact u.exists_file?_apply hupdate c.file h
  · rw [heq]
    exact u.exists_file?_apply hupdate other h

end Traffic

end Ledger

end Runbook
