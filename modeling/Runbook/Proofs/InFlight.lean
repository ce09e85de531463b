import Runbook.Proofs.CausalChain
import Runbook.Proofs.LiveRuns
import Runbook.Proofs.Progress

/-!
# Steps in flight

A call that runs one step of a session dispatches it to the runner and records what the runner gave
when it is there. In between anything may happen to the files: nodes, edges and sessions go,
sessions of the same name are started anew, even the whole file may be put out and loaded again with
other contents. Whatever it is, the step is recorded once and whole on what is there in the end, or
leaves no trace.

* `Happening`, `Traffic.course`: events, and files that are loaded and put out, one after another
* `Runner.runAs`, `Run.Came`: how far a run has come by calls of the runner
* `Records`, `Ends`: what the end of a step makes of the world
* `Phase.RunsOne`: where a call stands that is to run one step
* `Phase.InFlight`, `Phase.Ended`: where it stands between the dispatch and the end of the step,
  and after it
* `Traffic.step_ends_once`: a step in flight commits once and whole, or not at all
-/

namespace Runbook

/-! ## Runs -/

/-- Runs pieces of code one after another, each as the call of a number, after `done`. -/
def Runner.runAs (runner : Runner) (calls : List (String × Nat)) (done : RunResult) :
    Except Breakdown RunResult :=
  calls.foldlM (fun done call => runner.runOne call.1 done call.2) done

theorem Runner.runAs_concat (runner : Runner) (calls : List (String × Nat)) (code : String)
    (number : Nat) {done done' : RunResult} (h : runner.runAs calls done = .ok done') :
    runner.runAs (calls ++ [(code, number)]) done = runner.runOne code done' number := by
  have hone : ∀ x : Except Breakdown RunResult, (x >>= pure) = x := fun x => bind_pure x
  rw [runAs, List.foldlM_append, ← runAs, h]
  exact hone _

namespace Ledger

/-- A run of some codes from a state has come this far: some of them were run, by the calls of some
numbers. -/
def Run.Came (l : Ledger) (codes : List String) (prior : Snapshot) (run : Run) : Prop :=
  ∃ ran numbers, codes = ran ++ run.codes ∧ numbers.length = ran.length ∧
    l.runner.runAs (ran.zip numbers) (.start prior) = .ok run.done

/-- What the runner gave for some codes from a state, by calls of some numbers: for all of them, or
for as many as it took to break down. -/
def Ran (l : Ledger) (codes : List String) (prior : Snapshot)
    (outcome : Except Breakdown RunResult) : Prop :=
  ∃ numbers, numbers.length ≤ codes.length ∧
    ((∃ result, outcome = .ok result) → numbers.length = codes.length) ∧
    l.runner.runAs (codes.zip numbers) (.start prior) = outcome

namespace Run

variable {l : Ledger} {codes : List String} {prior : Snapshot}

theorem came_start (l : Ledger) (codes : List String) (prior : Snapshot) :
    Came l codes prior (.start codes prior) :=
  ⟨[], [], rfl, rfl, rfl⟩

/-- What is left to do in a run, in steps. -/
def left (run : Run) : Nat := 2 * run.codes.length - if run.call.isSome then 1 else 0

theorem step_call (l : Ledger) (done : RunResult) (code : String) (rest : List String)
    (number : Nat) (w : World) : step l ⟨done, code :: rest, some number⟩ w =
      match l.runner.runOne code done number with
      | .ok done => (.more ⟨done, rest, none⟩, w)
      | .error breakdown => (.broken breakdown, w) := rfl

/-- A step brings a run further, ends it, or breaks it down. The runner is called at most. -/
theorem Came.step {run : Run} (h : Came l codes prior run) {next : Next} {w w' : World}
    (hstep : run.step l w = (next, w')) :
    (∃ run', next = .more run' ∧ Came l codes prior run' ∧ run'.left < run.left ∧
      w'.workspace = w.workspace ∧ w'.store = w.store) ∨
    (∃ result, next = .done result ∧ Ran l codes prior (.ok result) ∧ w' = w) ∨
    ∃ breakdown, next = .broken breakdown ∧ Ran l codes prior (.error breakdown) ∧ w' = w := by
  obtain ⟨ran, numbers, rfl, hlength, hdone⟩ := h
  obtain ⟨done, rest, call⟩ := run
  cases rest with
  | nil =>
    cases hstep
    refine .inr (.inl ⟨done, rfl, ⟨numbers, ?_, ?_, ?_⟩, rfl⟩)
    · rw [List.append_nil, hlength]
    · rw [List.append_nil, hlength]
      exact fun _ => rfl
    · rw [List.append_nil]
      exact hdone
  | cons code rest =>
    cases call with
    | none =>
      cases hstep
      refine .inl ⟨_, rfl, ⟨ran, numbers, rfl, hlength, hdone⟩, ?_, rfl, rfl⟩
      exact show 2 * (rest.length + 1) - 1 < 2 * (rest.length + 1) by omega
    | some number =>
      have hone := l.runner.runAs_concat (ran.zip numbers) code number hdone
      have hzip : ∀ rest, (ran ++ code :: rest).zip (numbers ++ [number]) =
          ran.zip numbers ++ [(code, number)] := by
        intro rest
        rw [List.zip_append hlength.symm, List.zip_cons_cons, List.zip_nil_right]
      rw [step_call] at hstep
      cases hgave : l.runner.runOne code done number with
      | ok done' =>
        rw [hgave] at hstep hone
        cases hstep
        refine .inl ⟨_, rfl, ⟨ran ++ [code], numbers ++ [number], ?_, ?_, ?_⟩, ?_, rfl, rfl⟩
        · rw [List.append_assoc, List.singleton_append]
        · rw [List.length_append, List.length_append, hlength]
          rfl
        · rw [hzip [], hone]
        · exact show 2 * rest.length < 2 * (rest.length + 1) - 1 by omega
      | error breakdown =>
        rw [hgave] at hstep hone
        cases hstep
        refine .inr (.inr ⟨breakdown, rfl, ⟨numbers ++ [number], ?_, nofun, ?_⟩, rfl⟩)
        · simp only [List.length_append, List.length_cons, hlength, List.length_nil]
          omega
        · rw [hzip rest, hone]

end Run

end Ledger

/-! ## The end of a step -/

/-- Whether a file is loaded, and has a node and a session. -/
def Workspace.Holds (w : Workspace) (file session : String) (node : NodeId) : Prop :=
  ∃ f, w.file? file = some f ∧ f.graph.hasNode node = true ∧ f.book.contains session = true

namespace World

/-- What a run of a node gave is recorded, whole. The session has one more execution, the graph one
more edge, from where the session's path has come to, and the session is primary. Its state is
stored, if states are. Nothing else is different, but for the clock. -/
def Records (l : Ledger) (file session : String) (node : NodeId) (r : RunResult) (w w' : World) :
    Prop :=
  ∃ f pre s post, w.workspace.file? file = some f ∧ f.book.sessions = pre ++ s :: post ∧
    s.id = session ∧ (∀ t ∈ pre, t.id ≠ session) ∧
    w' = {
      workspace := w.workspace.setFile file {
        graph := { f.graph with
          edges := f.graph.edges ++
            [Session.edge session (s.length + 1) (s.path.getLast?.getD startId) node] }
        book := {
          sessions := pre ++ s.push (.ofRun node r) w.now :: post
          primary := some session } }
      store := if l.settings.persist then (w.store.save file session r.state).2 else w.store
      clock := w.clock.tick
      calls := w.calls }

/-- What the end of a step makes of the world, and what it gives, by what the runner gave. A step
that broke down leaves the world as it is. One that has run is recorded if everything is there that
it is about, and leaves the world as it is otherwise. -/
def Ends (l : Ledger) (file session : String) (node : NodeId) (w w' : World) :
    Except Breakdown RunResult → Except Fault Ledger.Answer → Prop
  | .error breakdown, answer => w' = w ∧ answer = .error breakdown.fault
  | .ok r, answer =>
    (w.workspace.Holds file session node → w.Records l file session node r w' ∧
      answer = .ok (.execution (some (.ofRun node r)))) ∧
    (¬ w.workspace.Holds file session node → w' = w ∧ answer = .ok (.execution none))

theorem commit_of_holds (l : Ledger) {file session : String} {node : NodeId} {w : World}
    (h : w.workspace.Holds file session node) (r : RunResult) :
    (w.commit l file session node r).1 = some (.ofRun node r) ∧
      w.Records l file session node r (w.commit l file session node r).2 := by
  obtain ⟨f, hf, hnode, hcontains⟩ := h
  obtain ⟨s, hs⟩ := Option.isSome_iff_exists.mp hcontains
  obtain ⟨hid, pre, post, hsessions, hfirst, hreplace, -⟩ := Book.exists_split hs
  rw [commit_eq l hf hnode hs]
  refine ⟨rfl, f, pre, s, post, hf, hsessions, hid, hfirst, ?_⟩
  have hbook : (f.withStep s (.ofRun node r) w.now).book =
      { sessions := pre ++ s.push (.ofRun node r) w.now :: post, primary := some session } := by
    have hthere : (f.book.replace session (s.push (.ofRun node r) w.now)).contains session = true :=
      Option.isSome_iff_exists.mpr ⟨_, Book.get?_replace_self hs hid⟩
    rw [FileState.withStep, hid, Book.setPrimary, if_pos hthere, Book.replace, hreplace]
  have hgraph : (f.withStep s (.ofRun node r) w.now).graph = { f.graph with
      edges := f.graph.edges ++
        [Session.edge session (s.length + 1) (s.path.getLast?.getD startId) node] } := by
    rw [FileState.withStep, Session.nextEdge, hid]
    rfl
  rw [← hbook, ← hgraph, persist]
  cases l.settings.persist <;> rfl

theorem commit_of_not_holds (l : Ledger) {file session : String} {node : NodeId} {w : World}
    (h : ¬ w.workspace.Holds file session node) (r : RunResult) :
    w.commit l file session node r = (none, w) := by
  have hnone : w.workspace.commit? file session node r w.now = none := by
    rw [Workspace.commit?, Workspace.update?, Option.bind_eq_none_iff]
    intro f hf
    rw [FileState.commit?]
    split
    · have hgone : f.book.get? session = none :=
        Option.not_isSome_iff_eq_none.mp fun hs => h ⟨f, hf, ‹_›, hs⟩
      rw [hgone]
      rfl
    · rfl
  rw [commit, hnone]

/-- A step that has run ends by being recorded or dropped. -/
theorem ends_of_commit {l : Ledger} {file session : String} {node : NodeId} {r : RunResult}
    {e : Option Execution} {w w' : World} (h : w.commit l file session node r = (e, w')) :
    w.Ends l file session node w' (.ok r) (.ok (.execution e)) := by
  refine ⟨fun hholds => ?_, fun hgone => ?_⟩
  · have hrecords := commit_of_holds l hholds r
    rw [h] at hrecords
    exact ⟨hrecords.2, by rw [← hrecords.1]⟩
  · cases (commit_of_not_holds l hgone r).symm.trans h
    exact ⟨rfl, rfl⟩

end World

namespace Ledger

/-! ## Calls for one step -/

/-- What a task for one step of a node is, from its beginning on. -/
inductive Task.RunsOne (node : NodeId) : Task → Prop
  /-- the code of the node is looked up -/
  | path : RunsOne node (.path none [node])
  /-- the code is known -/
  | dispatch {codes : List String} : RunsOne node (.dispatch node codes [])
  /-- the code is being run -/
  | running {run : Run} : RunsOne node (.running node run [])
  /-- the step has ended -/
  | over {last : Option Execution} : RunsOne node (.path last [])

theorem Task.RunsOne.step {l : Ledger} {file session : String} {node : NodeId} {task task' : Task}
    {w w' : World} (h : task.RunsOne node)
    (hstep : task.step l file session w = (.more task', w')) : task'.RunsOne node := by
  cases steps_of_step hstep with
  | skip => cases h; exact .over
  | know => cases h; exact .dispatch
  | miss => cases h; exact .over
  | dispatch => cases h; exact .running
  | run => cases h; exact .running
  | commit => cases h; exact .over
  | _ => cases h

namespace Phase

/-- Where a call stands that is to run one step of a session and give the execution. -/
inductive RunsOne (session : String) (node : NodeId) : Phase → Prop
  /-- the code is given -/
  | record {code : String} : RunsOne session node (asked (.record session node code))
  /-- the code is that of the node -/
  | execute : RunsOne session node (asked (.execute session node))
  /-- it takes its place next -/
  | queueing {task : Task} (htask : task.RunsOne node) :
    RunsOne session node (queueing session (.work task .pass))
  /-- it waits for the session's turn -/
  | waiting {turn : Turn} {task : Task} (hturn : turn.session = session)
    (htask : task.RunsOne node) : RunsOne session node (waiting turn (.work task .pass))
  /-- it holds the session's turn; the caller waits, or has gone away -/
  | working {turn : Turn} {task : Task} {report : Report} (hturn : turn.session = session)
    (htask : task.RunsOne node) (hreport : report = .pass ∨ report = .nobody) :
    RunsOne session node (working turn task report)
  /-- the step has ended -/
  | reported {result : Except Fault Answer} : RunsOne session node (reported session .pass result)
  /-- the call has its answer -/
  | finished {result : Except Fault Answer} : RunsOne session node (finished result)
  /-- nobody waits for the answer -/
  | abandoned : RunsOne session node abandoned

variable {l : Ledger} {file session : String} {node : NodeId} {phase phase' : Phase} {d d' : Desk}

theorem RunsOne.step (h : phase.RunsOne session node)
    (hstep : phase.step? l file d = some (phase', d')) : phase'.RunsOne session node := by
  cases h with
  | record =>
    cases hstep
    exact .queueing .dispatch
  | execute =>
    cases hstep
    exact .queueing .path
  | queueing htask =>
    cases steps_of_step? hstep with
    | queue => exact .waiting (Gates.session_arrive ..) htask
  | waiting hturn htask =>
    cases steps_of_step? hstep with
    | begin => exact .working hturn htask (.inl rfl)
  | working hturn htask hreport =>
    cases steps_of_step? hstep with
    | work hwork => exact .working hturn (htask.step hwork) hreport
    | finish hsomebody =>
      rcases hreport with rfl | rfl
      · exact hturn ▸ .reported
      · exact absurd rfl hsomebody
    | finishAlone => exact .abandoned
  | reported =>
    cases steps_of_step? hstep with
    | give => exact .finished
  | finished => cases hstep
  | abandoned => cases hstep

theorem RunsOne.abandon (h : phase.RunsOne session node) (g : Gates) :
    (phase.abandon g).1.RunsOne session node := by
  cases h with
  | working hturn htask hreport =>
    rcases hreport with rfl | rfl <;> exact .working hturn htask (.inr rfl)
  | finished => exact .finished
  | _ => exact .abandoned

/-- Whether a caller waits for what the call gives. -/
def hasCaller : Phase → Bool
  | working _ _ .nobody => false
  | abandoned => false
  | _ => true

/-- A caller goes away of his own accord only. -/
theorem RunsOne.hasCaller_step (h : phase.RunsOne session node) (hcaller : phase.hasCaller = true)
    (hstep : phase.step? l file d = some (phase', d')) : phase'.hasCaller = true := by
  cases h with
  | record => cases hstep; rfl
  | execute => cases hstep; rfl
  | working hturn htask hreport =>
    rcases hreport with rfl | rfl
    · cases steps_of_step? hstep with
      | _ => rfl
    · cases hcaller
  | finished => cases hstep
  | abandoned => cases hstep
  | _ =>
    cases steps_of_step? hstep
    rfl

/-! ## Between the dispatch and the end -/

/-- The call has dispatched the step, and the runner has not given everything yet. -/
def InFlight (l : Ledger) (session : String) (node : NodeId) (codes : List String)
    (prior : Snapshot) (phase : Phase) : Prop :=
  ∃ turn run report, phase = working turn (.running node run []) report ∧
    turn.session = session ∧ (report = .pass ∨ report = .nobody) ∧ run.Came l codes prior

/-- The step has ended, and the call is to give this answer, unless its caller has gone away. -/
inductive Ended (session : String) : Except Fault Answer → Phase → Prop
  /-- the session's turn is given up next -/
  | kept {turn : Turn} {last : Option Execution} {report : Report} (hturn : turn.session = session)
    (hreport : report = .pass ∨ report = .nobody) :
    Ended session (.ok (.execution last)) (working turn (.path last []) report)
  /-- the caller takes the answer next -/
  | reported {answer : Except Fault Answer} : Ended session answer (reported session .pass answer)
  /-- the call has its answer -/
  | finished {answer : Except Fault Answer} : Ended session answer (finished answer)
  /-- the caller has gone away -/
  | abandoned {answer : Except Fault Answer} : Ended session answer abandoned

/-- How many steps a call takes at most until it is over, once it has dispatched its step. -/
def left : Phase → Nat
  | working _ (.running _ run _) _ => run.left + 3
  | working _ (.path _ []) _ => 2
  | reported .. => 1
  | _ => 0

variable {codes : List String} {prior : Snapshot}

/-- A step of a call whose step is in flight brings it further, and nothing else; or the step ends
with it. -/
theorem InFlight.step (h : phase.InFlight l session node codes prior)
    (hstep : phase.step? l file d = some (phase', d')) :
    phase'.left < phase.left ∧
      ((phase'.InFlight l session node codes prior ∧
          d'.world.workspace = d.world.workspace ∧ d'.world.store = d.world.store) ∨
        ∃ outcome answer, Ran l codes prior outcome ∧
          d.world.Ends l file session node d'.world outcome answer ∧
          phase'.Ended session answer) := by
  obtain ⟨turn, run, report, rfl, rfl, hreport, hcame⟩ := h
  cases steps_of_step? hstep with
  | work hwork =>
    cases Task.steps_of_step hwork with
    | run hrun =>
      rcases hcame.step hrun with ⟨_, heq, hcame', hleft, hworkspace, hstore⟩ |
        ⟨_, heq, -⟩ | ⟨_, heq, -⟩ <;> cases heq
      exact ⟨Nat.add_lt_add_right hleft 3,
        .inl ⟨⟨turn, _, report, rfl, rfl, hreport, hcame'⟩, hworkspace, hstore⟩⟩
    | commit hrun hcommit =>
      rcases hcame.step hrun with ⟨_, heq, -⟩ | ⟨_, heq, hran, rfl⟩ | ⟨_, heq, -⟩ <;> cases heq
      exact ⟨Nat.lt_add_left _ (Nat.lt_succ_self 2),
        .inr ⟨_, _, hran, World.ends_of_commit hcommit, .kept rfl hreport⟩⟩
  | finish hsomebody hover =>
    obtain rfl := hreport.resolve_right hsomebody
    cases Task.steps_of_step hover with
    | breakDown hrun =>
      rcases hcame.step hrun with ⟨_, heq, -⟩ | ⟨_, heq, -⟩ | ⟨breakdown, heq, hran, rfl⟩ <;>
        cases heq
      exact ⟨Nat.lt_add_left _ (Nat.one_lt_succ_succ 1),
        .inr ⟨_, _, hran, ⟨rfl, rfl⟩, .reported⟩⟩
  | finishAlone hover =>
    cases Task.steps_of_step hover with
    | breakDown hrun =>
      rcases hcame.step hrun with ⟨_, heq, -⟩ | ⟨_, heq, -⟩ | ⟨breakdown, heq, hran, rfl⟩ <;>
        cases heq
      exact ⟨Nat.succ_pos _, .inr ⟨_, _, hran, ⟨rfl, rfl⟩, .abandoned⟩⟩

theorem InFlight.abandon (h : phase.InFlight l session node codes prior) (g : Gates) :
    (phase.abandon g).1.InFlight l session node codes prior ∧
      (phase.abandon g).1.left = phase.left := by
  obtain ⟨turn, run, report, rfl, hturn, hreport, hcame⟩ := h
  rcases hreport with rfl | rfl <;>
    exact ⟨⟨turn, run, .nobody, rfl, hturn, .inr rfl, hcame⟩, rfl⟩

/-- Once the step has ended, the call leaves everything as it is. -/
theorem Ended.step {answer : Except Fault Answer} (h : phase.Ended session answer)
    (hstep : phase.step? l file d = some (phase', d')) :
    phase'.left < phase.left ∧ phase'.Ended session answer ∧
      d'.world.workspace = d.world.workspace ∧ d'.world.store = d.world.store := by
  cases h with
  | kept hturn hreport =>
    cases steps_of_step? hstep with
    | work hwork => cases Task.steps_of_step hwork
    | finish hsomebody hover =>
      obtain rfl := hreport.resolve_right hsomebody
      cases Task.steps_of_step hover with
      | pathEnd => exact ⟨Nat.lt_succ_self 1, hturn ▸ .reported, rfl, rfl⟩
    | finishAlone hover =>
      cases Task.steps_of_step hover with
      | pathEnd => exact ⟨Nat.succ_pos 1, .abandoned, rfl, rfl⟩
  | reported =>
    cases steps_of_step? hstep with
    | give => exact ⟨Nat.one_pos, .finished, rfl, rfl⟩
  | finished => cases hstep
  | abandoned => cases hstep

theorem Ended.abandon {answer : Except Fault Answer} (h : phase.Ended session answer)
    (g : Gates) : (phase.abandon g).1.Ended session answer ∧
      (phase.abandon g).1.left ≤ phase.left := by
  cases h with
  | kept hturn hreport =>
    rcases hreport with rfl | rfl <;> exact ⟨.kept hturn (.inr rfl), Nat.le_refl _⟩
  | finished => exact ⟨.finished, Nat.le_refl _⟩
  | reported => exact ⟨.abandoned, Nat.zero_le _⟩
  | abandoned => exact ⟨.abandoned, Nat.zero_le _⟩

/-- A call that is not over by then always has a next step. -/
theorem step?_ne_none_of_left (l : Ledger) (file : String) (d : Desk) (h : 0 < phase.left) :
    phase.step? l file d ≠ none := by
  intro hnone
  rcases awaited_of_step?_eq_none hnone with hover | ⟨u, hwaits, -⟩
  · cases phase with
    | finished => exact absurd h (Nat.lt_irrefl 0)
    | abandoned => exact absurd h (Nat.lt_irrefl 0)
    | _ => cases hover
  · cases phase with
    | waiting => exact absurd h (Nat.lt_irrefl 0)
    | gatheringNext => exact absurd h (Nat.lt_irrefl 0)
    | _ => cases hwaits

end Phase

/-! ## Happenings -/

/-- What may happen, also to files as a whole. -/
inductive Happening where
  /-- an event at the desk, or a change of a file that no call makes -/
  | event (event : Event)
  /-- a file is loaded, in the place of any of its name -/
  | load (file : String) (graph : Graph) (book : Book)
  /-- a file is put out -/
  | unload (file : String)

/-- The happenings of a list in order, and then nothing that does anything. -/
def Happening.inOrder (hs : List Happening) (n : Nat) : Happening :=
  (hs[n]?).getD (.event (.step hs.length))

namespace Traffic

/-- The traffic with another workspace. -/
def withWorkspace (t : Traffic) (workspace : Workspace) : Traffic :=
  { t with desk := { t.desk with world := { t.desk.world with workspace } } }

/-- What a happening leaves. -/
def after (l : Ledger) (t : Traffic) : Happening → Traffic
  | .event event => t.next l event
  | .load file g b => t.withWorkspace (t.desk.world.workspace.insertFile file g b)
  | .unload file => t.withWorkspace (t.desk.world.workspace.removeFile file)

/-- The traffic at each moment, from a desk without calls on. -/
def course (l : Ledger) (w : World) (hs : Nat → Happening) : Nat → Traffic
  | 0 => .of ⟨w, .empty⟩
  | n + 1 => (course l w hs n).after l (hs n)

/-- All that a happening can do to a call. -/
inductive Befalls (l : Ledger) (t : Traffic) (i : Nat) (c : Call) : Happening → Traffic → Prop
  /-- the call takes its next step -/
  | step {phase : Phase} {t' : Traffic}
    (hstep : c.phase.step? l c.file t.desk = some (phase, t'.desk))
    (hi : t'.calls[i]? = some ⟨c.file, phase⟩) : Befalls l t i c (.event (.step i)) t'
  /-- the call has no next step -/
  | stuck {t' : Traffic} (hnone : c.phase.step? l c.file t.desk = none)
    (hi : t'.calls[i]? = some c) (hsame : t'.desk = t.desk) : Befalls l t i c (.event (.step i)) t'
  /-- the caller goes away -/
  | abandon {t' : Traffic} (hi : t'.calls[i]? = some ⟨c.file, (c.phase.abandon t.desk.gates).1⟩) :
    Befalls l t i c (.event (.abandon i)) t'
  /-- it has nothing to do with the call -/
  | other {happening : Happening} {t' : Traffic} (hstep : happening ≠ .event (.step i))
    (habandon : happening ≠ .event (.abandon i)) (hi : t'.calls[i]? = some c) :
    Befalls l t i c happening t'

theorem befalls_after (l : Ledger) {t : Traffic} {i : Nat} {c : Call} (hi : t.calls[i]? = some c)
    (happening : Happening) : Befalls l t i c happening (t.after l happening) := by
  have hset : ∀ {j : Nat} {c' : Call}, j ≠ i → (t.calls.set j c')[i]? = some c := by
    intro j c' hne
    rw [List.getElem?_set_ne hne, hi]
  have hself : ∀ c' : Call, (t.calls.set i c')[i]? = some c' := fun c' =>
    List.getElem?_set_self (List.getElem?_eq_some_iff.mp hi).1
  cases happening with
  | load file g b => refine .other ?_ ?_ hi <;> rintro ⟨⟩
  | unload file => refine .other ?_ ?_ hi <;> rintro ⟨⟩
  | event event =>
    cases event with
    | ask file request =>
      refine .other (by rintro ⟨⟩) (by rintro ⟨⟩) ?_
      exact (List.getElem?_append_left (List.getElem?_eq_some_iff.mp hi).1).trans hi
    | change file u => refine .other ?_ ?_ hi <;> rintro ⟨⟩
    | step j =>
      by_cases hij : j = i
      · subst hij
        rw [after, next, step?, hi, Option.bind_some, Call.step?]
        cases hstep : c.phase.step? l c.file t.desk with
        | none => exact .stuck hstep hi rfl
        | some p => exact .step hstep (hself _)
      · refine .other (fun h => hij (by cases h; rfl)) (by rintro ⟨⟩) ?_
        rw [after, next, step?]
        cases hj : t.calls[j]? with
        | none => exact hi
        | some c' =>
          rw [Option.bind_some]
          cases c'.step? l t.desk with
          | none => exact hi
          | some p => exact hset hij
    | abandon j =>
      by_cases hij : j = i
      · subst hij
        rw [after, next, abandon, hi]
        exact .abandon (hself _)
      · refine .other (by rintro ⟨⟩) (fun h => hij (by cases h; rfl)) ?_
        rw [after, next, abandon]
        cases hj : t.calls[j]? with
        | none => exact hi
        | some c' => exact hset hij

/-- How many of the happenings before moment `n` are steps of a call. -/
def stepsBefore (hs : Nat → Happening) (i : Nat) : Nat → Nat
  | 0 => 0
  | n + 1 => stepsBefore hs i n + match hs n with
    | .event (.step j) => if j = i then 1 else 0
    | _ => 0

theorem stepsBefore_step {hs : Nat → Happening} {i n : Nat} (h : hs n = .event (.step i)) :
    stepsBefore hs i (n + 1) = stepsBefore hs i n + 1 := by
  rw [stepsBefore, h]
  exact congrArg (_ + ·) (if_pos rfl)

theorem stepsBefore_of_ne {hs : Nat → Happening} {i n : Nat} (h : hs n ≠ .event (.step i)) :
    stepsBefore hs i (n + 1) = stepsBefore hs i n := by
  rw [stepsBefore]
  split
  · rename_i j hj
    exact congrArg (_ + ·) (if_neg fun hji : j = i => h (hji ▸ hj))
  · rfl

theorem stepsBefore_mono (hs : Nat → Happening) (i : Nat) {m n : Nat} (h : m ≤ n) :
    stepsBefore hs i m ≤ stepsBefore hs i n := by
  induction h with
  | refl => exact Nat.le_refl _
  | step _ ih => exact ih.trans (Nat.le_add_right _ _)

/-- At moment `n` the files with their sessions, and what is stored, stay as they are. -/
def IsQuiet (σ : Nat → Traffic) (n : Nat) : Prop :=
  (σ (n + 1)).desk.world.workspace = (σ n).desk.world.workspace ∧
    (σ (n + 1)).desk.world.store = (σ n).desk.world.store

/-- At moment `n` the call hands the one step that it is to run over to the runner: these codes, to
be run from this state. -/
def HandsOver (σ : Nat → Traffic) (i n : Nat) (file session : String) (node : NodeId)
    (codes : List String) (prior : Snapshot) : Prop :=
  ∃ turn report, turn.session = session ∧
    (σ n).calls[i]? = some ⟨file, .working turn (.dispatch node codes []) report⟩ ∧
    (σ (n + 1)).calls[i]? =
      some ⟨file, .working turn (.running node (.start codes prior) []) report⟩

section

variable {l : Ledger} {σ : Nat → Traffic} {hs : Nat → Happening} {i k a n : Nat}
  {file session : String} {node : NodeId} {codes : List String} {prior : Snapshot}

/-- Where a call stands that was asked to run one step; it has its caller until he goes away. -/
theorem runsOne_of_asked (hafter : ∀ n, σ (n + 1) = (σ n).after l (hs n))
    (hasked : (∃ code, (σ k).calls[i]? = some (.of file (.record session node code))) ∨
      (σ k).calls[i]? = some (.of file (.execute session node))) (n : Nat) (hkn : k ≤ n) :
    ∃ phase, (σ n).calls[i]? = some ⟨file, phase⟩ ∧ phase.RunsOne session node ∧
      ((∀ m < n, hs m ≠ .event (.abandon i)) → phase.hasCaller = true) := by
  induction hkn with
  | refl =>
    rcases hasked with ⟨code, hi⟩ | hi
    · exact ⟨_, hi, .record, fun _ => rfl⟩
    · exact ⟨_, hi, .execute, fun _ => rfl⟩
  | @step n hkn ih =>
    obtain ⟨phase, hi, hruns, hcaller⟩ := ih
    have hbefalls := befalls_after l hi (hs n)
    rw [← hafter n] at hbefalls
    have hstays : ∀ m < n, m < n + 1 := fun m hm => Nat.lt_succ_of_lt hm
    generalize hhappening : hs n = happening at hbefalls
    cases hbefalls with
    | step hstep hi' =>
      refine ⟨_, hi', hruns.step hstep, fun hnone => ?_⟩
      exact hruns.hasCaller_step (hcaller fun m hm => hnone m (hstays m hm)) hstep
    | stuck _ hi' =>
      exact ⟨phase, hi', hruns, fun hnone => hcaller fun m hm => hnone m (hstays m hm)⟩
    | abandon hi' =>
      exact ⟨_, hi', hruns.abandon _, fun hnone => absurd hhappening (hnone n (Nat.lt_succ_self n))⟩
    | other _ _ hi' =>
      exact ⟨phase, hi', hruns, fun hnone => hcaller fun m hm => hnone m (hstays m hm)⟩

/-- Where a call stands at moment `n` that has handed a step over at moment `a`: it is in flight
still and has changed nothing, or has ended in between. -/
inductive StepStands (l : Ledger) (σ : Nat → Traffic) (hs : Nat → Happening) (i a n : Nat)
    (file session : String) (node : NodeId) (codes : List String) (prior : Snapshot)
    (phase : Phase) : Prop
  /-- the step is in flight -/
  | inFlight (h : phase.InFlight l session node codes prior)
    (hquiet : ∀ m, a < m → m < n → hs m = .event (.step i) → IsQuiet σ m) :
    StepStands l σ hs i a n file session node codes prior phase
  /-- the step has ended at some moment, and the call has changed nothing at any other -/
  | ended {c : Nat} {outcome : Except Breakdown RunResult} {answer : Except Fault Answer}
    (hac : a < c) (hcn : c < n) (hc : hs c = .event (.step i)) (hran : Ran l codes prior outcome)
    (hends : (σ c).desk.world.Ends l file session node (σ (c + 1)).desk.world outcome answer)
    (hended : phase.Ended session answer)
    (hquiet : ∀ m, a < m → m < n → m ≠ c → hs m = .event (.step i) → IsQuiet σ m) :
    StepStands l σ hs i a n file session node codes prior phase

/-- The call has no more than `bound` steps to take, less those that it has taken. -/
def StepsLeft (hs : Nat → Happening) (i n bound : Nat) (phase : Phase) : Prop :=
  0 < phase.left → phase.left + stepsBefore hs i n ≤ bound

theorem StepsLeft.step {phase phase' : Phase} {bound : Nat} (h : StepsLeft hs i n bound phase)
    (hn : hs n = .event (.step i)) (hlt : phase'.left < phase.left) :
    StepsLeft hs i (n + 1) bound phase' := by
  intro _
  have hbefore := h (Nat.zero_lt_of_lt hlt)
  rw [stepsBefore_step hn]
  omega

theorem StepsLeft.other {phase phase' : Phase} {bound : Nat} (h : StepsLeft hs i n bound phase)
    (hn : hs n ≠ .event (.step i)) (hle : phase'.left ≤ phase.left) :
    StepsLeft hs i (n + 1) bound phase' := by
  intro hpos
  rw [stepsBefore_of_ne hn]
  exact (Nat.add_le_add_right hle _).trans (h (hpos.trans_le hle))

/-- A call that has no next step has none left to take. -/
theorem StepsLeft.stuck {phase : Phase} {bound : Nat} {d : Desk}
    (hnone : phase.step? l file d = none) : StepsLeft hs i n bound phase :=
  fun hpos => absurd hnone (phase.step?_ne_none_of_left l file d hpos)

/-- What held of the moments in between holds of one more. -/
theorem forall_between_succ {P : Nat → Prop} (hbefore : ∀ m, a < m → m < n → P m) (hn : P n) :
    ∀ m, a < m → m < n + 1 → P m := by
  intro m ham hm
  rcases Nat.lt_succ_iff_lt_or_eq.mp hm with hm | rfl
  · exact hbefore m ham hm
  · exact hn

/-- The call goes on, its caller goes away, or something else happens. -/
theorem StepStands.succ {phase : Phase} {bound : Nat} (hi : (σ n).calls[i]? = some ⟨file, phase⟩)
    (han : a < n) (h : StepStands l σ hs i a n file session node codes prior phase)
    (hbound : StepsLeft hs i n bound phase) (hafter : σ (n + 1) = (σ n).after l (hs n)) :
    ∃ phase', (σ (n + 1)).calls[i]? = some ⟨file, phase'⟩ ∧
      StepStands l σ hs i a (n + 1) file session node codes prior phase' ∧
      StepsLeft hs i (n + 1) bound phase' := by
  have hbefalls := befalls_after l hi (hs n)
  rw [← hafter] at hbefalls
  generalize hhappening : hs n = happening at hbefalls
  cases hbefalls with
  | step hstep hi' =>
    refine ⟨_, hi', ?_⟩
    cases h with
    | inFlight hflight hquiet =>
      obtain ⟨hlt, ⟨hflight', hsame⟩ | ⟨outcome, answer, hran, hends, hended⟩⟩ :=
        hflight.step hstep
      · exact ⟨.inFlight hflight' (forall_between_succ hquiet fun _ => hsame),
          hbound.step hhappening hlt⟩
      · refine ⟨.ended han (Nat.lt_succ_self n) hhappening hran hends hended ?_,
          hbound.step hhappening hlt⟩
        exact forall_between_succ (fun m ham hmn _ => hquiet m ham hmn) fun hne => absurd rfl hne
    | ended hac hcn hc hran hends hended hquiet =>
      obtain ⟨hlt, hended', hsame⟩ := hended.step hstep
      refine ⟨.ended hac (Nat.lt_succ_of_lt hcn) hc hran hends hended' ?_,
        hbound.step hhappening hlt⟩
      exact forall_between_succ hquiet fun _ _ => hsame
  | stuck hnone hi' hsame =>
    have hquietNow : IsQuiet σ n := by
      rw [IsQuiet, hsame]
      exact ⟨rfl, rfl⟩
    refine ⟨phase, hi', ?_, .stuck hnone⟩
    cases h with
    | inFlight hflight hquiet =>
      exact .inFlight hflight (forall_between_succ hquiet fun _ => hquietNow)
    | ended hac hcn hc hran hends hended hquiet =>
      refine .ended hac (Nat.lt_succ_of_lt hcn) hc hran hends hended ?_
      exact forall_between_succ hquiet fun _ _ => hquietNow
  | abandon hi' =>
    have hne : hs n ≠ .event (.step i) := by rw [hhappening]; exact nofun
    refine ⟨_, hi', ?_⟩
    cases h with
    | inFlight hflight hquiet =>
      obtain ⟨hflight', hleft⟩ := hflight.abandon (σ n).desk.gates
      exact ⟨.inFlight hflight' (forall_between_succ hquiet fun hstep => absurd hstep hne),
        hbound.other hne hleft.le⟩
    | ended hac hcn hc hran hends hended hquiet =>
      obtain ⟨hended', hleft⟩ := hended.abandon (σ n).desk.gates
      refine ⟨.ended hac (Nat.lt_succ_of_lt hcn) hc hran hends hended' ?_, hbound.other hne hleft⟩
      exact forall_between_succ hquiet fun _ hstep => absurd hstep hne
  | other hnot _ hi' =>
    have hne : hs n ≠ .event (.step i) := hhappening ▸ hnot
    refine ⟨phase, hi', ?_, hbound.other hne (Nat.le_refl _)⟩
    cases h with
    | inFlight hflight hquiet =>
      exact .inFlight hflight (forall_between_succ hquiet fun hstep => absurd hstep hne)
    | ended hac hcn hc hran hends hended hquiet =>
      refine .ended hac (Nat.lt_succ_of_lt hcn) hc hran hends hended ?_
      exact forall_between_succ hquiet fun _ hstep => absurd hstep hne

/-- Where the call stands at any moment after it has handed its step over. -/
theorem HandsOver.stands (hafter : ∀ n, σ (n + 1) = (σ n).after l (hs n))
    (hhands : HandsOver σ i a file session node codes prior)
    (hreport : ∀ turn task report, (σ a).calls[i]? = some ⟨file, .working turn task report⟩ →
      report = .pass ∨ report = .nobody) (n : Nat) (han : a < n) :
    ∃ phase, (σ n).calls[i]? = some ⟨file, phase⟩ ∧
      StepStands l σ hs i a n file session node codes prior phase ∧
      StepsLeft hs i n (stepsBefore hs i (a + 1) + 2 * codes.length + 3) phase := by
  obtain ⟨turn, report, hturn, hbefore, hnow⟩ := hhands
  induction han with
  | refl =>
    refine ⟨_, hnow,
      .inFlight ?_ fun m ham hm => absurd ham (Nat.not_lt_of_ge (Nat.le_of_lt_succ hm)),
      fun _ => ?_⟩
    · exact ⟨turn, _, report, rfl, hturn, hreport _ _ _ hbefore, Run.came_start l codes prior⟩
    · exact show 2 * codes.length + 3 + stepsBefore hs i (a + 1) ≤
        stepsBefore hs i (a + 1) + 2 * codes.length + 3 by omega
  | @step n han ih =>
    obtain ⟨phase, hi, hstands, hbound⟩ := ih
    exact hstands.succ hi han hbound (hafter n)

end

/-- **A step in flight commits once and whole, or not at all.** A call is asked to record or to
execute one step, and hands it over to the runner at moment `a`. After that anything may happen:
files are loaded and put out, nodes, edges and sessions are deleted, sessions are started, derived
edges are found anew, and other calls do whatever they do. Until the runner has given everything,
the call changes nothing. At one moment its step ends: recorded whole if the file, the node and the
session are there, and without any trace otherwise or where the runner broke down. The call changes
nothing more then, and the answer it gives says which it was. A call that goes on long enough has
its answer, unless its caller goes away. -/
theorem step_ends_once (l : Ledger) (w : World) (hs : Nat → Happening) {i k a : Nat}
    {file session : String} {node : NodeId} {codes : List String} {prior : Snapshot} (hka : k ≤ a)
    (hasked : (∃ code, (course l w hs k).calls[i]? = some (.of file (.record session node code))) ∨
      (course l w hs k).calls[i]? = some (.of file (.execute session node)))
    (hhands : HandsOver (course l w hs) i a file session node codes prior) :
    (∀ n, a < n →
      ((∃ phase, (course l w hs n).calls[i]? = some ⟨file, phase⟩ ∧
          phase.InFlight l session node codes prior) ∧
        ∀ m, a < m → m < n → hs m = .event (.step i) → IsQuiet (course l w hs) m) ∨
      ∃ c outcome answer, a < c ∧ c < n ∧ hs c = .event (.step i) ∧ Ran l codes prior outcome ∧
        (course l w hs c).desk.world.Ends l file session node
          (course l w hs (c + 1)).desk.world outcome answer ∧
        (∀ m, a < m → m < n → m ≠ c → hs m = .event (.step i) → IsQuiet (course l w hs) m) ∧
        ∀ result, (course l w hs n).result? i = some result → result = answer) ∧
    ∀ n, stepsBefore hs i (a + 1) + 2 * codes.length + 3 ≤ stepsBefore hs i n →
      (∀ m < n, hs m ≠ .event (.abandon i)) →
      ∃ result, (course l w hs n).result? i = some result := by
  have hafter : ∀ n, course l w hs (n + 1) = (course l w hs n).after l (hs n) := fun _ => rfl
  generalize course l w hs = σ at hasked hhands hafter ⊢
  have hruns := runsOne_of_asked hafter hasked
  have hstands := hhands.stands hafter fun turn task report hi => by
    obtain ⟨phase, hi', hphase, -⟩ := hruns a hka
    cases hi.symm.trans hi'
    cases hphase with
    | working _ _ hreport => exact hreport
  refine ⟨fun n han => ?_, fun n hn hnone => ?_⟩
  · obtain ⟨phase, hi, hphase, -⟩ := hstands n han
    cases hphase with
    | inFlight hflight hquiet => exact .inl ⟨⟨phase, hi, hflight⟩, hquiet⟩
    | @ended c outcome answer hac hcn hc hran hends hended hquiet =>
      refine .inr ⟨c, outcome, answer, hac, hcn, hc, hran, hends, hquiet, fun result hresult => ?_⟩
      rw [result?, phase?, hi] at hresult
      cases hended <;> cases hresult
      rfl
  · have han : a < n := by
      by_contra hle
      have hmono : stepsBefore hs i n ≤ stepsBefore hs i (a + 1) :=
        stepsBefore_mono hs i (Nat.le_succ_of_le (Nat.le_of_not_lt hle))
      omega
    obtain ⟨phase, hi, hphase, hleft⟩ := hstands n han
    obtain ⟨phase', hi', -, hcaller⟩ := hruns n (hka.trans han.le)
    cases hi.symm.trans hi'
    have hzero : phase.left = 0 := by
      by_contra hpos
      have := hleft (Nat.pos_of_ne_zero hpos)
      omega
    have hthere := hcaller hnone
    cases hphase with
    | inFlight hflight =>
      obtain ⟨turn, run, report, rfl, -⟩ := hflight
      cases hzero
    | ended _ _ _ _ _ hended =>
      cases hended with
      | kept => cases hzero
      | reported => cases hzero
      | finished => exact ⟨_, by rw [result?, phase?, hi]; rfl⟩
      | abandoned => cases hthere

/-- A step is handed over, and while it is in flight its file is put out and loaded again, with a
session of the same name that has run something else. -/
def reloaded : List Happening :=
  [.event (.ask "f" (.start "s")), .event (.step 0), .event (.ask "f" (.record "s" "a" "x"))] ++
  List.replicate 5 (.event (.step 1)) ++
  [.unload "f", .load "f" ((Graph.empty.upsertNode (.new "a" .fragment)).upsertNode
    (.new "b" .fragment))
    ⟨[(Session.new "s" onePage.now).push (.ofRun "b" (.start .empty)) onePage.now], none⟩] ++
  List.replicate 4 (.event (.step 1))

/-- The traffic at each moment of that. -/
def reloadedTraffic : Nat → Traffic := course keeping onePage (Happening.inOrder reloaded)

/-- The step is recorded whole all the same, behind what the other session has run. -/
theorem step_ends_once_reloaded :
    (reloadedTraffic 3).calls[1]? = some (.of "f" (.record "s" "a" "x")) ∧
      HandsOver reloadedTraffic 1 6 "f" "s" "a" ["x"] .empty ∧
      ∃ c r, 6 < c ∧ c < 14 ∧ Ran keeping ["x"] .empty (.ok r) ∧
        (reloadedTraffic c).desk.world.Records keeping "f" "s" "a" r
          (reloadedTraffic (c + 1)).desk.world := by
  have hasked : (reloadedTraffic 3).calls[1]? = some (.of "f" (.record "s" "a" "x")) := by
    with_unfolding_all rfl
  have hhands : HandsOver reloadedTraffic 1 6 "f" "s" "a" ["x"] .empty :=
    ⟨_, _, rfl, by with_unfolding_all rfl, by with_unfolding_all rfl⟩
  have hgave : ∃ e, (reloadedTraffic 14).result? 1 = some (.ok (.execution (some e))) :=
    ⟨_, by with_unfolding_all rfl⟩
  refine ⟨hasked, hhands, ?_⟩
  obtain ⟨e, hgave⟩ := hgave
  rcases (step_ends_once keeping onePage (Happening.inOrder reloaded) (k := 3) (by decide)
      (.inl ⟨"x", hasked⟩) hhands).1 14 (by decide) with
    ⟨⟨phase, hi, turn, run, report, rfl, -⟩, -⟩ |
      ⟨c, outcome, answer, hac, hcn, -, hran, hends, -, hanswer⟩
  · -- the call has its answer already
    have hi' : (reloadedTraffic 14).calls[1]? =
        some ⟨"f", .working turn (.running "a" run []) report⟩ := hi
    rw [result?, phase?, hi'] at hgave
    cases hgave
  · cases hanswer _ hgave
    cases outcome with
    | error breakdown => cases hends.2
    | ok r =>
      by_cases hholds : (reloadedTraffic c).desk.world.workspace.Holds "f" "s" "a"
      · exact ⟨c, r, hac, hcn, hran, (hends.1 hholds).1⟩
      · cases (hends.2 hholds).2

end Traffic

end Ledger

end Runbook
