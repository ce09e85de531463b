import Runbook.Proofs.Frames
import Runbook.Proofs.Turns

/-!
# Causal chains

While a call runs a step of a session, or runs the session anew, nobody else changes that session:
it holds the session's turn, and every other change of the session needs that turn. So a step is
recorded on top of just what it was started from. Only the deletion of nodes is out of order here,
which may change sessions that ran the node after their turns were taken.

* `Task.Sound`, `Phase.Sound`: what calls know of the sessions they work on is right
* `Event.KeepsNodes`: the events considered here
* `Traffic.Guarded`: kept by all these events
* `Traffic.Guarded.session?_of_working`: the session that a call works on is left alone by others
* `Traffic.since`: what was so when a task began to run is so while it runs
* `Traffic.commit_finds_dispatched`: a step commits to the session that it was dispatched from
-/

namespace Runbook

/-! ## Workspaces -/

namespace Workspace

/-- Every file is as it was loaded. -/
def Loaded (w : Workspace) : Prop := ∀ file f, w.file? file = some f → ∃ g b, f = .load g b

theorem Loaded.drawn {w : Workspace} (h : w.Loaded) : w.Drawn := by
  intro file f hf
  obtain ⟨g, b, rfl⟩ := h file f hf
  exact FileState.drawn_load g b

theorem loaded_empty : empty.Loaded := nofun

theorem Loaded.insertFile {w : Workspace} (h : w.Loaded) (file : String) (g : Graph) (b : Book) :
    (w.insertFile file g b).Loaded := by
  intro other f hf
  by_cases hfile : other = file
  · rw [hfile, Workspace.insertFile, file?_setFile_self] at hf
    exact ⟨g, b, (Option.some.inj hf).symm⟩
  · rw [Workspace.insertFile, file?_setFile_of_ne w _ hfile] at hf
    exact h other f hf

end Workspace

/-- What is recorded is put at the end of the session. -/
theorem World.session?_commit {l : Ledger} {file session : String} {node : NodeId} {r : RunResult}
    {w w' : World} {e : Execution} (h : w.commit l file session node r = (some e, w')) :
    ∃ s, w.workspace.session? file session = some s ∧
      w'.workspace.session? file session = some (s.push e w.now) := by
  rw [commit] at h
  split at h
  · rename_i hcommit
    cases h
    obtain ⟨s, hs, hs', -⟩ := Workspace.commit?_eq_some hcommit
    refine ⟨s, hs, ?_⟩
    rw [workspace_persist]
    exact hs'
  · cases h

namespace Ledger

/-! ## Calls that know what they do -/

namespace Task

/-- Whether nothing of a task is under way yet. -/
def IsFresh : Task → Prop
  | running _ _ _ => False
  | replayPath _ _ => False
  | replayRunning _ _ _ _ => False
  | _ => True

/-- What a task has run anew is a history of the session. -/
def Sound (session : String) : Task → Prop
  | replayPath scratch _ => scratch.id = session ∧ scratch.Current
  | replayRunning scratch _ _ _ => scratch.id = session ∧ scratch.Current
  | _ => True

theorem IsFresh.sound {task : Task} (h : task.IsFresh) (session : String) : task.Sound session := by
  cases task with
  | replayPath scratch rest => exact h.elim
  | replayRunning scratch node run rest => exact h.elim
  | _ => trivial

theorem Sound.step {l : Ledger} {file session : String} {task task' : Task} {w w' : World}
    (h : task.Sound session) (hstep : task.step l file session w = (.more task', w')) :
    task'.Sound session := by
  cases steps_of_step hstep with
  | readPath => exact ⟨rfl, rfl⟩
  | skipAnew => exact h
  | dispatchAnew => exact h
  | runAnew => exact h
  | @pushAnew scratch => exact ⟨h.1, scratch.current_push _ _⟩
  | _ => trivial

end Task

namespace Phase

/-- What a call knows of the session that it waits for or works on is right. -/
def Sound : Phase → Prop
  | queueing _ (.work task _) => task.IsFresh
  | queueing session (.removeEdge edge) => ∃ position, edge = Session.edgeId session position
  | waiting _ (.work task _) => task.IsFresh
  | waiting turn (.removeEdge edge) => ∃ position, edge = Session.edgeId turn.session position
  | working turn task _ => task.Sound turn.session
  | _ => True

theorem Asks.sound {l : Ledger} {file : String} {request : Request} {phase : Phase}
    {w w' : World} (h : Asks l file w request phase w') (hdrawn : w.workspace.Drawn) :
    phase.Sound := by
  cases h with
  | @removeEdge edge owner howner =>
    obtain ⟨f, hf, hfind⟩ := Option.bind_eq_some_iff.mp howner
    obtain ⟨e, he, hsession⟩ := Option.bind_eq_some_iff.mp hfind
    have hid : e.id = edge := by simpa using List.find?_some he
    have hown := Session.isExecutionOf_of_session? hsession
    -- the edge is named as a step of the session whose step it is
    obtain ⟨position, hposition⟩ := hdrawn file f hf e (List.mem_of_find?_eq_some he) owner hown
    exact ⟨position, hid.symm.trans hposition⟩
  | _ => trivial

theorem sound_step? {l : Ledger} {file : String} {phase phase' : Phase} {d d' : Desk}
    (h : phase.Sound) (hdrawn : d.world.workspace.Drawn)
    (hstep : phase.step? l file d = some (phase', d')) : phase'.Sound := by
  cases steps_of_step? hstep with
  | ask hask => exact hask.sound hdrawn
  | @queue session aim =>
    cases aim with
    | work task report => exact h
    | removeEdge edge =>
      obtain ⟨position, rfl⟩ := h
      exact ⟨position, congrArg (Session.edgeId · position) (Gates.session_arrive ..).symm⟩
    | removeSession => trivial
  | @begin turn => exact Task.IsFresh.sound h turn.session
  | work htask => exact Task.Sound.step h htask
  | _ => trivial

theorem sound_abandon {phase : Phase} (h : phase.Sound) (g : Gates) :
    (phase.abandon g).1.Sound := by
  cases phase with
  | working turn task report => cases report <;> exact h
  | _ => trivial

/-- Whether a call is none that deletes a node. -/
def KeepsNodes : Phase → Prop
  | asked (.removeNode _) => False
  | gathering _ _ _ => False
  | gatheringNext _ _ _ _ => False
  | _ => True

theorem Asks.keepsNodes {l : Ledger} {file : String} {request : Request} {phase : Phase}
    {w w' : World} (h : Asks l file w request phase w') (hkeeps : (asked request).KeepsNodes) :
    phase.KeepsNodes := by
  cases h with
  | removeNode => exact hkeeps.elim
  | _ => trivial

theorem keepsNodes_step? {l : Ledger} {file : String} {phase phase' : Phase} {d d' : Desk}
    (h : phase.KeepsNodes) (hstep : phase.step? l file d = some (phase', d')) :
    phase'.KeepsNodes := by
  cases steps_of_step? hstep with
  | ask hask => exact hask.keepsNodes h
  | gather => exact h.elim
  | gathered => exact h.elim
  | removeNode => exact h.elim
  | _ => trivial

theorem keepsNodes_abandon {phase : Phase} (h : phase.KeepsNodes) (g : Gates) :
    (phase.abandon g).1.KeepsNodes := by
  cases phase with
  | working turn task report => cases report <;> trivial
  | _ => trivial

/-- An update other than the start of a session, or of the deletion of a node, is about the one
session whose turn the call has been granted. -/
theorem Makes.of_isAbout {l : Ledger} {file : String} {d : Desk} {phase : Phase} {u : Update}
    (h : Makes l file d phase u) (hsound : phase.Sound) (hnodes : phase.KeepsNodes)
    (hheld : ∀ t ∈ phase.held, d.gates.isGranted t = true) :
    (∃ name now, u = .start name now) ∨
      ∃ t ∈ phase.turns, d.gates.isGranted t = true ∧
        ∀ name, u.IsAbout name → name = t.session := by
  have hturn : ∀ {turn : Turn} {task : Task} {report : Report},
      turn ∈ (working turn task report).held := by
    intro turn task report
    cases report <;> exact List.mem_cons_self ..
  cases h with
  | start => exact .inl ⟨_, _, rfl⟩
  | branch => exact .inl ⟨_, _, rfl⟩
  | commit =>
    exact .inr ⟨_, mem_turns_of_mem_held hturn, hheld _ hturn, fun _ => Eq.symm⟩
  | commitReplay =>
    exact .inr ⟨_, mem_turns_of_mem_held hturn, hheld _ hturn, fun _ hid => hid.symm.trans hsound.1⟩
  | removeEdge hgranted =>
    refine .inr ⟨_, List.mem_singleton_self _, hgranted, ?_⟩
    rintro name ⟨i, hi⟩
    obtain ⟨j, hj⟩ := hsound
    exact (Session.edgeId_inj (hi.symm.trans hj)).1
  | removeSession hgranted =>
    exact .inr ⟨_, List.mem_singleton_self _, hgranted, fun _ => Eq.symm⟩
  | removeNode => exact hnodes.elim

/-- How a task comes to be under way. -/
theorem of_step?_working {l : Ledger} {file : String} {phase : Phase} {turn : Turn} {task : Task}
    {report : Report} {d d' : Desk}
    (hstep : phase.step? l file d = some (working turn task report, d')) :
    phase = waiting turn (.work task report) ∨ task = .replay ∨
      ∃ before, phase = working turn before report ∧
        before.step l file turn.session d.world = (.more task, d'.world) := by
  cases steps_of_step? hstep with
  | ask hask =>
    -- a call that works holds a turn, and one that was just asked holds none
    have hturns := hask.turns.2
    cases report <;> cases hturns
  | begin => exact .inl rfl
  | @work turn before task report w htask => exact .inr (.inr ⟨before, rfl, htask⟩)
  | replayNext => exact .inr (.inl rfl)

theorem of_abandon_working {phase : Phase} {turn : Turn} {task : Task} {report : Report}
    {g : Gates} (h : (phase.abandon g).1 = working turn task report) :
    ∃ before, phase = working turn task before := by
  cases phase with
  | working turn' task' before => cases before <;> cases h <;> exact ⟨_, rfl⟩
  | _ => cases h

end Phase

/-! ## All calls together -/

/-- Whether an event is none by which a node is deleted, or a file is changed past the calls. -/
def Event.KeepsNodes : Event → Prop
  | ask _ (.removeNode _) => False
  | change _ _ => False
  | _ => True

namespace Traffic

/-- A session of a file. -/
def session? (t : Traffic) (file name : String) : Option Session :=
  t.desk.world.workspace.session? file name

/-- What calls do to sessions is guarded by the turns. -/
structure Guarded (t : Traffic) : Prop where
  /-- the calls and the gates agree on who is where -/
  orderly : Orderly t
  /-- the steps of all files are named as such -/
  drawn : t.desk.world.workspace.Drawn
  /-- what calls know of their sessions is right -/
  sound : ∀ c ∈ t.calls, c.phase.Sound
  /-- no call deletes a node -/
  nodes : ∀ c ∈ t.calls, c.phase.KeepsNodes

namespace Guarded

theorem of_world {w : World} (h : w.workspace.Loaded) : Guarded (.of ⟨w, .empty⟩) where
  orderly := .of_world w
  drawn := h.drawn
  sound _ hc := absurd hc List.not_mem_nil
  nodes _ hc := absurd hc List.not_mem_nil

theorem drawn_moves {l : Ledger} {t t' : Traffic} {event : Event} (h : Guarded t)
    (hmove : Moves l t event t') : t'.desk.world.workspace.Drawn := by
  rcases hmove.workspace with hsame | ⟨i, c, u, -, -, -, happly⟩ | ⟨file, u, -, happly⟩
  · exact hsame ▸ h.drawn
  · exact happly ▸ h.drawn.apply u c.file
  · exact happly ▸ h.drawn.apply u file

theorem moves {l : Ledger} {t t' : Traffic} {event : Event} (h : Guarded t)
    (hevent : event.KeepsNodes) (hmove : Moves l t event t') : Guarded t' := by
  have hcalls : ∀ c ∈ t'.calls, c.phase.Sound ∧ c.phase.KeepsNodes := by
    intro c hc
    obtain ⟨i, hi⟩ := List.getElem?_of_mem hc
    rcases hmove.call hi with ⟨hold, -⟩ | ⟨file, request, rfl, rfl⟩ | ⟨phase, -, hold, hstep⟩ |
      ⟨phase, -, hold, hphase⟩
    · exact ⟨h.sound c (List.mem_of_getElem? hold), h.nodes c (List.mem_of_getElem? hold)⟩
    · refine ⟨trivial, ?_⟩
      cases request <;> exact hevent
    · have hmem := List.mem_of_getElem? hold
      exact ⟨Phase.sound_step? (h.sound _ hmem) h.drawn hstep,
        Phase.keepsNodes_step? (h.nodes _ hmem) hstep⟩
    · have hmem := List.mem_of_getElem? hold
      rw [← hphase]
      exact ⟨Phase.sound_abandon (h.sound _ hmem) _, Phase.keepsNodes_abandon (h.nodes _ hmem) _⟩
  exact ⟨h.orderly.moves hmove, h.drawn_moves hmove, fun c hc => (hcalls c hc).1,
    fun c hc => (hcalls c hc).2⟩

theorem run {l : Ledger} {w : World} {events : Nat → Event} (hloaded : w.workspace.Loaded)
    (hevents : ∀ n, (events n).KeepsNodes) (n : Nat) :
    Guarded (history l w events n) :=
  run_invariant (of_world hloaded) (fun n t h => h.moves (hevents n) (moves_next l t (events n))) n

/-- The session that a call works on is left alone by all others. -/
theorem session?_of_working {l : Ledger} {t t' : Traffic} {event : Event} (h : Guarded t)
    (hevent : event.KeepsNodes) (hmove : Moves l t event t') {i : Nat} {file : String}
    {turn : Turn} {task : Task} {report : Report} {s : Session}
    (hi : t.calls[i]? = some ⟨file, .working turn task report⟩) (hother : event ≠ .step i)
    (hs : t.session? file turn.session = some s) : t'.session? file turn.session = some s := by
  rcases hmove.workspace with hsame | ⟨j, c, u, rfl, hj, hmakes, happly⟩ | ⟨file, u, rfl, -⟩
  · rw [session?, hsame]
    exact hs
  · have hmem := List.mem_of_getElem? hj
    rw [session?, happly]
    rcases hmakes.of_isAbout (h.sound c hmem) (h.nodes c hmem) (h.orderly.held c hmem) with
      ⟨name, now, rfl⟩ | ⟨v, hv, hgranted, habout⟩
    · exact Workspace.session?_apply_start hs
    · rw [Workspace.session?_apply_of_not fun _ _ _ => h.drawn]
      · exact hs
      · -- two calls that have been granted the turn of the session would be one call
        intro hfile hu
        have hheld : turn ∈ (Phase.working turn task report).held := by
          cases report <;> exact List.mem_cons_self ..
        have hij := h.orderly.eq_of_isGranted hi hj (Phase.mem_turns_of_mem_held hheld) hv hfile
          (habout _ hu) (h.orderly.held _ (List.mem_of_getElem? hi) turn hheld) hgranted
        exact hother (hij ▸ rfl)
  · exact hevent.elim

end Guarded

/-! ## From the start of a stretch of work to its end -/

/-- The call is at work on a task of some kind. -/
def IsAt (K : Task → Prop) (t : Traffic) (i : Nat) (file : String) (turn : Turn) : Prop :=
  ∃ task report, K task ∧ t.calls[i]? = some ⟨file, .working turn task report⟩

/-- The call came to be at work on a task of some kind at an earlier moment and has been since,
and the session is now what it was then. -/
def Began (l : Ledger) (K : Task → Prop) (σ : Nat → Traffic) (i : Nat) (file : String)
    (turn : Turn) (b : Nat) : Prop :=
  ∃ a before task report s, a < b ∧ ¬ K before ∧ K task ∧
    (σ a).calls[i]? = some ⟨file, .working turn before report⟩ ∧
    (σ (a + 1)).calls[i]? = some ⟨file, .working turn task report⟩ ∧
    before.step l file turn.session (σ a).desk.world = (.more task, (σ (a + 1)).desk.world) ∧
    (∀ m, a < m → m ≤ b → IsAt K (σ m) i file turn) ∧
    (σ a).session? file turn.session = some s ∧ (σ b).session? file turn.session = some s

/-- A stretch of work of some kind has a beginning, and from there on the session is the same.
The kind has to be one that no task is of at first, and steps into it or within it have to leave
the workspace alone. -/
theorem since {l : Ledger} {σ : Nat → Traffic} {events : Nat → Event} {K : Task → Prop}
    (hinit : (σ 0).calls = []) (hnext : ∀ n, Moves l (σ n) (events n) (σ (n + 1)))
    (hguarded : ∀ n, Guarded (σ n)) (hevents : ∀ n, (events n).KeepsNodes)
    (hfresh : ∀ task, K task → ¬ task.IsFresh)
    (hsteps : ∀ file session before task w w', K task →
      Task.step l file session before w = (.more task, w') → w'.workspace = w.workspace ∧
        (K before ∨ ∃ s, w.workspace.session? file session = some s))
    {i : Nat} {file : String} {turn : Turn} (b : Nat) (hb : IsAt K (σ b) i file turn) :
    Began l K σ i file turn b := by
  induction b with
  | zero =>
    obtain ⟨task, report, -, hi⟩ := hb
    rw [hinit] at hi
    cases hi
  | succ b ih =>
    -- a stretch that was under way at `b` goes on, if the session is not changed at `b`
    have hgo : ∀ {task : Task} {report : Report}, K task →
        (σ b).calls[i]? = some ⟨file, .working turn task report⟩ →
        (∀ s, (σ b).session? file turn.session = some s →
          (σ (b + 1)).session? file turn.session = some s) → Began l K σ i file turn (b + 1) := by
      intro task report hK hi hkept
      obtain ⟨a, before, task, report, s, hab, hbefore, htask, ha, ha', hstep, hall, hsa, hsb⟩ :=
        ih ⟨task, report, hK, hi⟩
      refine ⟨a, before, task, report, s, Nat.lt_succ_of_lt hab, hbefore, htask, ha, ha', hstep,
        ?_, hsa, hkept s hsb⟩
      intro m ham hmb
      rcases Nat.lt_or_eq_of_le hmb with hlt | rfl
      · exact hall m ham (Nat.le_of_lt_succ hlt)
      · exact hb
    obtain ⟨task, report, hK, hi⟩ := hb
    rcases (hnext b).call hi with ⟨hold, hidle⟩ | ⟨file, request, -, heq⟩ |
      ⟨phase, hevent, hold, hstep⟩ | ⟨phase, hevent, hold, hphase⟩
    · -- the call stayed as it is: another one moved, or its own step was none
      refine hgo hK hold fun s hs => ?_
      by_cases hevent : events b = .step i
      · rw [hidle hevent]
        exact hs
      · exact (hguarded b).session?_of_working (hevents b) (hnext b) hold hevent hs
    · cases heq
    · -- the call moved itself: it was at work before, for tasks begin fresh
      have hsound := (hguarded b).sound _ (List.mem_of_getElem? hold)
      rcases Phase.of_step?_working hstep with rfl | rfl | ⟨before, rfl, htask⟩
      · exact absurd hsound (hfresh task hK)
      · exact absurd trivial (hfresh _ hK)
      · obtain ⟨hsame, hbefore⟩ := hsteps _ _ _ _ _ _ hK htask
        have hkept : ∀ s, (σ b).session? file turn.session = some s →
            (σ (b + 1)).session? file turn.session = some s := by
          intro s hs
          rw [session?, hsame]
          exact hs
        by_cases hKbefore : K before
        · exact hgo hKbefore hold hkept
        · -- this is the step by which the stretch begins
          obtain ⟨s, hs⟩ := hbefore.resolve_left hKbefore
          refine ⟨b, before, task, report, s, Nat.lt_succ_self b, hKbefore, hK, hold, hi, htask,
            ?_, hs, hkept s hs⟩
          intro m hlt hle
          rw [Nat.le_antisymm hle hlt]
          exact ⟨task, report, hK, hi⟩
    · -- the caller went away, and the task goes on without him
      obtain ⟨before, rfl⟩ := Phase.of_abandon_working hphase
      refine hgo hK hold fun s hs => ?_
      exact (hguarded b).session?_of_working (hevents b) (hnext b) hold (hevent ▸ nofun) hs

/-! ## What is recorded -/

/-- Whether a task is running a step of a node. -/
def Runs (node : NodeId) (task : Task) : Prop := ∃ run rest, task = .running node run rest

/-- Whether a task is running a session anew. -/
def Replays (task : Task) : Prop :=
  (∃ scratch rest, task = .replayPath scratch rest) ∨
    ∃ scratch node run rest, task = .replayRunning scratch node run rest

/-- At moment `n` the call reads the state that the runner is to start the next step of the
session from. -/
def Dispatches (σ : Nat → Traffic) (i n : Nat) (file session : String) (node : NodeId)
    (prior : Snapshot) : Prop :=
  ∃ turn codes rest report, turn.session = session ∧
    (σ n).calls[i]? = some ⟨file, .working turn (.dispatch node codes rest) report⟩ ∧
    (σ (n + 1)).calls[i]? =
      some ⟨file, .working turn (.running node (.start codes prior) rest) report⟩

/-- At moment `n` the call records the step of the session that it has run. -/
def Commits (σ : Nat → Traffic) (i n : Nat) (file session : String) (node : NodeId)
    (e : Execution) : Prop :=
  ∃ turn run rest report, turn.session = session ∧
    (σ n).calls[i]? = some ⟨file, .working turn (.running node run rest) report⟩ ∧
    (σ (n + 1)).calls[i]? = some ⟨file, .working turn (.path (some e) rest) report⟩

/-- At moment `n` the call reads the path of the session that it runs anew. -/
def StartsReplay (σ : Nat → Traffic) (i n : Nat) (file session : String) (path : List NodeId) :
    Prop :=
  ∃ turn scratch report, turn.session = session ∧
    (σ n).calls[i]? = some ⟨file, .working turn .replay report⟩ ∧
    (σ (n + 1)).calls[i]? = some ⟨file, .working turn (.replayPath scratch path) report⟩

/-- At moment `n` the call puts the session that it has run anew in place. -/
def CommitsReplay (σ : Nat → Traffic) (i n : Nat) (file session : String) (scratch : Session) :
    Prop :=
  (∃ turn report, turn.session = session ∧
    (σ n).calls[i]? = some ⟨file, .working turn (.replayPath scratch []) report⟩) ∧
    (∀ phase, (σ (n + 1)).phase? i = some phase → phase.isWorking = false) ∧
    (σ (n + 1)).session? file session = some scratch

theorem Runs.of_step {node : NodeId} {l : Ledger} {file session : String} {before task : Task}
    {w w' : World} (h : Runs node task)
    (hstep : before.step l file session w = (.more task, w')) : w'.workspace = w.workspace ∧
      (Runs node before ∨ ∃ codes rest s, before = .dispatch node codes rest ∧
        task = .running node (.start codes s.overall) rest ∧
        w.workspace.session? file session = some s) := by
  obtain ⟨run, rest, rfl⟩ := h
  cases Task.steps_of_step hstep with
  | @dispatch node codes rest prior hprior =>
    obtain ⟨f, hf, hfile⟩ := Option.bind_eq_some_iff.mp hprior
    rw [FileState.prior?] at hfile
    split at hfile
    · obtain ⟨s, hs, rfl⟩ := Option.map_eq_some_iff.mp hfile
      refine ⟨rfl, .inr ⟨codes, rest, s, rfl, rfl, ?_⟩⟩
      rw [Workspace.session?, hf]
      exact hs
    · cases hfile
  | run hrun => exact ⟨Run.workspace_eq hrun, .inl ⟨_, rest, rfl⟩⟩

theorem Replays.of_step {l : Ledger} {file session : String} {before task : Task}
    {w w' : World} (h : Replays task)
    (hstep : before.step l file session w = (.more task, w')) : w'.workspace = w.workspace ∧
      (Replays before ∨ ∃ scratch s, before = .replay ∧ task = .replayPath scratch s.path ∧
        w.workspace.session? file session = some s) := by
  rcases h with ⟨scratch, rest, rfl⟩ | ⟨scratch, node, run, rest, rfl⟩
  · cases Task.steps_of_step hstep with
    | readPath hs => exact ⟨rfl, .inr ⟨_, _, rfl, rfl, hs⟩⟩
    | skipAnew => exact ⟨rfl, .inl (.inl ⟨_, _, rfl⟩)⟩
    | pushAnew hrun =>
      have hsame := Run.workspace_eq hrun
      exact ⟨hsame, .inl (.inr ⟨_, _, _, _, rfl⟩)⟩
  · cases Task.steps_of_step hstep with
    | dispatchAnew => exact ⟨rfl, .inl (.inl ⟨_, _, rfl⟩)⟩
    | runAnew hrun => exact ⟨Run.workspace_eq hrun, .inl (.inr ⟨_, _, _, _, rfl⟩)⟩

/-- From when a session was not there on, the next execution always starts from the state that the
last one left. -/
theorem current_of_none {l : Ledger} {σ : Nat → Traffic} {events : Nat → Event}
    (hnext : ∀ n, Moves l (σ n) (events n) (σ (n + 1))) (hguarded : ∀ n, Guarded (σ n))
    (hevents : ∀ n, (events n).KeepsNodes) {file name : String} {k m : Nat} (hkm : k ≤ m)
    (hnone : (σ k).session? file name = none) :
    ∀ f, (σ m).desk.world.workspace.file? file = some f → f.Current name := by
  obtain ⟨j, rfl⟩ := Nat.exists_eq_add_of_le hkm
  clear hkm
  induction j with
  | zero =>
    intro f hf s hs hid
    rw [Nat.add_zero] at hf
    rw [session?, Workspace.session?, hf, Option.bind_some, Book.get?, List.find?_eq_none] at hnone
    exact absurd (decide_eq_true hid) (hnone s hs)
  | succ j ih =>
    rw [← Nat.add_assoc]
    rcases (hnext (k + j)).workspace with hsame | ⟨i, c, u, -, hi, hmakes, happly⟩ |
      ⟨_, u, hevent, -⟩
    · rw [hsame]
      exact ih
    · rw [happly]
      intro f hf
      by_cases hfile : file = c.file
      · rw [hfile, Update.file?_apply] at hf
        obtain ⟨f', hf', rfl⟩ := Option.map_eq_some_iff.mp hf
        -- a session put in place was made by a run from the empty state, so that it is current, too
        refine (ih f' (hfile ▸ hf')).onFile u c.file ?_
        rintro scratch rfl
        have hsound := (hguarded (k + j)).sound c (List.mem_of_getElem? hi)
        generalize c.phase = phase at hmakes hsound
        cases hmakes
        exact hsound.2
      · rw [Update.file?_apply_of_ne _ _ hfile] at hf
        exact ih f hf
    · have hkeeps := hevents (k + j)
      rw [hevent] at hkeeps
      exact hkeeps.elim

/-- A step that has run is put at the end of the session that is there. -/
theorem Commits.session? {l : Ledger} {σ : Nat → Traffic} {events : Nat → Event}
    (hnext : ∀ n, Moves l (σ n) (events n) (σ (n + 1))) {i b : Nat} {file session : String}
    {node : NodeId} {e : Execution} (h : Commits σ i b file session node e) :
    ∃ s now, (σ b).session? file session = some s ∧
      (σ (b + 1)).session? file session = some (s.push e now) := by
  obtain ⟨turn, run, rest, report, rfl, hb, hb'⟩ := h
  rcases (hnext b).call hb' with ⟨hold, -⟩ | ⟨_, request, -, heq⟩ | ⟨phase, -, hold, hstep⟩ |
    ⟨phase, -, hold, hphase⟩
  · rw [hb] at hold
    cases hold
  · cases heq
  · rw [hb] at hold
    cases hold
    rcases Phase.of_step?_working hstep with heq | heq | ⟨before, heq, htask⟩
    · cases heq
    · cases heq
    · cases heq
      -- only a step that has run leaves something recorded behind
      cases Task.steps_of_step htask with
      | @commit _ _ _ _ _ w _ hrun hcommit =>
        obtain ⟨s, hs, hs'⟩ := World.session?_commit hcommit
        refine ⟨s, w.now, ?_, hs'⟩
        rw [Traffic.session?, ← Run.workspace_eq hrun]
        exact hs
  · rw [hb] at hold
    cases hold
    cases report <;> cases hphase

/-- **The causal chain.** Any number of calls, none of which deletes a node, may come in, take
their steps in any order and lose their callers. Whenever one of them records a step it has run,
it had dispatched that step from the state of the very session that it finds, and has been running
it since; if the session was started by a call, that state is the one that its last execution left.
Likewise a session that was run anew takes the place of just the session whose path was read. -/
theorem commit_finds_dispatched (l : Ledger) (w : World) (hloaded : w.workspace.Loaded)
    (events : Nat → Event) (hevents : ∀ n, (events n).KeepsNodes) :
    (∀ i b file session node e,
      Commits (history l w events) i b file session node e →
        ∃ a s, a < b ∧
          Dispatches (history l w events) i a file session node s.overall ∧
          (∀ m, a < m → m ≤ b → ∃ turn, turn.session = session ∧
            IsAt (Runs node) (history l w events m) i file turn) ∧
          (history l w events a).session? file session = some s ∧
          (history l w events b).session? file session = some s ∧
          (∃ now, (history l w events (b + 1)).session? file session =
            some (s.push e now)) ∧
          ((∃ k ≤ a, (history l w events k).session? file session = none) →
            s.overall = Session.lastState s.executions)) ∧
      ∀ i b file session scratch,
        CommitsReplay (history l w events) i b file session scratch →
          ∃ a s, a < b ∧
            StartsReplay (history l w events) i a file session s.path ∧
            (∀ m, a < m → m ≤ b → ∃ turn, turn.session = session ∧
              IsAt Replays (history l w events m) i file turn) ∧
            (history l w events a).session? file session = some s ∧
            (history l w events b).session? file session = some s := by
  have hguarded : ∀ n, Guarded (history l w events n) :=
    Guarded.run hloaded hevents
  have hnext : ∀ n, Moves l (history l w events n) (events n)
      (history l w events (n + 1)) := fun n => moves_next l _ (events n)
  have hinit : (history l w events 0).calls = [] := rfl
  generalize history l w events = σ at hguarded hnext hinit ⊢
  constructor
  · intro i b file session node e hcommit
    obtain ⟨s', now, hs', hpush⟩ := hcommit.session? hnext
    obtain ⟨turn, run, rest, report, rfl, hb, -⟩ := hcommit
    have hbegan : Began l (Runs node) σ i file turn b := by
      refine since hinit hnext hguarded hevents ?_ ?_ b ⟨_, report, ⟨run, rest, rfl⟩, hb⟩
      · rintro task ⟨run, rest, rfl⟩
        exact id
      · intro file session before task w w' hK hstep
        obtain ⟨hsame, hbefore⟩ := hK.of_step hstep
        exact ⟨hsame, hbefore.imp_right fun ⟨_, _, s, _, _, hs⟩ => ⟨s, hs⟩⟩
    obtain ⟨a, before, task, report', s, hab, hnot, htask, ha, ha', hstep, hall, hsa, hsb⟩ := hbegan
    -- the stretch of running the step begins with its dispatch, as no other task leads there
    obtain ⟨codes, rest', t, rfl, rfl, ht⟩ := (htask.of_step hstep).2.resolve_left hnot
    obtain rfl : t = s := Option.some.inj (ht.symm.trans hsa)
    obtain rfl : s' = t := Option.some.inj (hs'.symm.trans hsb)
    refine ⟨a, s', hab, ⟨turn, codes, rest', report', rfl, ha, ha'⟩,
      fun m ham hmb => ⟨turn, rfl, hall m ham hmb⟩, hsa, hsb, ⟨now, hpush⟩, ?_⟩
    rintro ⟨k, hka, hnone⟩
    obtain ⟨f, hf, hget⟩ := Option.bind_eq_some_iff.mp hsa
    exact current_of_none hnext hguarded hevents hka hnone f hf s'
      (List.mem_of_find?_eq_some hget) (Book.exists_split hget).1
  · rintro i b file session scratch ⟨⟨turn, report, rfl, hb⟩, -, -⟩
    have hbegan : Began l Replays σ i file turn b := by
      refine since hinit hnext hguarded hevents ?_ ?_ b ⟨_, report, .inl ⟨scratch, [], rfl⟩, hb⟩
      · rintro task (⟨scratch, rest, rfl⟩ | ⟨scratch, node, run, rest, rfl⟩)
        · exact id
        · exact id
      · intro file session before task w w' hK hstep
        obtain ⟨hsame, hbefore⟩ := hK.of_step hstep
        exact ⟨hsame, hbefore.imp_right fun ⟨_, s, _, _, hs⟩ => ⟨s, hs⟩⟩
    obtain ⟨a, before, task, report', s, hab, hnot, htask, ha, ha', hstep, hall, hsa, hsb⟩ := hbegan
    -- likewise running anew begins with the path being read
    obtain ⟨fresh, t, rfl, rfl, ht⟩ := (htask.of_step hstep).2.resolve_left hnot
    obtain rfl : t = s := Option.some.inj (ht.symm.trans hsa)
    exact ⟨a, t, hab, ⟨turn, fresh, report', rfl, ha, ha'⟩,
      fun m ham hmb => ⟨turn, rfl, hall m ham hmb⟩, hsa, hsb⟩

/-- A runner that puts the code itself among the variables. -/
def noting : Ledger where
  runner _ code prior :=
    .ok { stdout := code, stderr := "", state := prior.insert code .null trivial, time := .zero }
  settings := { persist := false }

/-- One file with one node. -/
def onePage : World :=
  { World.initial default with
    workspace := Workspace.empty.insertFile "f" (Graph.empty.upsertNode (.new "a" .fragment))
      .empty }

/-- A session is started and two steps of it are asked for. The caller of the first goes away while
it is run, and the second waits its turn all the same. -/
def twoRecords : List Event := [
  .ask "f" (.start "s"), .step 0, .ask "f" (.record "s" "a" "x"), .ask "f" (.record "s" "a" "y"),
  .step 1, .step 2, .step 1, .step 2, .step 1, .step 1, .abandon 1, .step 2, .step 1, .step 1,
  .step 1, .step 1, .step 2, .step 2, .step 2, .step 2, .step 2]

/-- The second step goes on from where the first one ended, though nobody waited for that. -/
theorem commit_finds_dispatched_twoRecords :
    onePage.workspace.Loaded ∧ (∀ n, (Event.inOrder twoRecords n).KeepsNodes) ∧
      ∃ e, Commits (history noting onePage (Event.inOrder twoRecords)) 2 20 "f" "s" "a" e ∧
        ∃ a s, a < 20 ∧
          Dispatches (history noting onePage (Event.inOrder twoRecords)) 2 a "f" "s" "a"
            s.overall ∧
          (history noting onePage (Event.inOrder twoRecords) a).session? "f" "s" = some s ∧
          (history noting onePage (Event.inOrder twoRecords) 20).session? "f" "s" = some s ∧
          s.overall = Session.lastState s.executions := by
  have hloaded : onePage.workspace.Loaded :=
    Workspace.loaded_empty.insertFile "f" (Graph.empty.upsertNode (.new "a" .fragment)) .empty
  have hevents : ∀ n, (Event.inOrder twoRecords n).KeepsNodes := by
    refine Event.inOrder_forall ?_ fun _ => trivial
    simp [twoRecords, Event.KeepsNodes]
  have hcommit : ∃ e,
      Commits (history noting onePage (Event.inOrder twoRecords)) 2 20 "f" "s" "a" e :=
    ⟨_, _, _, _, _, rfl, rfl, rfl⟩
  obtain ⟨e, hcommit⟩ := hcommit
  obtain ⟨a, s, hab, hdispatch, -, hsa, hsb, -, hcurrent⟩ :=
    (commit_finds_dispatched noting onePage hloaded _ hevents).1 2 20 "f" "s" "a" e hcommit
  exact ⟨hloaded, hevents, e, hcommit, a, s, hab, hdispatch, hsa, hsb,
    hcurrent ⟨0, Nat.zero_le a, rfl⟩⟩

end Traffic

end Ledger

end Runbook
