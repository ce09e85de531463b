import Runbook.Proofs.Owners
import Runbook.Proofs.Reruns

/-!
# Running step by step and running anew

A session comes to be step by step: each run starts from the state the last one left, and is
recorded with an edge at the end of the chain. To run the session anew goes another way: all runs
come first, in a session that is on no book, and the whole chain is redrawn. Where the nodes still
mean the code they meant when they ran, both ways lead to the same session.

* `FileState.withStep`: a file in which one more step was recorded
* `Ledger.execute_cases`, `Ledger.executeNode_cases`: all that running a node can do
* `Ledger.Grows`: a session that comes to be while other calls go on
* `Ledger.Grows.reflects`: it is at all times what a fresh run of its history gives
* `Ledger.replay_grown`: so running it anew makes no difference
-/

namespace Runbook

/-! ## One more step -/

theorem Session.stepsIn_nextEdge (s : Session) (node : NodeId) :
    stepsIn s.id [s.nextEdge node] = [s.nextEdge node] :=
  List.filter_cons_of_pos (isExecutionOf_edge ..)

/-- The file after one more step of a session. -/
def FileState.withStep (f : FileState) (s : Session) (e : Execution) (now : Instant) :
    FileState where
  graph := { f.graph with edges := f.graph.edges ++ [s.nextEdge e.node] }
  book := (f.book.replace s.id (s.push e now)).setPrimary s.id

/-- What a run of a node gave is recorded if both the node and the session are there. -/
theorem FileState.commit?_eq {f : FileState} {session : String} {node : NodeId} {s : Session}
    (hnode : f.graph.hasNode node = true) (hs : f.book.get? session = some s) (r : RunResult)
    (now : Instant) : f.commit? session node r now =
      some (.ofRun node r, r.state, f.withStep s (.ofRun node r) now) := by
  have hid := (Book.exists_split hs).1
  rw [commit?, if_pos hnode, hs, Option.map_some]
  simp only [Session.appendEdge_push, withStep, hid]
  rfl

theorem FileState.get?_withStep {f : FileState} {session : String} {s : Session}
    (hs : f.book.get? session = some s) (e : Execution) (now : Instant) :
    (f.withStep s e now).book.get? session = some (s.push e now) := by
  have hid := (Book.exists_split hs).1
  rw [withStep, Book.get?_setPrimary, hid]
  exact Book.get?_replace_self hs hid

theorem World.commit_eq (l : Ledger) {file session : String} {node : NodeId} {w : World}
    {f : FileState} {s : Session} (hf : w.workspace.file? file = some f)
    (hnode : f.graph.hasNode node = true) (hs : f.book.get? session = some s) (r : RunResult) :
    w.commit l file session node r = (some (.ofRun node r), World.persist l file session r.state
      (w.withWorkspace (w.workspace.setFile file (f.withStep s (.ofRun node r) w.now)))) := by
  rw [commit, Workspace.commit?, Workspace.update?, hf, Option.bind_some,
    FileState.commit?_eq hnode hs]
  rfl

/-- The file after an empty session was started. -/
def FileState.withSession (f : FileState) (name : String) (now : Instant) : FileState :=
  { f with book := {
    sessions := f.book.sessions ++ [.new name now]
    primary := f.book.primary.orElse fun _ => some name } }

theorem FileState.get?_withSession {f : FileState} {name : String}
    (hfree : f.book.get? name = none) (now : Instant) :
    (f.withSession name now).book.get? name = some (.new name now) :=
  Book.get?_concat (s := .new name now) hfree _

/-- All that starting a session can do: be refused without any effect, or start it. -/
theorem World.start_cases (l : Ledger) (file name : String) (w : World) :
    (w.workspace.file? file = none ∧ w.start l file name = (.error (.fileNotFound file), w)) ∨
      (∃ f, w.workspace.file? file = some f ∧ f.book.contains name = true ∧
        w.start l file name = (.error (.duplicateSession file name), w)) ∨
      ∃ f, w.workspace.file? file = some f ∧ f.book.get? name = none ∧
        w.start l file name = (.ok (.new name w.now), World.persist l file name .empty
          (w.withWorkspace (w.workspace.setFile file (f.withSession name w.now)))) := by
  rw [start, Workspace.startSession]
  cases hf : w.workspace.file? file with
  | none => exact .inl ⟨rfl, rfl⟩
  | some f =>
    right
    simp only [Book.start]
    by_cases htaken : f.book.contains name = true
    · rw [if_pos htaken]
      exact .inl ⟨f, rfl, htaken, rfl⟩
    · rw [if_neg htaken]
      exact .inr ⟨f, rfl, Option.not_isSome_iff_eq_none.mp htaken, rfl⟩

namespace Ledger

/-- All that running code as a step of a node can do: nothing, if the node is not there; or the
runner breaks down, and is called without any other effect; or what it gave is recorded. -/
theorem execute_cases (l : Ledger) {file name : String} {w : World} {f : FileState}
    {s : Session} (hf : w.workspace.file? file = some f) (hs : f.book.get? name = some s)
    (node : NodeId) (codes : List String) :
    (f.graph.hasNode node = false ∧ l.execute file name node codes w = (.ok none, w)) ∨
      (∃ b calls, l.runner.runAll codes s.overall w.calls = (.error b, calls) ∧
        l.execute file name node codes w = (.error b.fault, { w with calls })) ∨
      ∃ r calls, l.runner.runAll codes s.overall w.calls = (.ok r, calls) ∧
        l.execute file name node codes w = (.ok (some (.ofRun node r)),
          World.persist l file name r.state (World.withWorkspace { w with calls }
            (w.workspace.setFile file (f.withStep s (.ofRun node r) w.now)))) := by
  rw [execute, Workspace.prior?, hf, Option.bind_some, FileState.prior?]
  cases hnode : f.graph.hasNode node with
  | false => exact .inl ⟨rfl, rfl⟩
  | true =>
    right
    simp only [if_true, hs, Option.map_some, run_eq]
    rcases hrun : l.runner.runAll codes s.overall w.calls with ⟨b | r, calls⟩
    · exact .inl ⟨b, calls, rfl, rfl⟩
    · refine .inr ⟨r, calls, rfl, ?_⟩
      have hcommit := World.commit_eq l (w := { w with calls }) hf hnode hs r
      simp only [Except.mapError]
      rw [hcommit]
      rfl

/-- All that running a node in a session can do: nothing, if the node means no code; or the runner
breaks down, and is called without any other effect; or what it gave is recorded. -/
theorem executeNode_cases (l : Ledger) {file name : String} {w : World} {f : FileState}
    {s : Session} (hf : w.workspace.file? file = some f) (hs : f.book.get? name = some s)
    (node : NodeId) :
    (w.workspace.steps? file node = none ∧ l.executeNode file name node w = (.ok none, w)) ∨
      (∃ codes b calls, w.workspace.steps? file node = some codes ∧
        l.runner.runAll codes s.overall w.calls = (.error b, calls) ∧
        l.executeNode file name node w = (.error b.fault, { w with calls })) ∨
      ∃ codes r calls, w.workspace.steps? file node = some codes ∧
        l.runner.runAll codes s.overall w.calls = (.ok r, calls) ∧
        l.executeNode file name node w = (.ok (some (.ofRun node r)),
          World.persist l file name r.state (World.withWorkspace { w with calls }
            (w.workspace.setFile file (f.withStep s (.ofRun node r) w.now)))) := by
  rw [executeNode]
  cases hsteps : w.workspace.steps? file node with
  | none => exact .inl ⟨rfl, rfl⟩
  | some codes =>
    right
    have hsome : w.workspace.steps? file node ≠ none := by simp [hsteps]
    obtain ⟨f', hf', hnode⟩ := Workspace.hasNode_of_steps? hsome
    rw [Option.some.inj (hf'.symm.trans hf)] at hnode
    rcases l.execute_cases hf hs node codes with ⟨hnot, -⟩ | ⟨b, calls, hrun, heq⟩ |
      ⟨r, calls, hrun, heq⟩
    · cases hnot.symm.trans hnode
    · exact .inl ⟨codes, b, calls, rfl, hrun, heq⟩
    · exact .inr ⟨codes, r, calls, rfl, hrun, heq⟩

/-! ## Histories -/

/-- Runs one more node that means some codes, after some executions and runner calls. -/
def runStep (l : Ledger) (done : List Execution × Nat) (step : NodeId × List String) :
    Except Breakdown (List Execution × Nat) :=
  match l.runner.runAll step.2 (Session.lastState done.1) done.2 with
  | (.ok r, calls) => .ok (done.1 ++ [.ofRun step.1 r], calls)
  | (.error b, _) => .error b

/-- Where the nodes of a history mean what they meant then, a fresh run goes through its steps. -/
theorem foldlM_runStep (l : Ledger) (w : Workspace) (file : String)
    (history : List (NodeId × List String)) :
    (∀ step ∈ history, w.steps? file step.1 = some step.2) → ∀ done : List Execution × Nat,
      (history.map Prod.fst).foldlM (l.runNext w file) done = history.foldlM l.runStep done := by
  induction history with
  | nil => exact fun _ _ => rfl
  | cons step rest ih =>
    intro hsteps done
    have hone : l.runNext w file done step.1 = l.runStep done step := by
      rw [runNext_some (hsteps step List.mem_cons_self)]
      rfl
    have hrest := ih fun step hstep => hsteps step (List.mem_cons_of_mem _ hstep)
    rw [List.map_cons, List.foldlM_cons, List.foldlM_cons, hone]
    exact congrArg (l.runStep done step >>= ·) (funext hrest)

end Ledger

/-- A state that was just stored can be stored once more. -/
theorem World.save_persist {l : Ledger} (hl : l.settings.persist = true) (file name : String)
    (state : Snapshot) (w : World) :
    ((w.persist l file name state).store.save file name state).2 =
      (w.persist l file name state).store := by
  rw [store_persist, if_pos hl, Store.save_save]

/-- What was done between two worlds leaves a session, its steps in the graph, and what is stored
for it and would be. -/
structure World.Spares (file name : String) (w w' : World) : Prop where
  /-- the session -/
  session? : w'.workspace.session? file name = w.workspace.session? file name
  /-- its steps -/
  stepsOf : w'.workspace.stepsOf file name = w.workspace.stepsOf file name
  /-- what is stored -/
  load : w'.store.load file name = w.store.load file name
  /-- what would be -/
  save : ∀ state, (w'.store.save file name state).2.load file name =
    (w.store.save file name state).2.load file name

/-- In memory, a state stored for another session makes no difference to what is stored. -/
theorem World.spares_of_memory {file name other session : String} {w w' : World}
    {m : MemoryStore} {state : Snapshot} (hm : w.store = .memory m)
    (hne : (other, session) ≠ (file, name))
    (hstore : w'.store = (w.store.save other session state).2)
    (hsession : w'.workspace.session? file name = w.workspace.session? file name)
    (hsteps : w'.workspace.stepsOf file name = w.workspace.stepsOf file name) :
    World.Spares file name w w' where
  session? := hsession
  stepsOf := hsteps
  load := by
    have htext := m.text?_putText_of_ne state.compact hne.symm
    rw [hstore, hm]
    simp only [Store.save, Store.load, MemoryStore.load, MemoryStore.save, htext]
  save state := by
    rw [hstore, hm]
    simp only [Store.save, Store.load, MemoryStore.load, MemoryStore.save,
      MemoryStore.text?_putText_self]

namespace Ledger

/-- A session is started and nodes are run in it. Its history is the nodes that were run and
recorded, with the codes that they meant then. In between anything may be done that spares the
session. -/
inductive Grows (l : Ledger) (file name : String) (w₀ : World) :
    World → List (NodeId × List String) → Prop where
  /-- the session is started -/
  | start {s : Session} {w : World} (h : w₀.start l file name = (.ok s, w)) :
    Grows l file name w₀ w []
  /-- a node is run and recorded -/
  | step {w w' : World} {history : List (NodeId × List String)} {node : NodeId}
    {codes : List String} {e : Execution} (hgrows : Grows l file name w₀ w history)
    (hsteps : w.workspace.steps? file node = some codes)
    (h : l.executeNode file name node w = (.ok (some e), w')) :
    Grows l file name w₀ w' (history ++ [(node, codes)])
  /-- nothing is recorded, as the node means no code or the runner breaks down -/
  | pass {w w' : World} {history : List (NodeId × List String)} {node : NodeId}
    {outcome : Except Fault (Option Execution)} (hgrows : Grows l file name w₀ w history)
    (h : l.executeNode file name node w = (outcome, w')) (hnone : ∀ e, outcome ≠ .ok (some e)) :
    Grows l file name w₀ w' history
  /-- something else is done -/
  | other {w w' : World} {history : List (NodeId × List String)}
    (hgrows : Grows l file name w₀ w history) (h : World.Spares file name w w') :
    Grows l file name w₀ w' history

/-- A session is what a fresh run of a history gives, and drawn and stored as such. -/
structure Reflects (l : Ledger) (file name : String) (w₀ w : World)
    (history : List (NodeId × List String)) (s : Session) : Prop where
  /-- the session is there -/
  session? : w.workspace.session? file name = some s
  /-- its state is the one its last execution left -/
  current : s.Current
  /-- its path is the history's -/
  path : s.path = history.map Prod.fst
  /-- its executions are those of a fresh run -/
  fresh : ∀ calls, ∃ calls', history.foldlM l.runStep ([], calls) = .ok (s.executions, calls')
  /-- its chain was drawn -/
  stepsOf : w.workspace.stepsOf file name = w₀.workspace.stepsOf file name ++ s.edges
  /-- storing its state once more makes no difference -/
  stored : l.settings.persist = true →
    (w.store.save file name s.overall).2.load file name = w.store.load file name

namespace Reflects

variable {l : Ledger} {file name : String} {w₀ w : World}
  {history : List (NodeId × List String)} {f : FileState} {s : Session}

/-- A session that was just started reflects the empty history. -/
theorem of_start (hf : w₀.workspace.file? file = some f) (hfree : f.book.get? name = none) :
    l.Reflects file name w₀ (World.persist l file name .empty
      (w₀.withWorkspace (w₀.workspace.setFile file (f.withSession name w₀.now)))) []
      (.new name w₀.now) where
  session? := by
    rw [World.workspace_persist, Workspace.session?, World.withWorkspace,
      Workspace.file?_setFile_self]
    exact FileState.get?_withSession hfree w₀.now
  current := rfl
  path := rfl
  fresh calls := ⟨calls, rfl⟩
  stepsOf := by
    rw [World.workspace_persist, Workspace.stepsOf, World.withWorkspace,
      Workspace.file?_setFile_self, Workspace.stepsOf, hf]
    exact (List.append_nil _).symm
  stored hpersist := congrArg (Store.load · file name) (World.save_persist hpersist file name _ _)

/-- One more step, run on the state of the session, is one more step of the history. -/
theorem step (h : l.Reflects file name w₀ w history s) (hsteady : l.runner.IsSteady)
    (hf : w.workspace.file? file = some f) (hs : f.book.get? name = some s) {node : NodeId}
    {codes : List String} {r : RunResult} {calls : Nat}
    (hrun : l.runner.runAll codes s.overall w.calls = (.ok r, calls)) :
    l.Reflects file name w₀ (World.persist l file name r.state (World.withWorkspace
        { w with calls } (w.workspace.setFile file (f.withStep s (.ofRun node r) w.now))))
      (history ++ [(node, codes)]) (s.push (.ofRun node r) w.now) where
  session? := by
    rw [World.workspace_persist, Workspace.session?, World.withWorkspace,
      Workspace.file?_setFile_self]
    exact FileState.get?_withStep hs _ _
  current := s.current_push _ _
  path := by
    rw [Session.path_push, h.path, List.map_append]
    rfl
  fresh n := by
    -- the run gives the same whenever it begins
    obtain ⟨n', hfresh⟩ := h.fresh n
    have hsame := hsteady.runFrom codes (.start s.overall) n' w.calls
    rcases hagain : l.runner.runAll codes s.overall n' with ⟨outcome, n''⟩
    rw [Runner.runAll] at hrun hagain
    rw [hrun, hagain] at hsame
    obtain rfl : outcome = .ok r := hsame
    have hone : l.runStep (s.executions, n') (node, codes) =
        .ok (s.executions ++ [.ofRun node r], n'') := by
      rw [runStep, ← h.current, Runner.runAll, hagain]
    refine ⟨n'', ?_⟩
    rw [List.foldlM_append, hfresh]
    exact congrArg (· >>= pure) hone
  stepsOf := by
    have hid : s.id = name := (Book.exists_split hs).1
    rw [World.workspace_persist, Workspace.stepsOf, World.withWorkspace,
      Workspace.file?_setFile_self, Session.edges_push, ← List.append_assoc, ← h.stepsOf,
      Workspace.stepsOf, hf]
    exact (Session.stepsIn_append ..).trans (congrArg (_ ++ ·) (hid ▸ s.stepsIn_nextEdge node))
  stored hpersist := congrArg (Store.load · file name) (World.save_persist hpersist file name _ _)

/-- Whatever spares the session changes none of this. -/
theorem spare {w' : World} (h : l.Reflects file name w₀ w history s)
    (hspares : World.Spares file name w w') : l.Reflects file name w₀ w' history s where
  session? := hspares.session?.trans h.session?
  current := h.current
  path := h.path
  fresh := h.fresh
  stepsOf := hspares.stepsOf.trans h.stepsOf
  stored hpersist := by rw [hspares.save, hspares.load, h.stored hpersist]

end Reflects

/-- However a session came to be, it is what a fresh run of its history gives. -/
theorem Grows.reflects {l : Ledger} (hsteady : l.runner.IsSteady) {file name : String}
    {w₀ w : World} {history : List (NodeId × List String)}
    (h : Grows l file name w₀ w history) : ∃ s, l.Reflects file name w₀ w history s := by
  induction h with
  | start h =>
    rcases World.start_cases l file name w₀ with ⟨-, heq⟩ | ⟨f, -, -, heq⟩ | ⟨f, hf, hfree, heq⟩ <;>
      cases heq.symm.trans h
    exact ⟨_, .of_start hf hfree⟩
  | @step w _ _ node _ _ _ hsteps h ih =>
    obtain ⟨s, hs⟩ := ih
    obtain ⟨f, hf, hget⟩ := Option.bind_eq_some_iff.mp hs.session?
    rcases l.executeNode_cases hf hget node with ⟨-, heq⟩ | ⟨_, b, calls, -, -, heq⟩ |
      ⟨codes', r, calls, hsteps', hrun, heq⟩ <;> cases heq.symm.trans h
    cases hsteps'.symm.trans hsteps
    exact ⟨_, hs.step hsteady hf hget hrun⟩
  | @pass w _ _ node _ _ h hnone ih =>
    obtain ⟨s, hs⟩ := ih
    obtain ⟨f, hf, hget⟩ := Option.bind_eq_some_iff.mp hs.session?
    rcases l.executeNode_cases hf hget node with ⟨-, heq⟩ | ⟨_, b, calls, -, -, heq⟩ |
      ⟨_, r, calls, -, -, heq⟩ <;> cases heq.symm.trans h
    · exact ⟨s, hs⟩
    · exact ⟨s, hs.spare ⟨rfl, rfl, rfl, fun _ => rfl⟩⟩
    · exact absurd rfl (hnone _)
  | other _ h ih =>
    obtain ⟨s, hs⟩ := ih
    exact ⟨s, hs.spare h⟩

/-- A session can only be started under a free name. -/
theorem Grows.session?_eq_none {l : Ledger} {file name : String} {w₀ w : World}
    {history : List (NodeId × List String)} (h : Grows l file name w₀ w history) :
    w₀.workspace.session? file name = none := by
  induction h with
  | start h =>
    rcases World.start_cases l file name w₀ with ⟨-, heq⟩ | ⟨f, -, -, heq⟩ | ⟨f, hf, hfree, heq⟩ <;>
      cases heq.symm.trans h
    rw [Workspace.session?, hf]
    exact hfree
  | step _ _ _ ih => exact ih
  | pass _ _ _ ih => exact ih
  | other _ _ ih => exact ih

/-- Running a path grows the session. -/
theorem Grows.runPath {l : Ledger} {file name : String} {w₀ : World} (path : List NodeId) :
    ∀ {w : World} {history : List (NodeId × List String)}, Grows l file name w₀ w history →
      ∃ history', Grows l file name w₀ (l.runPath file name w path).2 history' := by
  induction path with
  | nil => exact fun h => ⟨_, h⟩
  | cons node rest ih =>
    intro w history h
    rw [Ledger.runPath]
    rcases hone : l.executeNode file name node w with ⟨fault | e, w'⟩
    · exact ⟨history, h.pass hone (by rintro _ ⟨⟩)⟩
    · cases e with
      | none => exact ih (h.pass hone (by rintro _ ⟨⟩))
      | some e =>
        -- only a node that means some code is recorded
        cases hsteps : w.workspace.steps? file node with
        | none =>
          rw [executeNode, hsteps] at hone
          cases hone
        | some codes => exact ih (h.step hsteps hone)

/-- **Running anew is running step by step.** Take a steady runner and a session that was started
and in which nodes were run, one by one or along a path, while all sorts of other things were done
that spare the session. If each of its nodes means the code that it meant when it ran, then running
the session anew goes through, and its executions, its state, its chain and what is stored for it
stay as they are. -/
theorem replay_grown (l : Ledger) (hsteady : l.runner.IsSteady) (file name : String)
    (w₀ : World) :
    (∀ (w : World) (history : List (NodeId × List String)), Grows l file name w₀ w history →
      (∀ step ∈ history, w.workspace.steps? file step.1 = some step.2) →
      ∃ s s' w', w.workspace.session? file name = some s ∧ s.path = history.map Prod.fst ∧
        l.replay file name w = (.ok s.length, w') ∧
        w'.workspace.session? file name = some s' ∧ s'.executions = s.executions ∧
        s'.overall = s.overall ∧ w'.workspace.stepsOf file name = s.edges ∧
        w.workspace.stepsOf file name = w₀.workspace.stepsOf file name ++ s.edges ∧
        (∀ (v : Workspace) (g : Graph) (b : Book) (us : List (String × Update)),
          w₀.workspace = (v.insertFile file g b).after us →
          w'.workspace.stepsOf file name = w.workspace.stepsOf file name) ∧
        w'.store.load file name = w.store.load file name) ∧
      ∀ (s : Session) (w : World), w₀.start l file name = (.ok s, w) →
        ∀ path, ∃ history, Grows l file name w₀ (l.branch file name path w₀).2 history := by
  constructor
  · intro w history hgrows hsteps
    obtain ⟨s, h⟩ := hgrows.reflects hsteady
    obtain ⟨calls, hfresh⟩ := h.fresh w.calls
    rw [← foldlM_runStep l w.workspace file history hsteps, ← h.path] at hfresh
    obtain ⟨f, pre, post, s', w', hf, hsplit, hfirst, rfl, hexecutions, hcurrent, hstore, happly,
      hreplay⟩ := replay_of_ok h.session? hfresh
    have hoverall : s'.overall = s.overall := by rw [hcurrent, hexecutions, h.current]
    have hid : s.id = s'.id := by
      obtain ⟨f, -, hget⟩ := Option.bind_eq_some_iff.mp h.session?
      exact (Book.exists_split hget).1
    -- the chain that is redrawn is the one that was drawn edge by edge
    have hchain : s'.edges = s.edges := by
      rw [Session.edges, Session.edges, Session.path, Session.path, hexecutions, hid]
    have hsteps' : ((Update.commitReplay s').apply file w.workspace).stepsOf file s'.id =
        s.edges := by
      rw [happly, Workspace.stepsOf, Workspace.file?_setFile_self]
      exact (s'.stepsIn_rebuildEdges f.graph.edges).trans hchain
    refine ⟨s, s', _, h.session?, h.path, hreplay, ?_, hexecutions, hoverall, ?_, h.stepsOf, ?_, ?_⟩
    · rw [World.workspace_persist]
      simp only [happly]
      rw [Workspace.session?, Workspace.file?_setFile_self]
      exact Book.get?_of_first hfirst rfl
    · rw [World.workspace_persist]
      exact hsteps'
    · intro v g b us hloaded
      have hnone : w₀.workspace.stepsOf file s'.id = [] := by
        rw [hloaded]
        exact Workspace.stepsOf_after v file g b us (hloaded ▸ hgrows.session?_eq_none)
      rw [World.workspace_persist, hsteps', h.stepsOf, hnone, List.nil_append]
    · rw [World.store_persist, hoverall]
      simp only [hstore]
      split
      · exact h.stored ‹_›
      · rfl
  · intro s w hstart path
    obtain ⟨history, h⟩ := Grows.runPath path (.start hstart)
    refine ⟨history, ?_⟩
    rw [branch, hstart]
    simp only
    rcases hrun : l.runPath file name w path with ⟨fault | u, w'⟩
    · rw [hrun] at h
      exact h
    · rw [hrun] at h
      exact h

/-- A file with a node that has code, and one that runs a session in which the other ran twice. -/
def pairPage : World :=
  { World.initial default with
    workspace := Workspace.empty.insertFile "f"
      { Graph.empty with nodes := [{ Node.new "a" .fragment with code := some "x" },
        .graphRef "g" ⟨"f", "lib"⟩] }
      ⟨[Workspace.idleSession "lib" ["a", "a"]], some "lib"⟩ }

/-- A session was started and has run two pieces of code as one step. -/
def pairRan : World := (echoing.executeNode "f" "s" "g" (pairPage.start echoing "f" "s").2).2

/-- Somebody else starts a session before the next step. -/
def pairDone : World := (echoing.executeNode "f" "s" "a" (pairRan.start echoing "f" "t").2).2

theorem grows_pairDone :
    Grows echoing "f" "s" pairPage pairDone [("g", ["x", "x"]), ("a", ["x"])] := by
  have hfirst : (pairPage.start echoing "f" "s").2.workspace.steps? "f" "g" = some ["x", "x"] := by
    decide +kernel
  have hsecond : (pairRan.start echoing "f" "t").2.workspace.steps? "f" "a" = some ["x"] := by
    decide +kernel
  obtain ⟨e, hran⟩ : ∃ e, echoing.executeNode "f" "s" "g" (pairPage.start echoing "f" "s").2 =
      (.ok (some e), pairRan) := by
    rw [pairRan, executeNode, hfirst]
    exact ⟨_, rfl⟩
  obtain ⟨e', hdone⟩ : ∃ e', echoing.executeNode "f" "s" "a" (pairRan.start echoing "f" "t").2 =
      (.ok (some e'), pairDone) := by
    rw [pairDone, executeNode, hsecond, pairRan, executeNode, hfirst]
    exact ⟨_, rfl⟩
  obtain ⟨m, hm⟩ : ∃ m, pairRan.store = .memory m := by
    rw [pairRan, executeNode, hfirst]
    exact ⟨_, rfl⟩
  have hstore : (pairRan.start echoing "f" "t").2.store =
      (pairRan.store.save "f" "t" .empty).2 := by
    rw [pairRan, executeNode, hfirst]
    rfl
  have hspares : World.Spares "f" "s" pairRan (pairRan.start echoing "f" "t").2 := by
    refine World.spares_of_memory hm (by decide) hstore ?_ ?_ <;>
      · rw [pairRan, executeNode, hfirst]
        rfl
  exact .step (.other (.step (.start rfl) hfirst hran) hspares) hsecond hdone

theorem replay_grown_pairDone :
    echoing.runner.IsSteady ∧
      Grows echoing "f" "s" pairPage pairDone [("g", ["x", "x"]), ("a", ["x"])] ∧
      (∀ step ∈ [("g", ["x", "x"]), ("a", ["x"])],
        pairDone.workspace.steps? "f" step.1 = some step.2) ∧
      ∃ s s' w', pairDone.workspace.session? "f" "s" = some s ∧ s.path = ["g", "a"] ∧
        echoing.replay "f" "s" pairDone = (.ok s.length, w') ∧
        w'.workspace.session? "f" "s" = some s' ∧ s'.executions = s.executions ∧
        s'.overall = s.overall ∧
        w'.workspace.stepsOf "f" "s" = pairDone.workspace.stepsOf "f" "s" ∧
        w'.store.load "f" "s" = pairDone.store.load "f" "s" := by
  have hsteady : echoing.runner.IsSteady := fun _ _ => rfl
  have hsteps : ∀ step ∈ [("g", ["x", "x"]), ("a", ["x"])],
      pairDone.workspace.steps? "f" step.1 = some step.2 := by
    intro step hstep
    simp only [List.mem_cons, List.not_mem_nil, or_false] at hstep
    rcases hstep with rfl | rfl <;> decide +kernel
  obtain ⟨s, s', w', hs, hpath, hreplay, hs', hexecutions, hoverall, -, -, hunchanged, hload⟩ :=
    (replay_grown echoing hsteady "f" "s" pairPage).1 _ _ grows_pairDone hsteps
  exact ⟨hsteady, grows_pairDone, hsteps, s, s', w', hs, hpath, hreplay, hs', hexecutions,
    hoverall, hunchanged _ _ _ [] rfl, hload⟩

end Ledger

end Runbook
