import Runbook.Ledger
import Runbook.Proofs.Frames
import Runbook.Proofs.Stores
import Runbook.Proofs.Worlds

/-!
# Running a session anew

When a session is run anew, its path is run from the empty state on, and only when all of it has
run does the outcome take the old history's place.

* `Ledger.runNext`, `Ledger.runFresh`: the fold over a path that says what a fresh run gives
* `Ledger.replayPath_eq`: running a path anew is that fold, and touches nothing
* `Ledger.commitReplay_eq`: what putting the outcome in place does to the file
* `Ledger.replay_all_or_nothing`: all that running a session anew can do
-/

namespace Runbook

/-- Only nodes that are there mean code. -/
theorem Workspace.hasNode_of_steps? {w : Workspace} {file : String} {node : NodeId}
    (h : w.steps? file node ≠ none) : ∃ f, w.file? file = some f ∧ f.graph.hasNode node = true := by
  cases hnode : w.node? file node with
  | none =>
    rw [steps?, expand, hnode] at h
    exact absurd rfl h
  | some n =>
    obtain ⟨f, hf, hn⟩ := Option.bind_eq_some_iff.mp hnode
    exact ⟨f, hf, by rw [Graph.hasNode, hn]; rfl⟩

/-- A node that refers to no session means its own code. -/
theorem Workspace.steps?_of_code {w : Workspace} {file : String} {node : NodeId} {n : Node}
    {code : String} (hnode : w.node? file node = some n) (hgraph : n.graph = none)
    (hcode : n.executionCode = some code) : w.steps? file node = some [code] := by
  rw [steps?, expand, hnode]
  simp only [hgraph, hcode]
  rfl

namespace Ledger

/-! ## Fresh runs -/

/-- One more node of a fresh run, after some executions and runner calls. A node that means no
code is left out; any other runs on the state that the last execution left. -/
def runNext (l : Ledger) (w : Workspace) (file : String) (done : List Execution × Nat)
    (node : NodeId) : Except Breakdown (List Execution × Nat) :=
  match w.steps? file node with
  | none => .ok done
  | some codes =>
    match l.runner.runAll codes (Session.lastState done.1) done.2 with
    | (.ok r, calls) => .ok (done.1 ++ [.ofRun node r], calls)
    | (.error b, _) => .error b

/-- The executions that a path gives when it is run from the empty state on, and the number of
runner calls after that. -/
def runFresh (l : Ledger) (w : Workspace) (file : String) (calls : Nat) (path : List NodeId) :
    Except Breakdown (List Execution × Nat) :=
  path.foldlM (l.runNext w file) ([], calls)

theorem run_eq (l : Ledger) (codes : List String) (prior : Snapshot) (w : World) :
    l.run codes prior w = ((l.runner.runAll codes prior w.calls).1.mapError Breakdown.fault,
      { w with calls := (l.runner.runAll codes prior w.calls).2 }) := rfl

theorem runNext_none {l : Ledger} {w : Workspace} {file : String} {node : NodeId}
    (h : w.steps? file node = none) (done : List Execution × Nat) :
    l.runNext w file done node = .ok done := by
  rw [runNext, h]

theorem runNext_some {l : Ledger} {w : Workspace} {file : String} {node : NodeId}
    {codes : List String} (h : w.steps? file node = some codes) (done : List Execution × Nat) :
    l.runNext w file done node =
      match l.runner.runAll codes (Session.lastState done.1) done.2 with
      | (.ok r, calls) => .ok (done.1 ++ [.ofRun node r], calls)
      | (.error b, _) => .error b := by
  rw [runNext, h]

/-- Only nodes that are there are run. -/
theorem hasNode_of_foldlM_runNext {l : Ledger} {w : Workspace} {file : String}
    (path : List NodeId) : ∀ {done done' : List Execution × Nat},
      path.foldlM (l.runNext w file) done = .ok done' →
      ∀ e ∈ done'.1, e ∈ done.1 ∨ w.steps? file e.node ≠ none := by
  induction path with
  | nil =>
    intro done done' h e he
    cases h
    exact .inl he
  | cons node rest ih =>
    intro done done' h e he
    rw [List.foldlM_cons] at h
    cases hsteps : w.steps? file node with
    | none =>
      rw [runNext_none hsteps] at h
      exact ih h e he
    | some codes =>
      rw [runNext_some hsteps] at h
      rcases hrun : l.runner.runAll codes (Session.lastState done.1) done.2 with ⟨b | r, calls⟩
      · rw [hrun] at h
        cases h
      · rw [hrun] at h
        rcases ih h e he with hold | hnew
        · rcases List.mem_append.mp hold with hold | hlast
          · exact .inl hold
          · -- the execution that was added is one of this node
            rw [List.mem_singleton.mp hlast]
            exact .inr fun hnone => nomatch hsteps.symm.trans hnone
        · exact .inr hnew

/-- Running a path anew is the fold over its nodes, and touches neither the workspace nor the
store. -/
theorem replayPath_eq (l : Ledger) (file : String) (path : List NodeId) :
    ∀ (scratch : Session) (w : World), scratch.Current →
      (l.replayPath file scratch w path).2.workspace = w.workspace ∧
        (l.replayPath file scratch w path).2.store = w.store ∧
        match path.foldlM (l.runNext w.workspace file) (scratch.executions, w.calls) with
        | .error b => (l.replayPath file scratch w path).1 = .error b.fault
        | .ok done => ∃ s, (l.replayPath file scratch w path).1 = .ok s ∧ s.id = scratch.id ∧
            s.executions = done.1 ∧ s.Current := by
  induction path with
  | nil => exact fun scratch w h => ⟨rfl, rfl, scratch, rfl, rfl, rfl, h⟩
  | cons node rest ih =>
    intro scratch w h
    rw [replayPath, List.foldlM_cons]
    cases hsteps : w.workspace.steps? file node with
    | none =>
      rw [runNext_none hsteps]
      exact ih scratch w h
    | some codes =>
      rw [runNext_some hsteps, ← h]
      -- what is run anew is current, so its overall state is the one the fold goes on from
      simp only [run_eq]
      rcases hrun : l.runner.runAll codes scratch.overall w.calls with ⟨b | r, calls⟩
      · exact ⟨rfl, rfl, rfl⟩
      · exact ih _ _ (scratch.current_push _ _)

/-! ## Putting the outcome in place -/

/-- A session whose nodes are all there takes the place of the one of its name and becomes
primary, its chain is redrawn, and its state is stored. -/
theorem commitReplay_eq (l : Ledger) {file : String} {scratch s : Session} {w : World}
    {f : FileState} (hf : w.workspace.file? file = some f) (hs : f.book.get? scratch.id = some s)
    (hnodes : ∀ e ∈ scratch.executions, f.graph.hasNode e.node = true) :
    ∃ pre post, f.book.sessions = pre ++ s :: post ∧ (∀ t ∈ pre, t.id ≠ scratch.id) ∧
      (Update.commitReplay scratch).apply file w.workspace = w.workspace.setFile file {
        graph := { f.graph with edges := scratch.rebuildEdges f.graph.edges }
        book := ⟨pre ++ scratch :: post, some scratch.id⟩ } ∧
      w.commitReplay l file scratch = (scratch.length,
        World.persist l file scratch.id scratch.overall
          { w with workspace := (Update.commitReplay scratch).apply file w.workspace }) := by
  obtain ⟨-, pre, post, hsplit, hfirst, hreplace, -⟩ := Book.exists_split hs
  have hall : scratch.path.all f.graph.hasNode = true := by
    rw [List.all_eq_true]
    intro node hnode
    obtain ⟨e, he, rfl⟩ := List.mem_map.mp hnode
    exact hnodes e he
  have hcontains : f.book.contains scratch.id = true := by
    rw [Book.contains, hs]
    rfl
  have hbook : (f.book.replace scratch.id scratch).setPrimary scratch.id =
      ⟨pre ++ scratch :: post, some scratch.id⟩ := by
    rw [Book.setPrimary, Book.contains, Book.get?_replace_self hs rfl, Book.replace, hreplace]
    rfl
  have hcommit : w.workspace.commitReplay? file scratch = some (w.workspace.setFile file {
      graph := { f.graph with edges := scratch.rebuildEdges f.graph.edges }
      book := ⟨pre ++ scratch :: post, some scratch.id⟩ }) := by
    rw [Workspace.commitReplay?, Workspace.update?, hf, Option.bind_some, FileState.commitReplay?,
      hall, hcontains, hbook]
    rfl
  have happly := congrArg (·.getD w.workspace) hcommit
  refine ⟨pre, post, hsplit, hfirst, happly, ?_⟩
  rw [World.commitReplay, Update.apply, hcommit, Option.getD_some]

/-! ## Whole replays -/

/-- A fresh run that breaks down leaves the workspace and the store as they were. -/
theorem replay_of_error {l : Ledger} {file session : String} {w : World} {s : Session}
    {b : Breakdown} (hs : w.workspace.session? file session = some s)
    (hfresh : l.runFresh w.workspace file w.calls s.path = .error b) :
    (l.replay file session w).1 = .error b.fault ∧
      (l.replay file session w).2.workspace = w.workspace ∧
      (l.replay file session w).2.store = w.store := by
  obtain ⟨hworkspace, hstore, hpath⟩ :=
    l.replayPath_eq file s.path (.new session w.now) w.tick rfl
  have hrun : s.path.foldlM (l.runNext w.tick.workspace file)
      ((Session.new session w.now).executions, w.tick.calls) = .error b := hfresh
  rw [hrun] at hpath
  rw [replay, hs]
  simp only
  rcases hout : l.replayPath file (.new session w.now) w.tick s.path with ⟨outcome, w'⟩
  rw [hout] at hpath hworkspace hstore
  obtain rfl : outcome = .error b.fault := hpath
  exact ⟨rfl, hworkspace, hstore⟩

/-- A fresh run that goes through is put in place: all its nodes are there. -/
theorem replay_of_ok {l : Ledger} {file session : String} {w : World} {s : Session}
    {done : List Execution × Nat} (hs : w.workspace.session? file session = some s)
    (hfresh : l.runFresh w.workspace file w.calls s.path = .ok done) :
    ∃ (f : FileState) (pre post : List Session) (s' : Session) (w' : World),
      w.workspace.file? file = some f ∧ f.book.sessions = pre ++ s :: post ∧
      (∀ t ∈ pre, t.id ≠ session) ∧
      s'.id = session ∧ s'.executions = done.1 ∧ s'.Current ∧ w'.store = w.store ∧
      (Update.commitReplay s').apply file w.workspace = w.workspace.setFile file {
        graph := { f.graph with edges := s'.rebuildEdges f.graph.edges }
        book := ⟨pre ++ s' :: post, some session⟩ } ∧
      l.replay file session w = (.ok done.1.length, World.persist l file session s'.overall
        { w' with workspace := (Update.commitReplay s').apply file w.workspace }) := by
  obtain ⟨hworkspace, hstore, hpath⟩ :=
    l.replayPath_eq file s.path (.new session w.now) w.tick rfl
  have hrun : s.path.foldlM (l.runNext w.tick.workspace file)
      ((Session.new session w.now).executions, w.tick.calls) = .ok done := hfresh
  rw [hrun] at hpath
  obtain ⟨s', hok, hid, hexecutions, hcurrent⟩ := hpath
  obtain ⟨f, hf, hget⟩ := Option.bind_eq_some_iff.mp hs
  rcases hout : l.replayPath file (.new session w.now) w.tick s.path with ⟨outcome, w'⟩
  rw [hout] at hok hworkspace hstore
  obtain rfl : outcome = .ok s' := hok
  have hname : s'.id = session := hid
  -- the graph is still the one whose nodes were run, so no node can have gone
  have hnodes : ∀ e ∈ s'.executions, f.graph.hasNode e.node = true := by
    intro e he
    rw [hexecutions] at he
    rcases hasNode_of_foldlM_runNext s.path hrun e he with hold | hnew
    · cases hold
    · obtain ⟨f', hf', hnode⟩ := Workspace.hasNode_of_steps? hnew
      obtain rfl : f' = f := Option.some.inj (hf'.symm.trans hf)
      exact hnode
  have hf' : w'.workspace.file? file = some f := by
    have hsame : w'.workspace = w.workspace := hworkspace
    rw [hsame, hf]
  obtain ⟨pre, post, hsplit, hfirst, happly, hcommit⟩ :=
    commitReplay_eq l hf' (hname.symm ▸ hget) hnodes
  have hsame : w'.workspace = w.workspace := hworkspace
  rw [hsame, hname] at happly
  refine ⟨f, pre, post, s', w', hf, hsplit, hname ▸ hfirst, hname, hexecutions, hcurrent, hstore,
    happly, ?_⟩
  rw [replay, hs]
  simp only [hout, hcommit, hsame, hname, Session.length, hexecutions]

/-- **Running a session anew is all or nothing.** It is the fresh run of the session's path. If
that breaks down anywhere, the workspace and the store are as before. Otherwise its executions
take the place of the old ones, the session's chain is redrawn and its new state stored, and all
other sessions, edges, nodes and files stay. -/
theorem replay_all_or_nothing (l : Ledger) (file session : String) (w : World) :
    match w.workspace.session? file session with
    | none => l.replay file session w = (.ok 0, w)
    | some s =>
      match l.runFresh w.workspace file w.calls s.path with
      | .error b =>
        (l.replay file session w).1 = .error b.fault ∧
          (l.replay file session w).2.workspace = w.workspace ∧
          (l.replay file session w).2.store = w.store
      | .ok (es, _) =>
        (l.replay file session w).1 = .ok es.length ∧ ∃ f f' pre post s',
          w.workspace.file? file = some f ∧
          (l.replay file session w).2.workspace.file? file = some f' ∧
          (∀ other, other ≠ file →
            (l.replay file session w).2.workspace.file? other = w.workspace.file? other) ∧
          f.book.sessions = pre ++ s :: post ∧ f'.book = ⟨pre ++ s' :: post, some session⟩ ∧
          f'.book.get? session = some s' ∧
          s'.executions = es ∧ s'.overall = Session.lastState es ∧
          f'.graph.nodes = f.graph.nodes ∧ f'.graph.metadata = f.graph.metadata ∧
          f'.graph.edges.filter (fun e => e.kind = .execution session) = s'.edges ∧
          f'.graph.edges.filter (fun e => e.kind ≠ .execution session) =
            f.graph.edges.filter (fun e => e.kind ≠ .execution session) ∧
          (l.settings.persist = false → (l.replay file session w).2.store = w.store) ∧
          (l.settings.persist = true →
            (l.replay file session w).2.store = (w.store.save file session s'.overall).2 ∧
            ((w.store.save file session s'.overall).1 = .ok () →
              (l.replay file session w).2.store.Holds file session s'.overall)) := by
  cases hs : w.workspace.session? file session with
  | none =>
    simp only
    rw [replay, hs]
  | some s =>
    simp only
    cases hfresh : l.runFresh w.workspace file w.calls s.path with
    | error b => exact replay_of_error hs hfresh
    | ok done =>
      obtain ⟨f, pre, post, s', w', hf, hsplit, hfirst, rfl, hexecutions, hcurrent, hstore,
        happly, hreplay⟩ := replay_of_ok hs hfresh
      simp only [hreplay, World.workspace_persist, happly]
      refine ⟨trivial, f, _, pre, post, s', hf, Workspace.file?_setFile_self .., ?_, hsplit, rfl,
        ?_, hexecutions, hexecutions ▸ hcurrent, rfl, rfl, ?_, ?_, ?_, ?_⟩
      · exact fun other hother => Workspace.file?_setFile_of_ne _ _ hother
      · exact Book.get?_of_first hfirst rfl
      · rw [← Session.stepsIn_rebuildEdges s' f.graph.edges, Session.stepsIn]
        exact List.filter_congr fun e _ => rfl
      · -- redrawing the chain moves no edge of another kind or session
        have hothers : ∀ es : List Edge, es.filter (fun e => e.kind ≠ .execution s'.id) =
            Session.otherEdges s'.id es := fun es => List.filter_congr fun e _ => decide_not
        rw [hothers, hothers, Session.otherEdges_rebuildEdges]
      · intro hpersist
        rw [World.store_persist, hpersist]
        exact hstore
      · intro hpersist
        rw [World.store_persist, hpersist]
        simp only [if_true, hstore]
        exact ⟨trivial, Store.holds_save⟩

end Ledger

end Runbook
