import Runbook.Proofs.Expansion
import Runbook.Proofs.Replay

/-!
# Running a session anew twice

The first run may leave steps out, and graph nodes may refer to the very session that lost them. A
step is left out because its node means no code, so no other node means less without it; and what
is left runs as it ran before.

* `Runner.IsSteady`: a runner for which it makes no difference how often it was called
* `Session.undated`, `FileState.undated`: sessions but for the date of their last change
* `Ledger.path_of_foldlM_runNext`: the steps that are left
* `Ledger.runFresh_again`: they run as before
* `Ledger.replay_replay`: running a session anew once more changes nothing
-/

namespace Runbook

/-! ## Steady runners -/

/-- What the runner gives depends on the code and the prior state alone. -/
def Runner.IsSteady (runner : Runner) : Prop := ∀ n m, runner n = runner m

theorem Runner.IsSteady.runFrom {runner : Runner} (h : runner.IsSteady) (codes : List String) :
    ∀ (done : RunResult) (n m : Nat),
      (runner.runFrom codes done n).1 = (runner.runFrom codes done m).1 := by
  induction codes with
  | nil => exact fun _ _ _ => rfl
  | cons code rest ih =>
    intro done n m
    have hone : runner.runOne code done (n + 1) = runner.runOne code done (m + 1) := by
      rw [runOne, runOne, h (n + 1) (m + 1)]
    rw [runFrom_cons, runFrom_cons, hone]
    cases runner.runOne code done (m + 1) with
    | ok done => exact ih done _ _
    | error b => rfl

/-! ## Dates aside -/

/-- A session as if it had last changed when the clock was started. -/
def Session.undated (s : Session) : Session := { s with lastUpdate := Clock.now ⟨0⟩ }

/-- A file that does not tell when its sessions last changed. -/
def FileState.undated (f : FileState) : FileState :=
  { f with book := { f.book with sessions := f.book.sessions.map Session.undated } }

theorem Session.undated_eq_iff {s t : Session} : s.undated = t.undated ↔
    s.id = t.id ∧ s.executions = t.executions ∧ s.overall = t.overall := by
  simp [undated]

/-- A session put in the place of one that differs in the date alone makes no other difference. -/
theorem FileState.undated_putBack {f : FileState} {s t : Session} {pre post : List Session}
    (h : t.undated = s.undated) (hsplit : f.book.sessions = pre ++ s :: post)
    (hprimary : f.book.primary = some s.id)
    (hedges : ∃ es, f.graph.edges = s.rebuildEdges es) :
    undated {
      graph := { f.graph with edges := t.rebuildEdges f.graph.edges }
      book := ⟨pre ++ t :: post, some s.id⟩ } = f.undated := by
  obtain ⟨es, hes⟩ := hedges
  obtain ⟨hid, hexecutions, -⟩ := Session.undated_eq_iff.mp h
  have hsame : t.rebuildEdges es = s.rebuildEdges es := by
    rw [Session.rebuildEdges, Session.rebuildEdges, Session.edges, Session.edges, Session.path,
      Session.path, hid, hexecutions]
  have hredrawn : t.rebuildEdges f.graph.edges = f.graph.edges := by
    calc t.rebuildEdges f.graph.edges
      _ = t.rebuildEdges es := by rw [hes, Session.rebuildEdges_rebuildEdges hid]
      _ = s.rebuildEdges es := hsame
      _ = f.graph.edges := hes.symm
  have hsessions : (pre ++ t :: post).map Session.undated =
      f.book.sessions.map Session.undated := by
    rw [hsplit, List.map_append, List.map_append, List.map_cons, List.map_cons, h]
  rw [undated, undated, hredrawn, hsessions, ← hprimary]

namespace Ledger

variable {l : Ledger} {w w' : Workspace} {file : String}

/-! ## Fresh runs once more -/

/-- A fresh run leaves out the nodes that mean no code, and no others. -/
theorem path_of_foldlM_runNext (path : List NodeId) : ∀ {done done' : List Execution × Nat},
    path.foldlM (l.runNext w file) done = .ok done' →
      done'.1.map Execution.node =
        done.1.map Execution.node ++ path.filter fun node => (w.steps? file node).isSome := by
  induction path with
  | nil =>
    rintro done done' ⟨⟩
    rw [List.filter_nil, List.append_nil]
  | cons node rest ih =>
    intro done done' h
    rw [List.foldlM_cons] at h
    cases hsteps : w.steps? file node with
    | none =>
      rw [runNext_none hsteps] at h
      rw [List.filter_cons_of_neg (by simp [hsteps])]
      exact ih h
    | some codes =>
      rw [runNext_some hsteps] at h
      rcases hrun : l.runner.runAll codes (Session.lastState done.1) done.2 with ⟨b | r, calls⟩
      · rw [hrun] at h
        cases h
      · rw [hrun] at h
        have hnode : (Execution.ofRun node r).node = node := rfl
        rw [ih h, List.filter_cons_of_pos (by simp [hsteps]), List.map_append, List.map_singleton,
          hnode, List.append_assoc, List.singleton_append]

/-- Running the nodes that mean code gives what running all of them gives. -/
theorem foldlM_runNext_filter (path : List NodeId) : ∀ (done : List Execution × Nat),
    (path.filter fun node => (w.steps? file node).isSome).foldlM (l.runNext w file) done =
      path.foldlM (l.runNext w file) done := by
  induction path with
  | nil => exact fun _ => rfl
  | cons node rest ih =>
    intro done
    cases hsteps : w.steps? file node with
    | none =>
      rw [List.filter_cons_of_neg (by simp [hsteps]), List.foldlM_cons, runNext_none hsteps]
      exact ih done
    | some codes =>
      rw [List.filter_cons_of_pos (by simp [hsteps]), List.foldlM_cons, List.foldlM_cons]
      exact congrArg (l.runNext w file done node >>= ·) (funext ih)

/-- A steady runner gives the same whenever the run begins. -/
theorem foldlM_runNext_calls (hsteady : l.runner.IsSteady) (path : List NodeId) :
    ∀ (es : List Execution) (n m : Nat),
      (path.foldlM (l.runNext w file) (es, n)).map Prod.fst =
        (path.foldlM (l.runNext w file) (es, m)).map Prod.fst := by
  induction path with
  | nil => exact fun _ _ _ => rfl
  | cons node rest ih =>
    intro es n m
    rw [List.foldlM_cons, List.foldlM_cons]
    cases hsteps : w.steps? file node with
    | none =>
      rw [runNext_none hsteps, runNext_none hsteps]
      exact ih es n m
    | some codes =>
      rw [runNext_some hsteps, runNext_some hsteps]
      have hsame := hsteady.runFrom codes (.start (Session.lastState es)) n m
      rcases hn : l.runner.runAll codes (Session.lastState es) n with ⟨outcome, n'⟩
      rcases hm : l.runner.runAll codes (Session.lastState es) m with ⟨outcome', m'⟩
      rw [Runner.runAll] at hn hm
      rw [hn, hm] at hsame
      obtain rfl : outcome = outcome' := hsame
      cases outcome with
      | error b => rfl
      | ok r => exact ih _ n' m'

/-- The nodes that a fresh run went through give the same when they are run once more, as long as
the nodes mean what they meant. -/
theorem runFresh_again (hsteady : l.runner.IsSteady)
    (hsteps : ∀ node, w'.steps? file node = w.steps? file node) {path : List NodeId}
    {calls : Nat} {done : List Execution × Nat} (h : l.runFresh w file calls path = .ok done)
    (calls' : Nat) :
    ∃ done', l.runFresh w' file calls' (done.1.map Execution.node) = .ok done' ∧
      done'.1 = done.1 := by
  have hnext : l.runNext w' file = l.runNext w file := by
    funext done node
    rw [runNext, runNext, hsteps]
  have hpath : done.1.map Execution.node =
      path.filter fun node => (w.steps? file node).isSome := path_of_foldlM_runNext path h
  have hagain : (l.runFresh w' file calls' (done.1.map Execution.node)).map Prod.fst =
      .ok done.1 := by
    rw [runFresh, hnext, hpath, foldlM_runNext_filter, foldlM_runNext_calls hsteady path [] _ calls]
    exact congrArg (Except.map Prod.fst) h
  rcases hrun : l.runFresh w' file calls' (done.1.map Execution.node) with b | done'
  · rw [hrun] at hagain
    cases hagain
  · rw [hrun] at hagain
    exact ⟨done', rfl, Except.ok.inj hagain⟩

/-! ## Two replays -/

/-- Putting the outcome of a fresh run in place changes the meaning of no node. -/
theorem thins_commitReplay {f : FileState} {s s' : Session} {pre post : List Session}
    {primary : Option String} (hf : w.file? file = some f)
    (hfirst : ∀ t ∈ pre, t.id ≠ s'.id) (hs : w.session? file s'.id = some s)
    (hpath : s'.path = s.path.filter fun node => (w.steps? file node).isSome)
    (happly : (Update.commitReplay s').apply file w = w.setFile file {
      graph := { f.graph with edges := s'.rebuildEdges f.graph.edges }
      book := ⟨pre ++ s' :: post, primary⟩ }) :
    ((Update.commitReplay s').apply file w).Thins w where
  node? other node := by
    rw [happly, Workspace.node?, Workspace.node?]
    by_cases hfile : other = file
    · rw [hfile, Workspace.file?_setFile_self, hf]
      rfl
    · rw [Workspace.file?_setFile_of_ne _ _ hfile]
  path other name := by
    by_cases hkey : other = file ∧ name = s'.id
    · right
      rw [hkey.1, hkey.2, hs, happly, Workspace.session?, Workspace.file?_setFile_self,
        Option.bind_some, Book.get?_of_first hfirst rfl, Option.map_some, Option.map_some, hpath]
    · left
      have hedges : ∀ id now, Update.commitReplay s' ≠ .removeEdge id now := by rintro _ _ ⟨⟩
      rw [Workspace.session?_apply_of_not (fun id now hu => absurd hu (hedges id now))
        fun hfile habout => hkey ⟨hfile, Eq.symm habout⟩]

/-- **Running a session anew twice is running it anew once.** If it goes through with a runner for
which the number of the call makes no difference, then it goes through at once again, with as many
executions, and leaves all files as they were but for dates, and the store as it was. Nodes may be
missing, have no code, or refer to the session itself. -/
theorem replay_replay (l : Ledger) (hsteady : l.runner.IsSteady) (file session : String)
    {w w' : World} {n : Nat} (h : l.replay file session w = (.ok n, w')) :
    ∃ w'', l.replay file session w' = (.ok n, w'') ∧ w''.store = w'.store ∧
      ∀ other, (w''.workspace.file? other).map FileState.undated =
        (w'.workspace.file? other).map FileState.undated := by
  cases hs : w.workspace.session? file session with
  | none =>
    have hsame : l.replay file session w = (.ok 0, w) := by rw [replay, hs]
    cases hsame.symm.trans h
    exact ⟨w, h, rfl, fun _ => rfl⟩
  | some s =>
    cases hfresh : l.runFresh w.workspace file w.calls s.path with
    | error b =>
      have hfault := (replay_of_error hs hfresh).1
      rw [h] at hfault
      cases hfault
    | ok done =>
      obtain ⟨f, pre, post, s', w₁, hf, hsplit, hfirst, rfl, hexecutions, hcurrent, -, happly,
        hreplay⟩ := replay_of_ok hs hfresh
      cases hreplay.symm.trans h
      have hpath : s'.path = s.path.filter fun node => (w.workspace.steps? file node).isSome := by
        rw [Session.path, hexecutions]
        exact path_of_foldlM_runNext s.path hfresh
      have hthins := thins_commitReplay hf hfirst hs hpath happly
      generalize hw' : World.persist l file s'.id s'.overall
        { w₁ with workspace := (Update.commitReplay s').apply file w.workspace } = w' at *
      have hworkspace : w'.workspace = (Update.commitReplay s').apply file w.workspace := by
        rw [← hw', World.workspace_persist]
      have hs' : w'.workspace.session? file s'.id = some s' := by
        rw [hworkspace, happly, Workspace.session?, Workspace.file?_setFile_self]
        exact Book.get?_of_first hfirst rfl
      -- the second run goes through the steps that the first one left
      have hmeant : ∀ node, w'.workspace.steps? file node = w.workspace.steps? file node :=
        fun node => hworkspace ▸ hthins.steps?_eq file node
      obtain ⟨done', hfresh', hsame⟩ := runFresh_again hsteady hmeant hfresh w'.calls
      rw [← hexecutions] at hfresh'
      obtain ⟨f₂, pre₂, post₂, s₂, w₂, hf₂, hsplit₂, -, hid₂, hexecutions₂, hcurrent₂, hstore₂,
        happly₂, hreplay₂⟩ := replay_of_ok hs' hfresh'
      have hexecutions' : s₂.executions = s'.executions := by
        rw [hexecutions₂, hexecutions, hsame]
      have hoverall : s₂.overall = s'.overall := by rw [hcurrent₂, hcurrent, hexecutions']
      have hundated := Session.undated_eq_iff.mpr ⟨hid₂, hexecutions', hoverall⟩
      refine ⟨_, by rw [hreplay₂, hsame], ?_, fun other => ?_⟩
      · -- the state is the same, and it was stored before
        rw [World.store_persist, hoverall]
        simp only [hstore₂]
        rw [← hw', World.store_persist]
        split
        · rw [Store.save_save]
        · rfl
      · rw [World.workspace_persist]
        simp only [happly₂]
        by_cases hfile : other = file
        · obtain rfl : f₂ = _ := Option.some.inj (hf₂.symm.trans
            (by rw [hworkspace, happly, Workspace.file?_setFile_self]))
          rw [hfile, Workspace.file?_setFile_self, hf₂, Option.map_some, Option.map_some]
          exact congrArg some (FileState.undated_putBack hundated hsplit₂ rfl ⟨_, rfl⟩)
        · rw [Workspace.file?_setFile_of_ne _ _ hfile]

/-- A runner that prints the code and puts it among the variables. -/
def echoing : Ledger where
  runner _ code prior :=
    .ok { stdout := code, stderr := "", state := prior.insert code .null trivial, time := .zero }
  settings := {}

/-- A file with a node that has code, one that has none and one that runs the file's session, which
ran all three, and one that is gone. -/
def roundPage : World :=
  { World.initial default with
    workspace := Workspace.empty.insertFile "f"
      { Graph.empty with nodes := [{ Node.new "a" .fragment with code := some "x" },
        .new "b" .fragment, .graphRef "g" ⟨"f", "s"⟩] }
      ⟨[Workspace.idleSession "s" ["a", "b", "g", "z"]], some "s"⟩ }

/-- Two steps of four are left out, and the node that runs the session means the same without
them. -/
theorem replay_replay_roundPage :
    echoing.runner.IsSteady ∧ ∃ w' w'', echoing.replay "f" "s" roundPage = (.ok 2, w') ∧
      echoing.replay "f" "s" w' = (.ok 2, w'') ∧ w''.store = w'.store ∧
      ∀ other, (w''.workspace.file? other).map FileState.undated =
        (w'.workspace.file? other).map FileState.undated := by
  have hsteady : echoing.runner.IsSteady := fun _ _ => rfl
  have hfirst : echoing.replay "f" "s" roundPage =
      (.ok 2, (echoing.replay "f" "s" roundPage).2) := Prod.ext (by decide +kernel) rfl
  obtain ⟨w'', h⟩ := replay_replay echoing hsteady "f" "s" hfirst
  exact ⟨hsteady, _, w'', hfirst, h⟩

end Ledger

end Runbook
