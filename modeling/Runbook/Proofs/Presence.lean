import Runbook.Proofs.Events
import Runbook.Proofs.Frames

/-!
# Steps lead to nodes that are there

A node may be deleted while calls run it, or run a session anew that ran it. What they gave is
recorded only if its nodes are still there then, and a node that goes takes its steps with it. So
the paths of all sessions lead through nodes of the graph, whatever calls and changes come between
one another.

* `FileState.Grounded`: the start and the nodes on all paths are in the graph
* `FileState.InStep.removeNode_eq`: what is left of the sessions when a node is deleted
* `Update.grounded_onFile`: kept by every update
* `Traffic.nodes_present`: from a file just loaded on, no path and no step leads to a node that is
  not there
-/

namespace Runbook

/-! ## Nodes of a graph -/

namespace Graph

theorem find?_eraseP_of_ne {nodes : List Node} {id other : NodeId} (h : other ≠ id) :
    (nodes.eraseP fun n => n.id = id).find? (fun n => n.id = other) =
      nodes.find? fun n => n.id = other := by
  induction nodes with
  | nil => rfl
  | cons n rest ih =>
    by_cases hn : n.id = id
    · simp [hn, h.symm]
    · simp [hn, List.find?_cons, ih]

/-- A node that is taken out leaves all others. -/
theorem hasNode_dropNode_of_ne (g : Graph) {id other : NodeId} (h : other ≠ id) :
    (g.dropNode id).hasNode other = g.hasNode other := by
  rw [hasNode, node?, findNode?, dropNode, find?_eraseP_of_ne h]
  rfl

/-- A node that is missing is added at the end. -/
theorem nodes_upsertNode_of_not {g : Graph} {n : Node} (h : g.hasNode n.id = false) :
    (g.upsertNode n).nodes = g.nodes ++ [n] := by
  have hnone : findNode? g.nodes n.id = none :=
    Option.isNone_iff_eq_none.mp (Option.isSome_eq_false_iff.mp h)
  rw [upsertNode, upsert, hnone]
  rfl

/-- A node that is missing is there once it is added. -/
theorem hasNode_upsertNode_of_not {g : Graph} {n : Node} (h : g.hasNode n.id = false) :
    (g.upsertNode n).hasNode n.id = true := by
  rw [hasNode, node?, findNode?, nodes_upsertNode_of_not h, List.find?_append, Option.isSome_or]
  simp

end Graph

/-! ## Files -/

namespace FileState

/-- The start and the nodes on the paths of all sessions are in the graph. -/
structure Grounded (f : FileState) : Prop where
  /-- the start is there -/
  start : f.graph.hasNode startId = true
  /-- the nodes of all paths are there -/
  path : ∀ s ∈ f.book.sessions, ∀ node ∈ s.path, f.graph.hasNode node = true

/-- A file loaded without sessions has at least the start. -/
theorem grounded_load (g : Graph) : (load g .empty).Grounded where
  start := by
    show (if g.hasNode startId then g else g.upsertNode .start).hasNode startId = true
    split
    · assumption
    · exact Graph.hasNode_upsertNode_of_not (n := .start) (Bool.eq_false_iff.mpr ‹_›)
  path s hs := absurd hs List.not_mem_nil

/-- As long as all nodes stay, only the paths that are new need to be looked at. -/
theorem Grounded.of_sessions {f f' : FileState} (h : f.Grounded)
    (hnodes : f'.graph.nodes = f.graph.nodes)
    (hpaths : ∀ s ∈ f'.book.sessions, s ∈ f.book.sessions ∨
      ∀ node ∈ s.path, f.graph.hasNode node = true) : f'.Grounded := by
  have hsame : ∀ node, f'.graph.hasNode node = f.graph.hasNode node := by
    intro node
    rw [Graph.hasNode, Graph.node?, hnodes]
    rfl
  refine ⟨hsame startId ▸ h.start, fun s hs node hnode => ?_⟩
  rw [hsame]
  rcases hpaths s hs with hold | hnew
  · exact h.path s hold node hnode
  · exact hnew node hnode

/-- When a node is deleted, every session that ran it loses its executions, and the graph loses the
node. -/
theorem InStep.removeNode_eq {f : FileState} (h : f.InStep) {node : NodeId}
    (hstart : node ≠ startId) (hnode : f.graph.hasNode node = true) (now : Instant) :
    (f.removeNode node now).2.graph.nodes = (f.graph.dropNode node).nodes ∧
      (f.removeNode node now).2.book.sessions =
        f.book.sessions.map fun s => if s.contains node then s.without node now else s := by
  have hall : Runbook.InStep ([] ++ f.book.sessions) f.graph.edges := h
  obtain ⟨es', hrun, -⟩ := Runbook.InStep.repair node now f.book.sessions hall
  rw [FileState.removeNode, if_neg (by simp [hstart, hnode])]
  simp only [hrun, Book.sessions_refreshPrimary]
  exact ⟨rfl, trivial⟩

theorem Grounded.removeNode {f : FileState} (h : f.Grounded) (hstep : f.InStep) (node : NodeId)
    (now : Instant) : (f.removeNode node now).2.Grounded := by
  by_cases hrefused : node = startId ∨ f.graph.hasNode node = false
  · rw [FileState.removeNode, if_pos (by rcases hrefused with h | h <;> simp [h])]
    exact h
  · obtain ⟨hstart, hnode⟩ := not_or.mp hrefused
    obtain ⟨hnodes, hsessions⟩ :=
      hstep.removeNode_eq hstart (Bool.not_eq_false _ ▸ hnode) now
    have hkept : ∀ other, other ≠ node →
        (f.removeNode node now).2.graph.hasNode other = f.graph.hasNode other := by
      intro other hne
      rw [← f.graph.hasNode_dropNode_of_ne hne, Graph.hasNode, Graph.node?, hnodes]
      rfl
    refine ⟨by rw [hkept startId (Ne.symm hstart)]; exact h.start, fun s hs other hother => ?_⟩
    rw [hsessions] at hs
    obtain ⟨t, ht, rfl⟩ := List.mem_map.mp hs
    -- what is left of a path is on the path, and the node itself is not
    have hpart : other ≠ node ∧ other ∈ t.path := by
      split at hother
      · refine ⟨fun heq => t.not_mem_path_without node now (heq ▸ hother), ?_⟩
        exact (List.filter_sublist.map Execution.node).subset hother
      · rename_i hnot
        refine ⟨?_, hother⟩
        rintro rfl
        exact hnot (List.contains_iff_mem.mpr hother)
    rw [hkept other hpart.1]
    exact h.path t ht other hpart.2

end FileState

/-- Every update keeps the paths in the graph: what is recorded is checked once more, and what is
deleted is taken out of all paths. -/
theorem Update.grounded_onFile (u : Update) (file : String) {f : FileState} (h : f.Grounded)
    (hstep : f.InStep) : (u.onFile file f).Grounded := by
  cases u with
  | start name now =>
    rw [onFile, Book.start]
    split
    · rename_i hstart
      split at hstart
      · cases hstart
      · cases hstart
        refine h.of_sessions rfl fun s hs => (List.mem_append.mp hs).imp_right fun hs => ?_
        rw [List.mem_singleton.mp hs]
        exact fun node hnode => absurd hnode List.not_mem_nil
    · exact h
  | commit session node r now =>
    rw [onFile]
    cases hcommit : f.commit? session node r now with
    | none => exact h
    | some p =>
      have hnode : f.graph.hasNode node = true := by
        rw [FileState.commit?] at hcommit
        split at hcommit
        · assumption
        · cases hcommit
      obtain ⟨s, hs, he, -, heq⟩ := FileState.commit?_eq_some hcommit
      rw [Option.map_some, Option.getD_some, heq]
      refine h.of_sessions rfl fun t ht => ?_
      rw [Book.sessions_setPrimary] at ht
      refine (Book.mem_replaceFirst ht).symm.imp_right ?_
      rintro rfl other hother
      rw [Session.path_push, he] at hother
      rcases List.mem_append.mp hother with hother | hother
      · exact h.path s (List.mem_of_find?_eq_some hs) other hother
      · rw [List.mem_singleton.mp hother]
        exact hnode
  | commitReplay scratch =>
    rw [onFile]
    cases hcommit : f.commitReplay? scratch with
    | none => exact h
    | some f' =>
      have hall : ∀ node ∈ scratch.path, f.graph.hasNode node = true := by
        rw [FileState.commitReplay?] at hcommit
        split at hcommit
        · rename_i hcond
          exact List.all_eq_true.mp (Bool.and_eq_true _ _ ▸ hcond).1
        · cases hcommit
      obtain ⟨-, -, rfl⟩ := FileState.commitReplay?_eq_some hcommit
      refine h.of_sessions rfl fun t ht => ?_
      rw [Option.getD_some, Book.sessions_setPrimary] at ht
      refine (Book.mem_replaceFirst ht).symm.imp_right ?_
      rintro rfl
      exact hall
  | removeEdge id now =>
    rw [onFile]
    rcases f.removeEdge_cases id now with heq | ⟨_, _, -, -, heq⟩ |
      ⟨_, s, position, x, rest, -, -, hs, hat, heq⟩
    · rw [heq]
      exact h
    · rw [heq]
      exact h.of_sessions rfl fun _ ht => .inl ht
    · rw [heq]
      refine h.of_sessions rfl fun t ht => ?_
      rw [Book.sessions_refreshPrimary] at ht
      refine (Book.mem_replaceFirst ht).symm.imp_right ?_
      rintro rfl node hnode
      obtain ⟨-, -, rfl⟩ := Session.removeAt?_eq_some.mp hat
      exact h.path s (List.mem_of_find?_eq_some hs) node
        (((List.eraseIdx_sublist ..).map Execution.node).subset hnode)
  | removeNode node now => exact h.removeNode hstep node now
  | removeSession name =>
    rw [onFile]
    cases hremove : f.removeSession? name with
    | none => exact h
    | some p =>
      obtain ⟨q, hq, rfl⟩ := Option.map_eq_some_iff.mp hremove
      obtain ⟨s, -, rfl⟩ := Option.map_eq_some_iff.mp hq
      exact h.of_sessions rfl fun t ht => .inl (List.mem_of_mem_eraseP ht)
  | refresh => exact h.of_sessions rfl fun _ ht => .inl ht

/-! ## Any events -/

namespace Ledger

namespace Traffic

/-- **No step leads nowhere.** Whatever is under way when a file is loaded without sessions, as long
as none of its edges is named like a step: after any events, be they calls, their steps, callers
that go away or changes by no call, the start is in the graph, and so are all nodes on the paths of
the sessions and both ends of every step. -/
theorem nodes_present (l : Ledger) (t : Traffic) (w : Workspace) (file : String) (g : Graph)
    (hloaded : t.desk.world.workspace = w.insertFile file g .empty)
    (hreserved : ∀ e ∈ g.edges, e.isExecution = false →
      ∀ name position, e.id ≠ Session.edgeId name position)
    (events : Nat → Event) (n : Nat) :
    ∃ f, (t.run l events n).desk.world.workspace.file? file = some f ∧
      f.graph.hasNode startId = true ∧
      (∀ s ∈ f.book.sessions, ∀ node ∈ s.path, f.graph.hasNode node = true) ∧
      ∀ e ∈ f.graph.edges, e.isExecution = true →
        f.graph.hasNode e.source = true ∧ f.graph.hasNode e.target = true := by
  have hinit : ∃ f, t.desk.world.workspace.file? file = some f ∧ f.InStep ∧ f.Grounded := by
    refine ⟨.load g .empty, ?_, FileState.inStep_load List.nodup_nil hreserved,
      FileState.grounded_load g⟩
    rw [hloaded]
    exact Workspace.file?_setFile_self ..
  obtain ⟨f, hf, hstep, h⟩ := exists_file?_run
    (fun u f h => ⟨u.inStep_onFile file h.1, u.grounded_onFile file h.2 h.1⟩) l hinit events n
  refine ⟨f, hf, h.start, h.path, fun e he hexec => ?_⟩
  -- a step is on the chain of its session, which leads from the start along the path
  obtain ⟨name, hown⟩ := Session.isExecution_iff.mp hexec
  obtain ⟨s, hs, -, hmem⟩ := hstep.mem_edges_of_isExecutionOf he hown
  obtain ⟨i, source, target, -, -, hsource, htarget, rfl⟩ := Session.mem_edges hmem
  refine ⟨?_, h.path s hs target htarget⟩
  rcases List.mem_cons.mp hsource with rfl | hsource
  · exact h.start
  · exact h.path s hs source hsource

/-- A runner that does nothing. -/
def idling : Ledger where
  runner _ _ prior := .ok (.start prior)
  settings := { persist := false }

/-- Nothing is under way at a file with two nodes and no sessions. -/
def pairTraffic : Traffic :=
  .of ⟨{ World.initial default with
    workspace := Workspace.empty.insertFile "f" Workspace.joinedPair .empty }, .empty⟩

/-- A node has run in one session and is being run in another, and the first session is at its next
step, when somebody deletes the node. The calls go on all the same. -/
def deletedUnderWay : List Event := [
  .ask "f" (.start "s"), .step 0, .ask "f" (.start "t"), .step 1, .ask "f" (.record "s" "a" "x"),
  .step 2, .step 2, .step 2, .step 2, .step 2, .step 2, .step 2, .step 2,
  .ask "f" (.record "s" "b" "y"), .step 3, .step 3, .step 3, .step 3,
  .ask "f" (.record "t" "a" "x"), .step 4, .step 4, .step 4, .step 4, .step 4,
  .change "f" (.removeNode "a" (Clock.now ⟨9⟩)), .step 3, .step 3, .step 3, .step 4, .step 4]

/-- The step that was under way comes to be the first of its session, and the one of the node that
is gone is not recorded. -/
theorem nodes_present_deletedUnderWay :
    pairTraffic.desk.world.workspace =
        Workspace.empty.insertFile "f" Workspace.joinedPair .empty ∧
      (∀ e ∈ Workspace.joinedPair.edges, e.isExecution = false →
        ∀ name position, e.id ≠ Session.edgeId name position) ∧
      ∃ f, (pairTraffic.run idling (Event.inOrder deletedUnderWay) 30).desk.world.workspace.file?
          "f" = some f ∧
        f.graph.hasNode startId = true ∧
        (∀ s ∈ f.book.sessions, ∀ node ∈ s.path, f.graph.hasNode node = true) ∧
        ∀ e ∈ f.graph.edges, e.isExecution = true →
          f.graph.hasNode e.source = true ∧ f.graph.hasNode e.target = true := by
  have hreserved : ∀ e ∈ Workspace.joinedPair.edges, e.isExecution = false →
      ∀ name position, e.id ≠ Session.edgeId name position := by
    intro e he _
    rw [Workspace.joinedPair, List.mem_singleton] at he
    rw [he]
    exact Session.ne_edgeId (by decide)
  exact ⟨rfl, hreserved, nodes_present idling pairTraffic .empty "f" _ rfl hreserved _ 30⟩

end Traffic

end Ledger

end Runbook
