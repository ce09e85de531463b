import Runbook.Proofs.Presence
import Runbook.Proofs.Refresh
import Runbook.Proofs.Splices

/-!
# What is left when a node is deleted

A node takes with it the edges at it and, from every session that ran it, its executions. Every
splice redraws a chain, so edges change their places and names meanwhile; what comes out can be
told from the file as it was.

* `FileState.PathInvariant`: chains, names and steps in step with each other
* `Session.plain`: the edges that are no steps, which redrawing a chain leaves in order
* `FileState.WithoutNode`: a file as it was, but for one node
* `Workspace.removeNode_effect`: deleting a node leaves the file without it, and all other files
-/

namespace Runbook

/-! ## Edges that are no steps -/

namespace Session

/-- The edges that are steps of no session. -/
def plain (es : List Edge) : List Edge := es.filter fun e => !e.isExecution

theorem plain_filter (p : Edge → Bool) (es : List Edge) :
    plain (es.filter p) = (plain es).filter p := List.filter_comm ..

theorem plain_edges (s : Session) : plain s.edges = [] :=
  List.filter_eq_nil_iff.mpr fun _ he => by
    rw [isExecution_of_isExecutionOf (isExecutionOf_of_mem_edges he)]
    decide

/-- Redrawing a chain leaves the edges that are no steps, in their order. -/
theorem plain_rebuildEdges (s : Session) (es : List Edge) :
    plain (s.rebuildEdges es) = plain es := by
  have hothers : plain (otherEdges s.id es) = plain es := by
    rw [otherEdges, plain_filter]
    refine List.filter_eq_self.mpr fun e he => ?_
    cases hown : e.isExecutionOf s.id with
    | false => rfl
    | true =>
      have hplain := (List.mem_filter.mp he).2
      rw [isExecution_of_isExecutionOf hown] at hplain
      cases hplain
  rw [rebuildEdges, plain, List.filter_append, ← plain, ← plain, hothers, plain_edges,
    List.append_nil]

theorem plain_repairSessions (node : NodeId) (now : Instant) (sessions : List Session)
    (es : List Edge) :
    plain (FileState.repairSessions node now sessions es).2.1 = plain es :=
  keeps_repairSessions (fun s es' h => (plain_rebuildEdges s es').trans h) node now sessions rfl

end Session

open Session

namespace Relations

/-- Steps of sessions tell nothing about how nodes are related. -/
theorem infer_plain (nodes : List Node) (es : List Edge) :
    infer nodes (plain es) = infer nodes es :=
  infer_filter fun e _ hkind => by rw [Edge.isExecution, hkind]; rfl

end Relations

/-! ## Files -/

namespace FileState

/-- What every change of a file keeps: the chains are in step with the sessions, whose names
differ; no edge of another kind is named like a step; and the names of the nodes differ. -/
structure PathInvariant (f : FileState) : Prop where
  /-- the chains are in step with the sessions -/
  inStep : f.InStep
  /-- no two nodes share a name -/
  nodes : (f.graph.nodes.map Node.id).Nodup

/-- A session as it was, but for the executions of one node. -/
structure LosesNode (node : NodeId) (now : Instant) (s s' : Session) : Prop where
  /-- it keeps its name -/
  id : s'.id = s.id
  /-- the executions of other nodes stay in order -/
  executions : s'.executions = s.executions.filter fun e => e.node ≠ node
  /-- it has the state that the last of them left, if there is one -/
  overall : s'.overall = lastState s'.executions
  /-- it changed now -/
  lastUpdate : s'.lastUpdate = now

/-- A file as it was, but for one node and what depends on it. -/
structure WithoutNode (node : NodeId) (now : Instant) (f f' : FileState) : Prop where
  /-- the other nodes stay in order -/
  nodes : f'.graph.nodes = f.graph.nodes.filter fun n => n.id ≠ node
  /-- the notes stay -/
  metadata : f'.graph.metadata = f.graph.metadata
  /-- of the sessions, in the same order, those change that ran the node -/
  sessions : List.Forall₂ (fun s s' =>
    (s.contains node = true → LosesNode node now s s') ∧ (s.contains node = false → s' = s))
    f.book.sessions f'.book.sessions
  /-- of the authored edges that are no steps, those stay in order that do not touch the node -/
  authored : plain f'.graph.authored = (plain f.graph.authored).filter fun e => !e.touches node
  /-- the derived edges follow from the other nodes and the edges between them -/
  derived : f'.graph.derived = Relations.infer (f.graph.nodes.filter fun n => n.id ≠ node)
    (f.graph.edges.filter fun e => !e.touches node)
  /-- no edge comes that is named as if it were a step -/
  reserved : ∀ e ∈ f'.graph.edges, e.isExecution = false → "exec:".toList <+: e.id.toList →
    e ∈ f.graph.edges
  /-- what every change keeps -/
  invariant : f'.PathInvariant

theorem losesNode_without (s : Session) (node : NodeId) (now : Instant) :
    LosesNode node now s (s.without node now) := ⟨rfl, rfl, rfl, rfl⟩

/-- The graph that deleting a node leaves. -/
theorem graph_removeNode {f : FileState} {node : NodeId} (hstart : node ≠ startId)
    (hnode : f.graph.hasNode node = true) (now : Instant) :
    (f.removeNode node now).2.graph = (Graph.dropNode { f.graph with
      edges := (repairSessions node now f.book.sessions f.graph.edges).2.1.filter
        fun e => !e.touches node } node).refresh := by
  rw [removeNode, if_neg (by simp [hstart, hnode])]

/-- Deleting a node that is there leaves the file without it, and gives the names of the sessions
that ran it. -/
theorem PathInvariant.removeNode {f : FileState} (h : f.PathInvariant) {node : NodeId}
    (hstart : node ≠ startId) (hnode : f.graph.hasNode node = true) (now : Instant) :
    (f.removeNode node now).1 = f.book.touching node ∧
      WithoutNode node now f (f.removeNode node now).2 := by
  obtain ⟨-, hsessions⟩ := h.inStep.removeNode_eq hstart hnode now
  have hgraph := graph_removeNode hstart hnode now
  -- the splices redraw chains, which leaves the edges that are no steps
  generalize hes : (repairSessions node now f.book.sessions f.graph.edges).2.1 = es at hgraph
  have hplain : plain es = plain f.graph.edges := by rw [← hes, plain_repairSessions]
  have hstep := h.inStep.removeNode node now
  have hnames : (f.removeNode node now).1 = f.book.touching node := by
    rcases f.removeNode_cases node now with ⟨hrefused, -⟩ | ⟨-, -, _, _, heq, -, -⟩
    · simp [hstart, hnode] at hrefused
    · rw [heq]
  refine ⟨hnames, ?_⟩
  generalize (f.removeNode node now).2 = f' at hgraph hsessions hstep
  have hnodes : f'.graph.nodes = f.graph.nodes.filter fun n => n.id ≠ node := by
    rw [hgraph, ← Graph.eraseP_eq_filter h.nodes]
    rfl
  have hdistinct : (f'.graph.nodes.map Node.id).Nodup := by
    rw [hnodes]
    exact h.nodes.sublist (List.filter_sublist.map Node.id)
  refine ⟨hnodes, by rw [hgraph]; rfl, ?splices, ?authored, ?derived, ?reserved, hstep,
    hdistinct⟩
  case splices =>
    rw [hsessions, List.forall₂_map_right_iff, List.forall₂_same]
    intro s _
    refine ⟨fun hran => ?_, fun hnot => by rw [if_neg (by simp [hnot])]⟩
    rw [if_pos hran]
    exact losesNode_without s node now
  case authored =>
    rw [hgraph, Graph.authored_refresh]
    show plain ((es.filter _).filter _) = (plain (f.graph.edges.filter _)).filter _
    rw [plain_filter, plain_filter, hplain, plain_filter, List.filter_comm]
  case derived =>
    rw [hgraph, Graph.derived_refresh]
    show Relations.infer (f.graph.nodes.eraseP _) (es.filter _) = _
    rw [Graph.eraseP_eq_filter h.nodes]
    -- what is left of the steps does not count
    rw [← Relations.infer_plain, plain_filter, hplain, ← plain_filter, Relations.infer_plain]
  case reserved =>
    intro e he hexec hname
    rw [hgraph] at he
    rcases List.mem_append.mp he with hold | hnew
    · have hes : e ∈ plain es := List.mem_filter.mpr
        ⟨(List.mem_filter.mp (List.mem_filter.mp hold).1).1, by rw [hexec]; rfl⟩
      rw [hplain] at hes
      exact (List.mem_filter.mp hes).1
    · exact absurd hname (Relations.not_exec_of_mem_infer hnew)

end FileState

namespace Workspace

/-- Deleting a node of a file, other than the start, takes it out of the file with its steps, and
gives the names of the sessions that ran it, in their order. All other files stay. -/
theorem removeNode_effect {w : Workspace} {file : String} {f : FileState}
    (hfile : w.file? file = some f) (h : f.PathInvariant) {node : NodeId} (hstart : node ≠ startId)
    (hnode : f.graph.hasNode node = true) (now : Instant) :
    ∃ f', w.removeNode file node now = (f.book.touching node, w.setFile file f') ∧
      FileState.WithoutNode node now f f' := by
  obtain ⟨hnames, heffect⟩ := h.removeNode hstart hnode now
  refine ⟨_, ?_, heffect⟩
  rw [removeNode, update, hfile, ← hnames]

/-- Three nodes of which each but the first uses a name that the one before it defines; the first
two are joined by hand, and so are the last two. -/
def handedOn : Graph where
  nodes :=
    [{ Node.new "a" .fragment with definitions := ⟨.ofList ["x"], .empty, .empty⟩ },
      { Node.new "b" .fragment with
        dependencies := ⟨.ofList ["x"], .empty, .empty, .empty⟩
        definitions := ⟨.ofList ["y"], .empty, .empty⟩ },
      { Node.new "c" .fragment with dependencies := ⟨.ofList ["y"], .empty, .empty, .empty⟩ }]
  edges := [⟨"a-b", "a", "b", .base, none⟩, ⟨"b-c", "b", "c", .base, none⟩]
  metadata := .empty

/-- The file of these nodes, with a session that ran the first twice and one that did not. -/
def handedOnFile : FileState :=
  .load handedOn ⟨[idleSession "s" ["a", "b", "a"], idleSession "t" ["b", "c"]], some "s"⟩

theorem pathInvariant_handedOnFile : handedOnFile.PathInvariant := by
  refine ⟨FileState.inStep_load (by decide) fun e he _ => Session.ne_edgeId ?_, by decide +kernel⟩
  revert e
  decide

/-- Deleting the first node takes two steps out of one session. -/
theorem removeNode_effect_handedOn :
    (empty.setFile "f" handedOnFile).file? "f" = some handedOnFile ∧
    handedOnFile.PathInvariant ∧ "a" ≠ startId ∧ handedOnFile.graph.hasNode "a" = true ∧
    ∃ f', (empty.setFile "f" handedOnFile).removeNode "f" "a" (Clock.now ⟨1⟩) =
        (["s"], (empty.setFile "f" handedOnFile).setFile "f" f') ∧
      FileState.WithoutNode "a" (Clock.now ⟨1⟩) handedOnFile f' := by
  have hfile := file?_setFile_self empty "f" handedOnFile
  have hnode : handedOnFile.graph.hasNode "a" = true := by decide +kernel
  have hstart : "a" ≠ startId := by decide
  exact ⟨hfile, pathInvariant_handedOnFile, hstart, hnode,
    removeNode_effect hfile pathInvariant_handedOnFile hstart hnode _⟩

end Workspace

end Runbook
