import Mathlib.Data.List.Nodup
import Runbook.Proofs.Chains
import Runbook.Workspace

/-!
# Edges in step with the sessions

All sessions of a file draw their chains in one list of edges. `InStep` says that this list is in
step with the sessions: their names differ, the steps of each are exactly its chain in order, every
step belongs to one of them, and no other edge bears a name of that kind.

* `InStep.addressed`: a step can be found by its name
* `InStep.update`: one session and its steps may change as long as they do so together
* `InStep.rebuild`, `InStep.start`, `InStep.load`: redrawing a chain, new sessions, whole books
* `InStep.repair`: a node is taken out of all sessions
* `InStep.keep`: edges that are no steps may come and go
-/

namespace Runbook

open Session

/-- The edges are in step with the sessions. -/
structure InStep (sessions : List Session) (es : List Edge) : Prop where
  /-- no two sessions share a name -/
  names : (sessions.map Session.id).Nodup
  /-- the steps of a session are its chain -/
  chains : ∀ s ∈ sessions, stepsIn s.id es = s.edges
  /-- every step is one of a session -/
  owned : ∀ e ∈ es, ∀ name, e.isExecutionOf name = true → name ∈ sessions.map Session.id
  /-- no other edge is named like a step -/
  reserved : ∀ e ∈ es, e.isExecution = false → ∀ name position, e.id ≠ edgeId name position

namespace InStep

variable {sessions : List Session} {es es' : List Edge}

/-- Every step is on the chain of its session. -/
theorem mem_edges_of_isExecutionOf (h : InStep sessions es) {e : Edge} {name : String}
    (he : e ∈ es) (hown : e.isExecutionOf name = true) :
    ∃ s ∈ sessions, s.id = name ∧ e ∈ s.edges := by
  obtain ⟨s, hs, rfl⟩ := List.mem_map.mp (h.owned e he name hown)
  refine ⟨s, hs, rfl, ?_⟩
  rw [← h.chains s hs]
  exact mem_stepsIn.mpr ⟨he, hown⟩

/-- An edge that is named as a step is that step, with its number on the label. -/
theorem step_of_id_eq (h : InStep sessions es) {e : Edge} {name : String} {position : Nat}
    (he : e ∈ es) (hid : e.id = edgeId name position) :
    e.isExecutionOf name = true ∧ e.step? = some position := by
  have hexec : e.isExecution = true := by
    by_contra hplain
    exact h.reserved e he (Bool.eq_false_iff.mpr hplain) name position hid
  obtain ⟨other, hown⟩ := isExecution_iff.mp hexec
  obtain ⟨s, -, rfl, hmem⟩ := h.mem_edges_of_isExecutionOf he hown
  obtain ⟨i, source, target, -, -, -, -, rfl⟩ := mem_edges hmem
  obtain ⟨rfl, rfl⟩ := edgeId_inj hid
  exact ⟨hown, step?_edge ..⟩

theorem addressed (h : InStep sessions es) (s : Session) : s.Addressed es :=
  fun _ he _ hid => h.step_of_id_eq he hid

/-! ## Changes of one session -/

/-- One session may change together with its steps, as long as it keeps its name and the steps of
the others stay. -/
theorem update {pre post : List Session} {s t : Session} (h : InStep (pre ++ s :: post) es)
    (hid : t.id = s.id) (hchain : stepsIn t.id es' = t.edges)
    (hothers : ∀ name, name ≠ t.id → stepsIn name es' = stepsIn name es)
    (hplain : ∀ e ∈ es', e.isExecution = false → e ∈ es) : InStep (pre ++ t :: post) es' := by
  have hnames : (pre ++ t :: post).map Session.id = (pre ++ s :: post).map Session.id := by
    simp only [List.map_append, List.map_cons, hid]
  have hnodup := h.names
  rw [List.map_append, List.map_cons] at hnodup
  -- the other sessions bear other names, so `hothers` is about their steps
  have hunique : ∀ u, u ∈ pre ∨ u ∈ post → u.id ≠ t.id := by
    rintro u (hu | hu) heq
    · have hdisjoint := (List.nodup_append.mp hnodup).2.2
      exact hdisjoint u.id (List.mem_map_of_mem hu) s.id (List.mem_cons_self ..) (heq.trans hid)
    · have htail := List.nodup_cons.mp (List.nodup_append.mp hnodup).2.1
      exact htail.1 (hid ▸ heq ▸ List.mem_map_of_mem hu)
  refine ⟨hnames ▸ h.names, ?_, ?_, ?_⟩
  · intro u hu
    rcases List.mem_append.mp hu with hu | hu
    · rw [hothers u.id (hunique u (.inl hu))]
      exact h.chains u (List.mem_append_left _ hu)
    · rcases List.mem_cons.mp hu with rfl | hu
      · exact hchain
      · rw [hothers u.id (hunique u (.inr hu))]
        exact h.chains u (List.mem_append_right _ (List.mem_cons_of_mem _ hu))
  · intro e he name hown
    rw [hnames]
    by_cases hname : name = t.id
    · rw [hname, hid]
      exact List.mem_map_of_mem (List.mem_append_right _ (List.mem_cons_self ..))
    · have hmem : e ∈ stepsIn name es := hothers name hname ▸ mem_stepsIn.mpr ⟨he, hown⟩
      exact h.owned e (mem_stepsIn.mp hmem).1 name hown
  · intro e he hexec
    exact h.reserved e (hplain e he hexec) hexec

/-- A session may change in any way that keeps its name, if its chain is redrawn. -/
theorem rebuild {pre post : List Session} {s t : Session} (h : InStep (pre ++ s :: post) es)
    (hid : t.id = s.id) : InStep (pre ++ t :: post) (t.rebuildEdges es) := by
  refine h.update hid (stepsIn_rebuildEdges t es)
    (fun name hname => stepsIn_rebuildEdges_of_ne hname es) ?_
  intro e he hplain
  rcases mem_rebuildEdges.mp he with ⟨he, -⟩ | he
  · exact he
  · have hexec := isExecution_of_isExecutionOf (isExecutionOf_of_mem_edges he)
    exact absurd hplain (Bool.eq_false_iff.not.mpr (not_not.mpr hexec))

/-- A session may run on, if an edge is drawn for it. -/
theorem push {pre post : List Session} {s : Session} (h : InStep (pre ++ s :: post) es)
    (e : Execution) (now : Instant) :
    InStep (pre ++ s.push e now :: post) ((s.push e now).appendEdge es) := by
  -- the one edge that is drawn is the session's next step
  have hown : (s.nextEdge e.node).isExecutionOf s.id = true := isExecutionOf_edge ..
  rw [appendEdge_push]
  refine h.update rfl ?_ ?_ ?_
  · rw [id_push, stepsIn_append, edges_push,
      h.chains s (List.mem_append_right _ (List.mem_cons_self ..)), stepsIn,
      List.filter_cons_of_pos hown, List.filter_nil]
  · intro name hname
    have hother : ¬ (s.nextEdge e.node).isExecutionOf name = true := fun hn =>
      hname (eq_of_isExecutionOf hn hown)
    rw [stepsIn_append, stepsIn, stepsIn, List.filter_cons_of_neg hother, List.filter_nil,
      List.append_nil]
  · intro f hf hplain
    rcases List.mem_append.mp hf with hf | hf
    · exact hf
    · rw [List.mem_singleton.mp hf, isExecution_of_isExecutionOf hown] at hplain
      cases hplain

/-! ## Sessions that come and go -/

/-- A session may be added with its chain, if its name is free. -/
theorem add {s : Session} (h : InStep sessions es) (hfree : s.id ∉ sessions.map Session.id)
    (hchain : stepsIn s.id es' = s.edges)
    (hothers : ∀ name, name ≠ s.id → stepsIn name es' = stepsIn name es)
    (hplain : ∀ e ∈ es', e.isExecution = false → e ∈ es) : InStep (sessions ++ [s]) es' := by
  refine ⟨?_, ?_, ?_, ?_⟩
  · rw [List.map_append, List.nodup_append]
    refine ⟨h.names, List.nodup_singleton _, ?_⟩
    rintro name hname _ hs rfl
    exact hfree (List.mem_singleton.mp hs ▸ hname)
  · intro u hu
    rcases List.mem_append.mp hu with hu | hu
    · have hne : u.id ≠ s.id := fun heq => hfree (heq ▸ List.mem_map_of_mem hu)
      rw [hothers u.id hne]
      exact h.chains u hu
    · rw [List.mem_singleton.mp hu]
      exact hchain
  · intro e he name hown
    rw [List.map_append, List.mem_append]
    by_cases hname : name = s.id
    · exact .inr (hname ▸ List.mem_cons_self ..)
    · have hmem : e ∈ stepsIn name es := hothers name hname ▸ mem_stepsIn.mpr ⟨he, hown⟩
      exact .inl (h.owned e (mem_stepsIn.mp hmem).1 name hown)
  · intro e he hexec
    exact h.reserved e (hplain e he hexec) hexec

/-- A session in which nothing has run needs no edges. -/
theorem start {s : Session} (h : InStep sessions es) (hfree : s.id ∉ sessions.map Session.id)
    (hempty : s.executions = []) : InStep (sessions ++ [s]) es := by
  refine h.add hfree ?_ (fun _ _ => rfl) fun _ he _ => he
  -- a free name means that no step was left behind by an earlier session of that name
  have hnone : stepsIn s.id es = [] :=
    List.filter_eq_nil_iff.mpr fun e he hown => hfree (h.owned e he s.id hown)
  rw [hnone, edges, path, hempty]
  rfl

/-- All chains may be drawn one after another. -/
theorem load (todo : List Session) : ∀ {done : List Session} {es : List Edge}, InStep done es →
    ((done ++ todo).map Session.id).Nodup →
      InStep (done ++ todo) (todo.foldl (fun es s => s.rebuildEdges es) es) := by
  induction todo with
  | nil =>
    intro done es h _
    rw [List.append_nil]
    exact h
  | cons s rest ih =>
    intro done es h hnames
    have hsplit : done ++ s :: rest = (done ++ [s]) ++ rest := by simp
    rw [hsplit] at hnames ⊢
    refine ih ?_ hnames
    have hfree : s.id ∉ done.map Session.id := by
      rw [List.map_append, List.map_append, List.append_assoc, List.nodup_append] at hnames
      intro hs
      exact hnames.2.2 s.id hs s.id (List.mem_cons_self ..) rfl
    refine h.add hfree (stepsIn_rebuildEdges s es)
      (fun name hname => stepsIn_rebuildEdges_of_ne hname es) ?_
    intro e he hplain
    rcases mem_rebuildEdges.mp he with ⟨he, -⟩ | he
    · exact he
    · rw [isExecution_of_isExecutionOf (isExecutionOf_of_mem_edges he)] at hplain
      cases hplain

/-- A session may be dropped together with its steps. -/
theorem drop {pre post : List Session} {s : Session} (h : InStep (pre ++ s :: post) es) :
    InStep (pre ++ post) (otherEdges s.id es) := by
  have hsub : (pre ++ post).Sublist (pre ++ s :: post) :=
    List.Sublist.append_left (List.sublist_cons_self ..) pre
  have hnodup := h.names
  rw [List.map_append, List.map_cons, List.nodup_append] at hnodup
  refine ⟨h.names.sublist (hsub.map _), ?_, ?_, ?_⟩
  · intro u hu
    have hne : u.id ≠ s.id := by
      rcases List.mem_append.mp hu with hu | hu
      · exact hnodup.2.2 u.id (List.mem_map_of_mem hu) s.id (List.mem_cons_self ..)
      · exact fun heq => (List.nodup_cons.mp hnodup.2.1).1 (heq ▸ List.mem_map_of_mem hu)
    rw [stepsIn_otherEdges_of_ne hne]
    exact h.chains u (hsub.subset hu)
  · intro e he name hown
    obtain ⟨he, hnot⟩ := mem_otherEdges.mp he
    have hname := h.owned e he name hown
    rw [List.map_append, List.map_cons, List.mem_append, List.mem_cons] at hname
    rw [List.map_append, List.mem_append]
    rcases hname with hname | rfl | hname
    · exact .inl hname
    · rw [hown] at hnot
      cases hnot
    · exact .inr hname
  · intro e he
    exact h.reserved e (mem_otherEdges.mp he).1

/-! ## Other edges -/

/-- Edges that are no steps may come and go, if those that come are not named like steps. -/
theorem keep (h : InStep sessions es) (hsteps : ∀ name, stepsIn name es' = stepsIn name es)
    (hplain : ∀ e ∈ es', e.isExecution = false → ∀ name position, e.id ≠ edgeId name position) :
    InStep sessions es' := by
  refine ⟨h.names, fun s hs => (hsteps s.id).trans (h.chains s hs), ?_, hplain⟩
  intro e he name hown
  have hmem : e ∈ stepsIn name es := hsteps name ▸ mem_stepsIn.mpr ⟨he, hown⟩
  exact h.owned e (mem_stepsIn.mp hmem).1 name hown

/-- Edges that are no steps may be sorted out. -/
theorem filter (h : InStep sessions es) (p : Edge → Bool)
    (hp : ∀ e ∈ es, e.isExecution = true → p e = true) : InStep sessions (es.filter p) := by
  refine h.keep ?_ fun e he => h.reserved e (List.mem_filter.mp he).1
  intro name
  rw [stepsIn, List.filter_filter, stepsIn]
  refine List.filter_congr fun e he => ?_
  cases hown : e.isExecutionOf name with
  | false => rfl
  | true => rw [hp e he (isExecution_of_isExecutionOf hown)]; rfl

/-! ## A node that goes -/

/-- Taking a node out of all sessions, one after another, keeps the edges in step; those sessions
that ran it lose exactly its executions, and their names are given. -/
theorem repair (node : NodeId) (now : Instant) (todo : List Session) :
    ∀ {done : List Session} {es : List Edge}, InStep (done ++ todo) es →
      ∃ es', FileState.repairSessions node now todo es =
          ((todo.filter fun s => s.contains node).map Session.id, es',
            todo.map fun s => if s.contains node then s.without node now else s) ∧
        InStep (done ++ todo.map fun s => if s.contains node then s.without node now else s)
          es' := by
  induction todo with
  | nil => exact fun {_ es} h => ⟨es, rfl, h⟩
  | cons s rest ih =>
    intro done es h
    rw [FileState.repairSessions]
    by_cases hs : s.contains node = true
    · -- the chain of this session is redrawn, and it joins those that are done
      have hmove : done ++ s.without node now :: rest = (done ++ [s.without node now]) ++ rest := by
        simp
      have hcut : InStep ((done ++ [s.without node now]) ++ rest)
          ((s.without node now).rebuildEdges es) := hmove ▸ h.rebuild rfl
      obtain ⟨es', hrun, hstep⟩ := ih hcut
      refine ⟨es', ?_, ?_⟩
      · simp only [hs, if_true, removeNode_eq now (h.addressed s) hs, hrun, List.map_cons,
          List.filter_cons_of_pos]
        rfl
      · simpa [hs] using hstep
    · have hmove : done ++ s :: rest = (done ++ [s]) ++ rest := by simp
      obtain ⟨es', hrun, hstep⟩ := ih (hmove ▸ h)
      refine ⟨es', ?_, ?_⟩
      · simp only [hs, hrun, List.map_cons]
        simp [hs]
      · simpa [hs] using hstep

/-- No step leads to a node that no session ran, the start apart. -/
theorem not_touches (h : InStep sessions es) {node : NodeId} (hstart : node ≠ startId)
    (hgone : ∀ s ∈ sessions, node ∉ s.path) {e : Edge} (he : e ∈ es)
    (hexec : e.isExecution = true) : e.touches node = false := by
  obtain ⟨name, hown⟩ := isExecution_iff.mp hexec
  obtain ⟨s, hs, -, hmem⟩ := h.mem_edges_of_isExecutionOf he hown
  obtain ⟨i, source, target, -, -, hsource, htarget, rfl⟩ := mem_edges hmem
  have hne : source ≠ node := by
    rintro rfl
    rcases List.mem_cons.mp hsource with heq | hpath
    · exact hstart heq
    · exact hgone s hs hpath
  have hne' : target ≠ node := fun heq => hgone s hs (heq ▸ htarget)
  simp [Edge.touches, edge, hne, hne']

end InStep

end Runbook
