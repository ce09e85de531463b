import Mathlib.Data.List.Induction
import Runbook.Proofs.EdgeNames

/-!
# Chains of execution edges

One list of edges serves all sessions of a file. Everything here is about one session and such a
list: what its own steps are in it, and how drawing and cutting change them.

* `Session.stepsIn`: the steps of a session among some edges, in order
* `Session.getElem?_edges`, `Session.mem_edges`: the edges of a chain one by one
* `Session.edges_push`, `Session.appendEdge_push`: drawing the last edge only is drawing the chain
* `Session.stepsIn_rebuildEdges`, `Session.stepsIn_rebuildEdges_of_ne`: redrawing a chain
* `Session.removeStep_cases`: all that taking out a step can do
* `Session.Addressed`, `Session.removeNode_eq`: taking out a node, last occurrence first, leaves
  exactly the executions of the other nodes
-/

namespace Runbook

namespace Session

/-! ## The edges of a chain -/

/-- The steps of a session among some edges. -/
def stepsIn (name : String) (es : List Edge) : List Edge := es.filter (Edge.isExecutionOf name)

theorem mem_stepsIn {name : String} {es : List Edge} {e : Edge} :
    e ∈ stepsIn name es ↔ e ∈ es ∧ e.isExecutionOf name = true := List.mem_filter

theorem stepsIn_append (name : String) (es es' : List Edge) :
    stepsIn name (es ++ es') = stepsIn name es ++ stepsIn name es' := List.filter_append ..

theorem isExecutionOf_iff {name : String} {e : Edge} :
    e.isExecutionOf name = true ↔ e.kind = .execution name := by
  rw [Edge.isExecutionOf, Edge.Kind.isExecutionOf, decide_eq_true_eq]

theorem isExecution_of_isExecutionOf {name : String} {e : Edge}
    (h : e.isExecutionOf name = true) : e.isExecution = true := by
  rw [Edge.isExecution, isExecutionOf_iff.mp h]
  rfl

theorem isExecution_iff {e : Edge} :
    e.isExecution = true ↔ ∃ name, e.isExecutionOf name = true := by
  refine ⟨fun h => ?_, fun ⟨_, h⟩ => isExecution_of_isExecutionOf h⟩
  rw [Edge.isExecution, Edge.Kind.isExecution, Option.isSome_iff_exists] at h
  obtain ⟨name, hname⟩ := h
  refine ⟨name, isExecutionOf_iff.mpr ?_⟩
  cases hk : e.kind <;> rw [hk] at hname <;> cases hname
  rfl

theorem isExecutionOf_of_session? {name : String} {e : Edge} (h : e.kind.session? = some name) :
    e.isExecutionOf name = true := by
  rw [isExecutionOf_iff]
  cases hk : e.kind <;> rw [hk] at h <;> cases h
  rfl

theorem eq_of_isExecutionOf {name other : String} {e : Edge} (h : e.isExecutionOf name = true)
    (h' : e.isExecutionOf other = true) : name = other := by
  have := (isExecutionOf_iff.mp h).symm.trans (isExecutionOf_iff.mp h')
  exact Edge.Kind.execution.inj this

theorem getElem?_edgesFrom (name : String) (position : Nat) (source : NodeId)
    (path : List NodeId) (i : Nat) :
    (edgesFrom name position source path)[i]? =
      (path[i]?).map fun target => edge name (position + i) (((source :: path)[i]?).getD source)
        target := by
  induction path generalizing position source i with
  | nil => rfl
  | cons target rest ih =>
    cases i with
    | zero => rfl
    | succ i =>
      rw [edgesFrom, List.getElem?_cons_succ, List.getElem?_cons_succ, ih, List.getElem?_cons_succ,
        Nat.add_right_comm, Nat.add_assoc]
      cases h : rest[i]? with
      | none => rfl
      | some x =>
        have hlt : i < (target :: rest).length :=
          Nat.lt_succ_of_lt (List.getElem?_eq_some_iff.mp h).1
        simp only [Option.map_some, List.getElem?_eq_getElem hlt, Option.getD_some]

/-- The edge at each place of a chain: it is numbered from one, and leads from the node before,
or the start, to the node at that place of the path. -/
theorem getElem?_edges (s : Session) (i : Nat) :
    s.edges[i]? = (s.path[i]?).map fun target =>
      edge s.id (i + 1) (((startId :: s.path)[i]?).getD startId) target := by
  rw [edges, getElem?_edgesFrom, Nat.add_comm 1 i]

@[simp] theorem length_edges (s : Session) : s.edges.length = s.length := by
  rw [edges, length_edgesFrom, path, List.length_map, length]

theorem mem_edgesFrom {name : String} {position : Nat} {source : NodeId} {path : List NodeId}
    {e : Edge} (h : e ∈ edgesFrom name position source path) :
    ∃ i u v, position ≤ i ∧ i < position + path.length ∧ u ∈ source :: path ∧ v ∈ path ∧
      e = edge name i u v := by
  induction path generalizing position source with
  | nil => cases h
  | cons target rest ih =>
    rcases List.mem_cons.mp h with rfl | h
    · exact ⟨position, source, target, Nat.le_refl _, by simp, List.mem_cons_self ..,
        List.mem_cons_self .., rfl⟩
    · obtain ⟨i, u, v, hle, hlt, hu, hv, rfl⟩ := ih h
      refine ⟨i, u, v, Nat.le_of_succ_le hle, ?_, List.mem_cons_of_mem _ hu,
        List.mem_cons_of_mem _ hv, rfl⟩
      rw [List.length_cons]
      omega

/-- Every edge of a chain stands for a position of the path and joins nodes of the path or the
start. -/
theorem mem_edges {s : Session} {e : Edge} (h : e ∈ s.edges) :
    ∃ i source target, 1 ≤ i ∧ i ≤ s.length ∧ source ∈ startId :: s.path ∧ target ∈ s.path ∧
      e = edge s.id i source target := by
  obtain ⟨i, source, target, hle, hlt, hs, ht, he⟩ := mem_edgesFrom h
  refine ⟨i, source, target, hle, ?_, hs, ht, he⟩
  rw [path, List.length_map] at hlt
  rw [length]
  omega

theorem isExecutionOf_of_mem_edges {s : Session} {e : Edge} (h : e ∈ s.edges) :
    e.isExecutionOf s.id = true := by
  obtain ⟨i, source, target, -, -, -, -, rfl⟩ := mem_edges h
  exact isExecutionOf_edge ..

/-- Every position of the path has its edge in the chain. -/
theorem exists_mem_edges {s : Session} {position : Nat} (hpos : 1 ≤ position)
    (hle : position ≤ s.length) : ∃ e ∈ s.edges, e.id = edgeId s.id position := by
  have hlt : position - 1 < s.path.length := by
    rw [path, List.length_map, ← length]
    omega
  have hget := getElem?_edges s (position - 1)
  rw [List.getElem?_eq_getElem hlt, Option.map_some, Nat.sub_add_cancel hpos] at hget
  exact ⟨_, List.mem_of_getElem? hget, rfl⟩

theorem columns_edgesFrom (name : String) (position : Nat) (source : NodeId)
    (path : List NodeId) :
    (edgesFrom name position source path).map Edge.id =
        (List.range' position path.length).map (edgeId name) ∧
      (edgesFrom name position source path).map Edge.label =
        (List.range' position path.length).map (fun i => some (toString i)) ∧
      (edgesFrom name position source path).map Edge.source = (source :: path).dropLast ∧
      (edgesFrom name position source path).map Edge.target = path := by
  induction path generalizing position source with
  | nil => exact ⟨rfl, rfl, rfl, rfl⟩
  | cons target rest ih =>
    obtain ⟨hid, hlabel, hsource, htarget⟩ := ih (position + 1) target
    simp only [edgesFrom, List.map_cons, hid, hlabel, hsource, htarget, List.length_cons,
      List.range'_succ, List.dropLast_cons_cons]
    exact ⟨rfl, rfl, rfl, rfl⟩

/-- A chain read column by column: names and labels count the steps from one, the sources are the
start and all nodes of the path but the last, the targets are the nodes of the path. -/
theorem columns_edges (s : Session) :
    s.edges.map Edge.id = (List.range' 1 s.length).map (edgeId s.id) ∧
      s.edges.map Edge.label = (List.range' 1 s.length).map (fun i => some (toString i)) ∧
      s.edges.map Edge.source = (startId :: s.path).dropLast ∧
      s.edges.map Edge.target = s.path := by
  have hlength : s.path.length = s.length := List.length_map _
  have h := columns_edgesFrom s.id 1 startId s.path
  rw [hlength] at h
  exact h

/-! ## Drawing -/

theorem edgesFrom_concat (name : String) (position : Nat) (source target : NodeId)
    (path : List NodeId) : edgesFrom name position source (path ++ [target]) =
      edgesFrom name position source path ++
        [edge name (position + path.length) (path.getLast?.getD source) target] := by
  induction path generalizing position source with
  | nil => rfl
  | cons next rest ih =>
    have hlast : (next :: rest).getLast?.getD source = rest.getLast?.getD next := by
      rw [List.getLast?_cons, Option.getD_some]
    rw [List.cons_append, edgesFrom, ih, edgesFrom, List.cons_append, hlast, List.length_cons,
      Nat.add_right_comm, Nat.add_assoc]

/-- The edge for an execution that comes after all of a session's. -/
def nextEdge (s : Session) (target : NodeId) : Edge :=
  edge s.id (s.length + 1) (s.path.getLast?.getD startId) target

/-- The chain after one more execution has one more edge. -/
theorem edges_push (s : Session) (e : Execution) (now : Instant) :
    (s.push e now).edges = s.edges ++ [s.nextEdge e.node] := by
  rw [edges, path_push, id_push, edgesFrom_concat, nextEdge, edges, path, List.length_map, length,
    Nat.add_comm 1]

/-- Drawing the edge of the last execution only draws what the chain has more than before. -/
theorem appendEdge_push (s : Session) (e : Execution) (now : Instant) (es : List Edge) :
    (s.push e now).appendEdge es = es ++ [s.nextEdge e.node] := by
  have hlength : (s.push e now).length = s.length + 1 := by
    simp [length, push]
  rw [appendEdge, path_push, List.reverse_append, List.reverse_singleton, List.singleton_append]
  cases h : s.path.reverse with
  | nil =>
    have hpath : s.path = [] := List.reverse_eq_nil_iff.mp h
    have hzero : s.length = 0 := by
      rw [length, ← List.length_map (f := Execution.node), ← path, hpath]
      rfl
    simp only [nextEdge, hpath, hzero, id_push]
    rfl
  | cons last before =>
    have hlast : s.path.getLast? = some last := by
      rw [← List.head?_reverse, h]
      rfl
    simp only [nextEdge, hlast, hlength, id_push, Option.getD_some]

theorem stepsIn_edges (s : Session) : stepsIn s.id s.edges = s.edges :=
  List.filter_eq_self.mpr fun _ he => isExecutionOf_of_mem_edges he

theorem stepsIn_edges_of_ne {s : Session} {name : String} (h : name ≠ s.id) :
    stepsIn name s.edges = [] :=
  List.filter_eq_nil_iff.mpr fun _ he hname =>
    h (eq_of_isExecutionOf hname (isExecutionOf_of_mem_edges he))

theorem mem_otherEdges {name : String} {es : List Edge} {e : Edge} :
    e ∈ otherEdges name es ↔ e ∈ es ∧ e.isExecutionOf name = false := by
  rw [otherEdges, List.mem_filter, Bool.not_eq_true']

theorem stepsIn_otherEdges (name : String) (es : List Edge) :
    stepsIn name (otherEdges name es) = [] :=
  List.filter_eq_nil_iff.mpr fun _ he hname =>
    absurd hname (Bool.eq_false_iff.mp (mem_otherEdges.mp he).2)

theorem stepsIn_otherEdges_of_ne {name other : String} (h : other ≠ name) (es : List Edge) :
    stepsIn other (otherEdges name es) = stepsIn other es := by
  rw [stepsIn, otherEdges, List.filter_filter]
  refine List.filter_congr fun e _ => ?_
  cases ho : e.isExecutionOf other with
  | false => rfl
  | true =>
    cases hn : e.isExecutionOf name with
    | false => rfl
    | true => exact absurd (eq_of_isExecutionOf ho hn) h

/-- After redrawing, the steps of the session are its chain, whatever they were. -/
theorem stepsIn_rebuildEdges (s : Session) (es : List Edge) :
    stepsIn s.id (s.rebuildEdges es) = s.edges := by
  rw [rebuildEdges, stepsIn_append, stepsIn_otherEdges, List.nil_append, stepsIn_edges]

/-- Redrawing a chain leaves the steps of the other sessions. -/
theorem stepsIn_rebuildEdges_of_ne {s : Session} {name : String} (h : name ≠ s.id)
    (es : List Edge) : stepsIn name (s.rebuildEdges es) = stepsIn name es := by
  rw [rebuildEdges, stepsIn_append, stepsIn_edges_of_ne h, List.append_nil,
    stepsIn_otherEdges_of_ne h]

theorem mem_rebuildEdges {s : Session} {es : List Edge} {e : Edge} :
    e ∈ s.rebuildEdges es ↔ (e ∈ es ∧ e.isExecutionOf s.id = false) ∨ e ∈ s.edges := by
  rw [rebuildEdges, List.mem_append, mem_otherEdges]

theorem otherEdges_rebuildEdges (s : Session) (es : List Edge) :
    otherEdges s.id (s.rebuildEdges es) = otherEdges s.id es := by
  have hown : otherEdges s.id s.edges = [] :=
    List.filter_eq_nil_iff.mpr fun e he => by
      rw [isExecutionOf_of_mem_edges he]
      decide
  have hothers : otherEdges s.id (otherEdges s.id es) = otherEdges s.id es :=
    List.filter_eq_self.mpr fun e he => by
      rw [(mem_otherEdges.mp he).2]
      rfl
  calc otherEdges s.id (otherEdges s.id es ++ s.edges)
      = otherEdges s.id (otherEdges s.id es) ++ otherEdges s.id s.edges := List.filter_append ..
    _ = otherEdges s.id es := by rw [hothers, hown, List.append_nil]

/-- Of two redrawings of one session's chain the second is as good as both. -/
theorem rebuildEdges_rebuildEdges {s t : Session} (h : t.id = s.id) (es : List Edge) :
    t.rebuildEdges (s.rebuildEdges es) = t.rebuildEdges es := by
  rw [rebuildEdges, h, otherEdges_rebuildEdges, rebuildEdges, h]

/-! ## Taking out a step -/

@[simp] theorem id_rest {s : Session} {position : Nat} {now : Instant} {x : Execution}
    {rest : Session} (h : s.removeAt? position now = some (x, rest)) : rest.id = s.id := by
  rw [removeAt?] at h
  split at h
  · cases h
  · obtain ⟨_, -, heq⟩ := Option.map_eq_some_iff.mp h
    cases heq
    rfl

/-- Only positions from one to the length are taken out, and just one execution is. -/
theorem removeAt?_eq_some {s : Session} {position : Nat} {now : Instant} {x : Execution}
    {rest : Session} : s.removeAt? position now = some (x, rest) ↔
      1 ≤ position ∧ s.executions[position - 1]? = some x ∧
        rest = { s with
          executions := s.executions.eraseIdx (position - 1), lastUpdate := now
          overall := lastState (s.executions.eraseIdx (position - 1)) } := by
  rw [removeAt?]
  split
  · rename_i hzero
    simp [hzero]
  · rename_i hpos
    rw [Option.map_eq_some_iff]
    constructor
    · rintro ⟨y, hy, heq⟩
      cases heq
      exact ⟨Nat.one_le_iff_ne_zero.mpr hpos, hy, rfl⟩
    · rintro ⟨-, hx, rfl⟩
      exact ⟨x, hx, rfl⟩

theorem length_rest {s : Session} {position : Nat} {now : Instant} {x : Execution}
    {rest : Session} (h : s.removeAt? position now = some (x, rest)) :
    rest.length + 1 = s.length := by
  obtain ⟨-, hx, rfl⟩ := removeAt?_eq_some.mp h
  have hlt : position - 1 < s.executions.length := (List.getElem?_eq_some_iff.mp hx).1
  rw [length, List.length_eraseIdx_of_lt hlt, length]
  omega

/-- On a path that is shorter than a 64-bit number can say, the numbers that are too large for one
stand for no step, as all numbers beyond the path's end. -/
theorem bind_step?_removeAt? {s : Session} (e : Edge) (now : Instant) (h : s.length < UInt64.size) :
    (e.step?.bind fun position => s.removeAt? position now) =
      e.executionPosition?.bind fun position => s.removeAt? position now := by
  rw [Edge.executionPosition?]
  cases hstep : e.step? with
  | none => rfl
  | some position =>
    rw [Option.filter_some]
    by_cases hlt : position < UInt64.size
    · rw [if_pos (decide_eq_true hlt)]
    · have hbeyond : s.executions[position - 1]? = none := by
        rw [length] at h
        exact List.getElem?_eq_none (by omega)
      rw [if_neg (by simpa using hlt), Option.bind_some, removeAt?, if_neg (by omega), hbeyond]
      rfl

/-- All that taking out a step can do: complain about an unknown edge, find that the edge stands
for no step of the session, or take out the step and redraw the chain. -/
theorem removeStep_cases (id : EdgeId) (now : Instant) (es : List Edge) (s : Session) :
    (es.find? (fun e => e.id = id) = none ∧
        s.removeStep id now es = (.error (.unknownEdge id), es, s)) ∨
      s.removeStep id now es = (.ok none, es, s) ∨
      ∃ e position x rest, es.find? (fun e => e.id = id) = some e ∧
        e.isExecutionOf s.id = true ∧ e.step? = some position ∧
        s.removeAt? position now = some (x, rest) ∧
        s.removeStep id now es = (.ok (some x), rest.rebuildEdges es, rest) := by
  rw [removeStep]
  cases hfind : es.find? fun e => e.id = id with
  | none => exact .inl ⟨rfl, rfl⟩
  | some e =>
    right
    by_cases hown : e.isExecutionOf s.id = true
    · cases hremove : e.step?.bind fun position => s.removeAt? position now with
      | none =>
        left
        simp only [hown, if_true, hremove]
      | some p =>
        obtain ⟨x, rest⟩ := p
        obtain ⟨position, hstep, hat⟩ := Option.bind_eq_some_iff.mp hremove
        right
        exact ⟨e, position, x, rest, rfl, hown, hstep, hat, by simp only [hown, if_true, hremove]⟩
    · left
      simp only [hown]
      rfl

/-! ## Taking out a node

The positions of a node are taken out last first, each through the edge of its name. For that the
edges need not be a chain; it is enough that those that bear a name of the session's steps are
its own and labelled as they are named. -/

/-- Every edge that is named as a step of the session is that step. -/
def Addressed (s : Session) (es : List Edge) : Prop :=
  ∀ e ∈ es, ∀ position, e.id = edgeId s.id position →
    e.isExecutionOf s.id = true ∧ e.step? = some position

theorem addressed_edges (s : Session) : s.Addressed s.edges := by
  intro e he position hid
  obtain ⟨i, source, target, -, -, -, -, rfl⟩ := mem_edges he
  obtain ⟨-, rfl⟩ := edgeId_inj hid
  exact ⟨isExecutionOf_edge .., step?_edge ..⟩

theorem Addressed.rebuildEdges {s t : Session} {es : List Edge} (h : s.Addressed es)
    (hid : t.id = s.id) : t.Addressed (t.rebuildEdges es) := by
  intro e he position hname
  rcases mem_rebuildEdges.mp he with ⟨he, -⟩ | he
  · rw [hid] at hname ⊢
    exact h e he position hname
  · exact addressed_edges t e he position hname

/-- A position of the path has its edge, if need be after redrawing the chain. -/
theorem exists_mem_redrawn {s : Session} (es : List Edge) {position : Nat} (hpos : 1 ≤ position)
    (hle : position ≤ s.length) :
    ∃ e ∈ if es.any fun e => e.id = edgeId s.id position then es else s.rebuildEdges es,
      e.id = edgeId s.id position := by
  split
  · rename_i hany
    obtain ⟨e, he, hid⟩ := List.any_eq_true.mp hany
    exact ⟨e, he, of_decide_eq_true hid⟩
  · obtain ⟨e, he, hid⟩ := exists_mem_edges hpos hle
    exact ⟨e, mem_rebuildEdges.mpr (.inr he), hid⟩

/-- The edge of a position can be found, once it is made sure that there is one. -/
theorem removeStep_edgeId {s : Session} {es : List Edge} {position : Nat} {now : Instant}
    {x : Execution} {rest : Session} (h : s.Addressed es)
    (hthere : ∃ e ∈ es, e.id = edgeId s.id position)
    (hat : s.removeAt? position now = some (x, rest)) :
    s.removeStep (edgeId s.id position) now es = (.ok (some x), rest.rebuildEdges es, rest) := by
  obtain ⟨e, he, hid⟩ := hthere
  obtain ⟨f, hf⟩ := Option.isSome_iff_exists.mp
    (List.find?_isSome.mpr ⟨e, he, decide_eq_true hid⟩ :
      (es.find? fun e => e.id = edgeId s.id position).isSome = true)
  have hname : f.id = edgeId s.id position := by
    simpa only [decide_eq_true_eq] using List.find?_some hf
  obtain ⟨hown, hstep⟩ := h f (List.mem_of_find?_eq_some hf) position hname
  rw [removeStep, hf]
  simp only [hown, if_true, hstep, Option.bind_some, hat]

/-- The places of a node in a list of executions, counted from one. -/
def placesOf (node : NodeId) (xs : List Execution) : List Nat :=
  (xs.zipIdx 1).filterMap fun (e, i) => if e.node = node then some i else none

theorem placesOf_concat (node : NodeId) (xs : List Execution) (x : Execution) :
    placesOf node (xs ++ [x]) =
      placesOf node xs ++ if x.node = node then [xs.length + 1] else [] := by
  rw [placesOf, List.zipIdx_append, List.filterMap_append, placesOf, Nat.add_comm 1]
  by_cases h : x.node = node <;> simp [h]

/-- What a session is after a node was taken out of it. -/
def without (s : Session) (node : NodeId) (now : Instant) : Session :=
  let rest := s.executions.filter fun e => e.node ≠ node
  { s with executions := rest, lastUpdate := now, overall := lastState rest }

/-- Taking out the places of a node, the last one first, leaves `tail`, which is behind them, and
of the others what is not of the node. By induction from the end: what was taken out already was
in `tail`. -/
theorem removePositions_placesOf (node : NodeId) (now : Instant) (xs : List Execution) :
    ∀ (tail : List Execution) (count : Nat) (es : List Edge) (s : Session),
      s.executions = xs ++ tail → s.Addressed es →
      ∃ es' s', s.removePositions now count es (placesOf node xs).reverse =
          (.ok (count + xs.countP fun e => e.node = node), es', s') ∧
        s'.id = s.id ∧ s'.executions = (xs.filter fun e => e.node ≠ node) ++ tail ∧
        (node ∉ xs.map Execution.node → es' = es ∧ s' = s) ∧
        (node ∈ xs.map Execution.node → es' = s'.rebuildEdges es ∧ s'.lastUpdate = now ∧
          s'.overall = lastState s'.executions) := by
  induction xs using List.reverseRecOn with
  | nil =>
    intro tail count es s hs _
    exact ⟨es, s, rfl, rfl, hs, fun _ => ⟨rfl, rfl⟩, fun h => absurd h List.not_mem_nil⟩
  | append_singleton ys x ih =>
    intro tail count es s hs haddr
    rw [placesOf_concat]
    by_cases hx : x.node = node
    · -- the last of the places comes first
      have hget : s.executions[ys.length]? = some x := by
        rw [hs, List.append_assoc, List.getElem?_append_right (Nat.le_refl _), Nat.sub_self]
        rfl
      have herase : s.executions.eraseIdx ys.length = ys ++ tail := by
        rw [hs, List.append_assoc, List.eraseIdx_append_of_length_le (Nat.le_refl _), Nat.sub_self]
        rfl
      obtain ⟨rest, hrest⟩ : ∃ rest, s.removeAt? (ys.length + 1) now = some (x, rest) :=
        ⟨_, removeAt?_eq_some.mpr ⟨Nat.le_add_left .., hget, rfl⟩⟩
      obtain ⟨-, -, hfields⟩ := removeAt?_eq_some.mp hrest
      rw [Nat.add_sub_cancel, herase] at hfields
      have hlength : ys.length + 1 ≤ s.length := (List.getElem?_eq_some_iff.mp hget).1
      -- the edge of that place is there, if need be after redrawing the chain
      obtain ⟨es₁, hes₁, haddr₁, hthere, hsame⟩ : ∃ es₁,
          (if es.any fun e => e.id = edgeId s.id (ys.length + 1) then es
            else s.rebuildEdges es) = es₁ ∧ s.Addressed es₁ ∧
          (∃ e ∈ es₁, e.id = edgeId s.id (ys.length + 1)) ∧
          rest.rebuildEdges es₁ = rest.rebuildEdges es := by
        refine ⟨_, rfl, ?_, exists_mem_redrawn es (Nat.le_add_left ..) hlength, ?_⟩
        · split
          · exact haddr
          · exact haddr.rebuildEdges rfl
        · split
          · rfl
          · exact rebuildEdges_rebuildEdges (id_rest hrest) es
      have hid : rest.id = s.id := id_rest hrest
      obtain ⟨es', s', hrun, hid', hexec, hnone, hsome⟩ := ih tail (count + 1)
        (rest.rebuildEdges es₁) rest (by rw [hfields]) (haddr₁.rebuildEdges hid)
      refine ⟨es', s', ?_, hid'.trans hid, ?_, ?_, ?_⟩
      · rw [if_pos hx, List.reverse_append, List.reverse_singleton, List.singleton_append,
          removePositions]
        simp only [hes₁, removeStep_edgeId haddr₁ hthere hrest, Option.isSome_some, if_true]
        rw [hrun]
        simp [hx, Nat.add_assoc, Nat.add_comm 1]
      · rw [hexec]
        simp [hx]
      · intro hmem
        exact absurd (by simp [hx]) hmem
      · intro _
        by_cases hmore : node ∈ ys.map Execution.node
        · obtain ⟨hes', htime, hstate⟩ := hsome hmore
          exact ⟨by rw [hes', hsame, rebuildEdges_rebuildEdges hid'], htime, hstate⟩
        · obtain ⟨rfl, rfl⟩ := hnone hmore
          exact ⟨hsame, by rw [hfields], by rw [hfields]⟩
    · obtain ⟨es', s', hrun, hid', hexec, hnone, hsome⟩ := ih (x :: tail) count es s
        (by rw [hs, List.append_assoc]; rfl) haddr
      refine ⟨es', s', ?_, hid', ?_, ?_, ?_⟩
      · rw [if_neg hx, List.append_nil, hrun]
        simp [hx]
      · rw [hexec]
        simp [hx]
      · intro hmem
        refine hnone fun h => hmem ?_
        rw [List.map_append]
        exact List.mem_append_left _ h
      · intro hmem
        refine hsome ?_
        rcases List.mem_append.mp (List.map_append .. ▸ hmem) with h | h
        · exact h
        · exact absurd (List.mem_singleton.mp h).symm hx

/-- Taking out a node that ran leaves exactly the executions of the other nodes, and a chain. -/
theorem removeNode_eq {s : Session} {es : List Edge} {node : NodeId} (now : Instant)
    (haddr : s.Addressed es) (h : s.contains node = true) :
    s.removeNode node now es =
      (.ok (s.executions.countP fun e => e.node = node), (s.without node now).rebuildEdges es,
        s.without node now) := by
  obtain ⟨es', s', hrun, hid, hexec, -, hsome⟩ := removePositions_placesOf node now s.executions
    [] 0 es s (List.append_nil _).symm haddr
  obtain ⟨rfl, htime, hstate⟩ := hsome (by simpa [contains, path] using h)
  rw [List.append_nil] at hexec
  have hs' : s' = s.without node now := by
    rw [hexec] at hstate
    cases s'
    simp only at hid hexec htime hstate
    simp only [without, hid, hexec, htime, hstate]
  rw [removeNode, positionsOf, ← placesOf, hrun, Nat.zero_add, hs']

theorem not_mem_path_without (s : Session) (node : NodeId) (now : Instant) :
    node ∉ (s.without node now).path := by
  simp [without, path]

end Session

end Runbook
