import Mathlib.Data.List.Induction
import Mathlib.Data.List.Nodup
import Runbook.Proofs.Refresh

/-!
# Nodes in the order they came

The nodes of a graph are a list that is searched from the front. As long as no two of them have one
name, the list is a map from names to nodes that remembers in which order the names came in: putting
in a node under a name that is there changes what lies under it and nothing else, and a new name
comes last.

* `Graph.Edit`, `Graph.Edit.onGraph`: nodes are put in and taken out
* `NodeMap`, `Graph.Edit.onMap`: the same for a map that remembers the order
* `Graph.onMap_toMap`: one edit does the same to a graph and to its map
* `Graph.toMap_after`: and so do all of them together
* `Graph.LastUpsert`, `Graph.node?_after`: the last edit about a name says what lies under it
* `Graph.nodes_after`: all of this, for every sequence of edits
-/

namespace Runbook

/-- A map from names to nodes that remembers the order in which the names came in. -/
structure NodeMap where
  /-- the names in order -/
  order : List NodeId
  /-- the node under a name -/
  node : NodeId → Option Node

namespace Graph

/-! ## Edits -/

/-- A change of the nodes. -/
inductive Edit where
  /-- puts in a node -/
  | upsert (node : Node)
  /-- takes out a node -/
  | take (id : NodeId)

namespace Edit

/-- The name that an edit is about. -/
def id : Edit → NodeId
  | upsert node => node.id
  | take id => id

/-- What an edit leaves under its name. -/
def left : Edit → Option Node
  | upsert node => some node
  | take _ => none

/-- What an edit of a graph gives, and the graph afterwards. -/
def onGraph (e : Edit) (g : Graph) : Option Node × Graph :=
  match e with
  | upsert node => (none, g.upsertNode node)
  | take id => g.takeNode? id

/-- What an edit of a map gives, and the map afterwards. A new name comes last, and a name that is
taken out is forgotten. -/
def onMap (e : Edit) (m : NodeMap) : Option Node × NodeMap where
  fst := match e with
    | upsert _ => none
    | take id => m.node id
  snd := {
    order := match e with
      | upsert node => if node.id ∈ m.order then m.order else m.order ++ [node.id]
      | take id => m.order.erase id
    node := fun id => if id = e.id then e.left else m.node id }

end Edit

/-- Does some edits one after the other, and gives what each of them gave. -/
def runEdits {σ : Type} (step : Edit → σ → Option Node × σ) :
    List Edit → σ → List (Option Node) × σ
  | [], s => ([], s)
  | e :: rest, s =>
    ((step e s).1 :: (runEdits step rest (step e s).2).1, (runEdits step rest (step e s).2).2)

/-- What some edits of a graph gave. -/
def given (g : Graph) (edits : List Edit) : List (Option Node) := (runEdits Edit.onGraph edits g).1

/-- The graph after some edits. -/
def after (g : Graph) (edits : List Edit) : Graph := (runEdits Edit.onGraph edits g).2

/-- The names of the nodes in order. -/
def nodeIds (g : Graph) : List NodeId := g.nodes.map Node.id

/-- The nodes of a graph as a map. -/
def toMap (g : Graph) : NodeMap := ⟨g.nodeIds, g.node?⟩

/-- The last edit about a name put in a node. -/
def LastUpsert (edits : List Edit) (id : NodeId) (node : Node) : Prop :=
  node.id = id ∧
    ∃ earlier later, edits = earlier ++ .upsert node :: later ∧ ∀ e ∈ later, e.id ≠ id

/-! ## Lists of nodes -/

section Lists

variable {nodes : List Node} {id : NodeId}

theorem findNode?_isSome_iff : (findNode? nodes id).isSome = true ↔ id ∈ nodes.map Node.id := by
  rw [findNode?, List.find?_isSome, List.mem_map]
  simp only [decide_eq_true_eq]

/-- Where names differ, to change the first node of a name is to change the one of that name. -/
theorem modifyFirst_eq_map (h : (nodes.map Node.id).Nodup) (f : Node → Node) :
    modifyFirst id f nodes = nodes.map fun n => if n.id = id then f n else n := by
  induction nodes with
  | nil => rfl
  | cons n rest ih =>
    obtain ⟨hn, hrest⟩ := List.nodup_cons.mp h
    rw [modifyFirst, List.map_cons]
    split
    · rename_i hid
      have hothers : rest.map (fun m => if m.id = id then f m else m) = rest.map fun m => m :=
        List.map_congr_left fun m hm => if_neg fun heq =>
          hn (List.mem_map.mpr ⟨m, hm, heq.trans hid.symm⟩)
      rw [hothers, List.map_id']
    · rw [ih hrest]

/-- A node that takes the place of one of its name is found under that name, and the others are
found as before. -/
theorem findNode?_modifyFirst {node : Node} (hthere : node.id ∈ nodes.map Node.id) :
    findNode? (modifyFirst node.id (fun _ => node) nodes) id =
      if id = node.id then some node else findNode? nodes id := by
  induction nodes with
  | nil => exact absurd hthere List.not_mem_nil
  | cons n rest ih =>
    rw [modifyFirst]
    split
    · rename_i hid
      by_cases h : id = node.id
      · simp [findNode?, h]
      · simp [findNode?, h, hid, Ne.symm h]
    · rename_i hid
      have hrest := ih ((List.mem_cons.mp hthere).resolve_left (Ne.symm hid))
      simp only [findNode?] at hrest ⊢
      rw [List.find?_cons, List.find?_cons, hrest]
      by_cases h : id = node.id
      · simp [h, hid]
      · simp [h]

end Lists

/-! ## One edit -/

variable {g : Graph} {id : NodeId}

theorem hasNode_iff : g.hasNode id = true ↔ id ∈ g.nodeIds := findNode?_isSome_iff

/-- Where a node is put in: in the place of the one of its name, or at the end. -/
theorem upsertNode_eq (h : g.nodeIds.Nodup) (node : Node) : g.upsertNode node = { g with
    nodes := if node.id ∈ g.nodeIds then g.nodes.map fun n => if n.id = node.id then node else n
      else g.nodes ++ [node] } := by
  rw [upsertNode, upsert, modifyFirst_eq_map h]
  congr 1
  exact if_congr findNode?_isSome_iff rfl rfl

/-- What is taken out: the node of that name and no other. -/
theorem takeNode?_eq (h : g.nodeIds.Nodup) (id : NodeId) :
    g.takeNode? id = (g.node? id, { g with nodes := g.nodes.filter fun n => n.id ≠ id }) := by
  rw [takeNode?, dropNode, eraseP_eq_filter h]

theorem nodeIds_upsertNode (h : g.nodeIds.Nodup) (node : Node) : (g.upsertNode node).nodeIds =
    if node.id ∈ g.nodeIds then g.nodeIds else g.nodeIds ++ [node.id] := by
  rw [upsertNode_eq h, nodeIds]
  simp only
  split
  · rw [List.map_map]
    refine List.map_congr_left fun n _ => ?_
    rw [Function.comp_apply]
    split
    · exact Eq.symm ‹_›
    · rfl
  · rw [List.map_append]
    rfl

theorem nodeIds_dropNode (g : Graph) (id : NodeId) :
    (g.dropNode id).nodeIds = g.nodeIds.erase id := by
  rw [nodeIds, dropNode, nodeIds, List.erase_eq_eraseP', List.eraseP_map]
  rfl

theorem node?_upsertNode (g : Graph) (node : Node) (id : NodeId) :
    (g.upsertNode node).node? id = if id = node.id then some node else g.node? id := by
  rw [node?, upsertNode, upsert]
  simp only
  split
  · rename_i hthere
    exact findNode?_modifyFirst (findNode?_isSome_iff.mp hthere)
  · rename_i hnew
    rw [findNode?, List.find?_append]
    by_cases h : id = node.id
    · have hnone : findNode? g.nodes node.id = none := Option.not_isSome_iff_eq_none.mp hnew
      rw [findNode?] at hnone
      rw [h, hnone, if_pos rfl]
      simp
    · simp [h, Ne.symm h, node?, findNode?]

theorem node?_dropNode (h : g.nodeIds.Nodup) (id other : NodeId) :
    (g.dropNode id).node? other = if other = id then none else g.node? other := by
  rw [node?, dropNode, eraseP_eq_filter h, findNode?, List.find?_filter]
  split
  · rename_i hother
    refine List.find?_eq_none.mpr fun n _ => ?_
    simp [hother]
  · rename_i hother
    rw [node?, findNode?]
    congr 1
    funext n
    by_cases hn : n.id = other <;> simp [hn, hother]

/-- One edit does the same to a graph and to its map, and leaves everything but the nodes. -/
theorem onMap_toMap (h : g.nodeIds.Nodup) (e : Edit) :
    e.onMap g.toMap = ((e.onGraph g).1, (e.onGraph g).2.toMap) ∧ (e.onGraph g).2.nodeIds.Nodup ∧
      (e.onGraph g).2.edges = g.edges ∧ (e.onGraph g).2.metadata = g.metadata := by
  cases e with
  | upsert node =>
    refine ⟨?_, ?_, rfl, rfl⟩
    · rw [Edit.onMap, Edit.onGraph, toMap, toMap, nodeIds_upsertNode h,
        funext (node?_upsertNode g node)]
      rfl
    · rw [Edit.onGraph, nodeIds_upsertNode h]
      split
      · exact h
      · exact h.append (List.nodup_singleton _) (List.disjoint_singleton.mpr ‹_›)
  | take id =>
    refine ⟨?_, ?_, rfl, rfl⟩
    · rw [Edit.onMap, Edit.onGraph, takeNode?, toMap, toMap, nodeIds_dropNode,
        funext (node?_dropNode h id)]
      rfl
    · rw [Edit.onGraph, takeNode?, nodeIds_dropNode]
      exact h.erase id

/-! ## Many edits -/

theorem runEdits_concat {σ : Type} (step : Edit → σ → Option Node × σ) (edits : List Edit)
    (e : Edit) : ∀ s, runEdits step (edits ++ [e]) s =
      ((runEdits step edits s).1 ++ [(step e (runEdits step edits s).2).1],
        (step e (runEdits step edits s).2).2) := by
  induction edits with
  | nil => exact fun s => rfl
  | cons first rest ih =>
    intro s
    rw [List.cons_append, runEdits, ih, runEdits]
    rfl

theorem after_concat (g : Graph) (edits : List Edit) (e : Edit) :
    g.after (edits ++ [e]) = (e.onGraph (g.after edits)).2 := by
  rw [after, runEdits_concat]
  rfl

theorem given_concat (g : Graph) (edits : List Edit) (e : Edit) :
    g.given (edits ++ [e]) = g.given edits ++ [(e.onGraph (g.after edits)).1] := by
  rw [given, runEdits_concat]
  rfl

/-- Names still differ after any edits, which do the same to the graph and to its map and leave
everything but the nodes. -/
theorem toMap_after (h : g.nodeIds.Nodup) (edits : List Edit) :
    (g.after edits).nodeIds.Nodup ∧
      runEdits Edit.onMap edits g.toMap = (g.given edits, (g.after edits).toMap) ∧
      (g.after edits).edges = g.edges ∧ (g.after edits).metadata = g.metadata := by
  induction edits using List.reverseRecOn with
  | nil => exact ⟨h, rfl, rfl, rfl⟩
  | append_singleton edits e ih =>
    obtain ⟨hnodup, hmap, hedges, hmetadata⟩ := ih
    obtain ⟨hstep, hnodup', hedges', hmetadata'⟩ := onMap_toMap hnodup e
    rw [after_concat]
    refine ⟨hnodup', ?_, hedges'.trans hedges, hmetadata'.trans hmetadata⟩
    rw [runEdits_concat, hmap, given_concat]
    simp only [hstep]

/-- One more edit is the last one about its name, and for other names nothing changes. -/
theorem lastUpsert_concat {edits : List Edit} {e : Edit} {node : Node} :
    LastUpsert (edits ++ [e]) id node ↔
      if id = e.id then e.left = some node else LastUpsert edits id node := by
  constructor
  · rintro ⟨hid, earlier, later, hedits, hlater⟩
    rcases List.eq_nil_or_concat' later with rfl | ⟨later, last, rfl⟩
    · obtain ⟨-, rfl⟩ := List.append_inj' hedits rfl |>.imp_right (List.cons.inj · |>.1)
      exact (if_pos hid.symm).mpr rfl
    · rw [← List.cons_append, ← List.append_assoc] at hedits
      obtain ⟨rfl, heq⟩ := List.append_inj' hedits rfl
      obtain rfl := (List.cons.inj heq).1
      obtain ⟨hlater, hlast⟩ := List.forall_mem_append.mp hlater
      rw [if_neg (Ne.symm (hlast e (List.mem_singleton_self e)))]
      exact ⟨hid, earlier, later, rfl, hlater⟩
  · split
    · rename_i hid
      intro hleft
      cases e with
      | upsert other =>
        obtain rfl := Option.some.inj hleft
        exact ⟨hid.symm, edits, [], rfl, fun _ h => absurd h List.not_mem_nil⟩
      | take _ => cases hleft
    · rename_i hid
      rintro ⟨hnode, earlier, later, rfl, hlater⟩
      refine ⟨hnode, earlier, later ++ [e], by simp, ?_⟩
      exact List.forall_mem_append.mpr ⟨hlater, List.forall_mem_singleton.mpr (Ne.symm hid)⟩

/-- Where names differ, a node is found exactly if it is there. -/
theorem node?_eq_some_iff (h : g.nodeIds.Nodup) {node : Node} :
    g.node? id = some node ↔ node.id = id ∧ node ∈ g.nodes := by
  constructor
  · intro hfind
    exact ⟨by simpa using List.find?_some hfind, List.mem_of_find?_eq_some hfind⟩
  · rintro ⟨rfl, hmem⟩
    obtain ⟨other, hother⟩ := Option.isSome_iff_exists.mp
      (hasNode_iff.mpr (List.mem_map_of_mem hmem : node.id ∈ g.nodeIds))
    have hid : other.id = node.id := by simpa using List.find?_some hother
    rw [hother, List.inj_on_of_nodup_map h (List.mem_of_find?_eq_some hother) hmem hid]

/-- The nodes that are there from the start count as put in one by one. -/
theorem lastUpsert_nodes (h : g.nodeIds.Nodup) {node : Node} :
    LastUpsert (g.nodes.map .upsert) id node ↔ g.node? id = some node := by
  rw [node?_eq_some_iff h]
  constructor
  · rintro ⟨hid, earlier, later, hnodes, -⟩
    have hmem : Edit.upsert node ∈ g.nodes.map .upsert := hnodes ▸ List.mem_append_cons_self
    obtain ⟨other, hother, heq⟩ := List.mem_map.mp hmem
    exact ⟨hid, Edit.upsert.inj heq ▸ hother⟩
  · rintro ⟨rfl, hmem⟩
    obtain ⟨pre, post, hnodes⟩ := List.append_of_mem hmem
    rw [nodeIds, hnodes, List.map_append, List.map_cons, List.nodup_middle, List.nodup_cons] at h
    refine ⟨rfl, pre.map .upsert, post.map .upsert, by rw [hnodes]; simp, fun e he heq => ?_⟩
    obtain ⟨other, hother, rfl⟩ := List.mem_map.mp he
    exact h.1 (List.mem_append_right _ (List.mem_map.mpr ⟨other, hother, heq⟩))

/-- What lies under a name is what the last edit about it put there. -/
theorem node?_after (h : g.nodeIds.Nodup) (edits : List Edit) (id : NodeId) (node : Node) :
    (g.after edits).node? id = some node ↔ LastUpsert (g.nodes.map .upsert ++ edits) id node := by
  induction edits using List.reverseRecOn with
  | nil => rw [List.append_nil, lastUpsert_nodes h]; rfl
  | append_singleton edits e ih =>
    have hmap := (onMap_toMap (toMap_after h edits).1 e).1
    have hnode := congrArg (fun r => r.2.node id) hmap
    rw [after_concat, ← List.append_assoc, lastUpsert_concat, ← ih]
    show (e.onGraph (g.after edits)).2.toMap.node id = some node ↔ _
    rw [← hnode]
    simp only [Edit.onMap]
    split <;> rfl

/-- **Nodes in order.** From a graph whose nodes have names of their own, any edits lead to another
one. They give and leave the same as they do for a map that remembers in which order the names came
in. What is found under a name, and what is given when it is taken out, is the node that the last
edit about it put in, if it did. A node that is put in takes the place of the one of its name, or
comes last; what is taken out is the one node of that name; and the edges and notes are those that
there were. -/
theorem nodes_after (h : g.nodeIds.Nodup) (edits : List Edit) :
    (g.after edits).nodeIds.Nodup ∧
      runEdits Edit.onMap edits g.toMap = (g.given edits, (g.after edits).toMap) ∧
      (∀ id node, (g.after edits).node? id = some node ↔
        LastUpsert (g.nodes.map .upsert ++ edits) id node) ∧
      (∀ id, (g.after edits).hasNode id = true ↔
        ∃ node, LastUpsert (g.nodes.map .upsert ++ edits) id node) ∧
      (∀ node, (g.after edits).upsertNode node = { g.after edits with
        nodes := if node.id ∈ (g.after edits).nodeIds
          then (g.after edits).nodes.map fun n => if n.id = node.id then node else n
          else (g.after edits).nodes ++ [node] }) ∧
      (∀ id, (g.after edits).takeNode? id = ((g.after edits).node? id, { g.after edits with
        nodes := (g.after edits).nodes.filter fun n => n.id ≠ id })) ∧
      (g.after edits).edges = g.edges ∧ (g.after edits).metadata = g.metadata := by
  obtain ⟨hnodup, hmap, hedges, hmetadata⟩ := toMap_after h edits
  refine ⟨hnodup, hmap, node?_after h edits, fun id => ?_, upsertNode_eq hnodup,
    takeNode?_eq hnodup, hedges, hmetadata⟩
  rw [hasNode, Option.isSome_iff_exists]
  exact exists_congr fun node => node?_after h edits id node

/-- A graph of two nodes. -/
def twoNodes : Graph := { empty with nodes := [.new "a" .fragment, .new "b" .fragment] }

/-- One of them is replaced, the other one is taken out and comes back. -/
def comesBack : List Edit :=
  [.take "a", .upsert (.new "b" .library), .upsert (.new "a" .method), .take "c"]

theorem nodes_after_comesBack :
    twoNodes.nodeIds.Nodup ∧ (twoNodes.after comesBack).nodeIds.Nodup ∧
      (twoNodes.after comesBack).nodeIds = ["b", "a"] ∧
      twoNodes.given comesBack = [some (.new "a" .fragment), none, none, none] ∧
      (twoNodes.after comesBack).node? "b" = some (.new "b" .library) ∧
      (twoNodes.after comesBack).hasNode "a" = true := by
  have hnames : twoNodes.nodeIds.Nodup := by decide
  obtain ⟨hnodup, hmap, hnode, hhas, -⟩ := nodes_after hnames comesBack
  refine ⟨hnames, hnodup, ?_, ?_,
    (hnode "b" _).mpr ⟨rfl, twoNodes.nodes.map .upsert ++ comesBack.take 1, comesBack.drop 2, rfl,
      by decide⟩,
    (hhas "a").mpr ⟨.new "a" .method, rfl, twoNodes.nodes.map .upsert ++ comesBack.take 2,
      comesBack.drop 3, rfl, by decide⟩⟩
  · have horder : (runEdits Edit.onMap comesBack twoNodes.toMap).2.order = ["b", "a"] := by decide
    rwa [hmap] at horder
  · have hgiven : (runEdits Edit.onMap comesBack twoNodes.toMap).1 =
        [some (.new "a" .fragment), none, none, none] := rfl
    rwa [hmap] at hgiven

end Graph

end Runbook
