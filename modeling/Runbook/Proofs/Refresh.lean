import Runbook.Proofs.DerivedEdges
import Runbook.Proofs.EdgeNames

/-!
# Derived edges found anew

Stale derived edges are not read, so finding them again changes nothing. Each dependency and each
inheritance edge depends on its two ends only, so deleting a node leaves those between others as
they are.

* `Relations.infer_filter`: only method edges are read of the edges that there are
* `Graph.refresh_again`: what a refreshed graph holds, and that another refresh leaves it
* `Relations.infer_dropNode`: what deleting a node does to the derived edges
-/

namespace Runbook

/-! ## Refreshing -/

namespace Relations

variable {nodes : List Node}

/-- Edges tell nothing about how nodes are related unless they are method edges. -/
theorem infer_filter {existing : List Edge} {p : Edge → Bool}
    (h : ∀ e ∈ existing, e.kind = .method → p e = true) :
    infer nodes (existing.filter p) = infer nodes existing := by
  have hmethod : (existing.filter p).filter (fun e => e.kind = .method) =
      existing.filter fun e => e.kind = .method := by
    rw [List.filter_filter]
    refine List.filter_congr fun e he => ?_
    by_cases hkind : e.kind = .method <;> simp [hkind, h e he]
  simp only [infer, overrides, overriddenNames, hmethod]

theorem isDerived_of_mem_infer {existing : List Edge} {e : Edge} (h : e ∈ infer nodes existing) :
    e.isDerived = true := by
  rcases (kind_of_mem_infer h).1 with hk | hk | hk <;> rw [Edge.isDerived, hk] <;> rfl

end Relations

namespace Graph

variable (g : Graph)

/-- Of the edges of a graph, derived ones are not read. -/
theorem infer_authored : Relations.infer g.nodes g.authored = Relations.infer g.nodes g.edges :=
  Relations.infer_filter fun e _ hkind => by rw [Edge.isDerived, hkind]; rfl

/-- Derived edges that are found anew leave the authored ones as they are. -/
@[simp] theorem authored_refresh : g.refresh.authored = g.authored := by
  have hauthored : g.authored.filter (fun e => !e.isDerived) = g.authored :=
    List.filter_eq_self.mpr fun e he => (List.mem_filter.mp he).2
  have hderived : (Relations.infer g.nodes g.edges).filter (fun e => !e.isDerived) = [] :=
    List.filter_eq_nil_iff.mpr fun e he => by simp [Relations.isDerived_of_mem_infer he]
  rw [refresh, authored, List.filter_append, hauthored, hderived, List.append_nil]

@[simp] theorem derived_refresh :
    g.refresh.derived = Relations.infer g.nodes g.edges := by
  have hauthored : g.authored.filter Edge.isDerived = [] :=
    List.filter_eq_nil_iff.mpr fun e he => by simpa using (List.mem_filter.mp he).2
  have hderived : (Relations.infer g.nodes g.edges).filter Edge.isDerived =
      Relations.infer g.nodes g.edges :=
    List.filter_eq_self.mpr fun e he => Relations.isDerived_of_mem_infer he
  rw [refresh, derived, List.filter_append, hauthored, hderived, List.nil_append]

/-- What is found in a refreshed graph is what was found before. -/
theorem infer_refresh :
    Relations.infer g.refresh.nodes g.refresh.edges = Relations.infer g.nodes g.edges := by
  rw [← infer_authored, authored_refresh]
  exact g.infer_authored

/-- Edges of a derived kind are in a refreshed graph exactly as they were found. -/
theorem countP_refresh {kind : Edge.Kind} (h : kind.isDerived = true) :
    g.refresh.edges.countP (fun e => e.kind = kind) =
      (Relations.infer g.nodes g.edges).countP fun e => e.kind = kind := by
  have hauthored : g.authored.countP (fun e => e.kind = kind) = 0 :=
    List.countP_eq_zero.mpr fun e he hkind => by
      have hnot := (List.mem_filter.mp he).2
      rw [Edge.isDerived, of_decide_eq_true hkind, h] at hnot
      cases hnot
  rw [refresh, List.countP_append, hauthored, Nat.zero_add]

/-- Refreshing keeps the nodes, the notes and the authored edges in their order, puts behind these
what is found from the authored edges alone, and counts the derived edges that are there then.
Refreshing again changes nothing and counts the same. -/
theorem refresh_again :
    g.refresh.edges = g.authored ++ Relations.infer g.nodes g.authored ∧
    g.refresh.nodes = g.nodes ∧ g.refresh.metadata = g.metadata ∧
    g.refreshSummary.dependency = g.refresh.edges.countP (fun e => e.kind = .dependency) ∧
    g.refreshSummary.inheritance = g.refresh.edges.countP (fun e => e.kind = .inheritance) ∧
    g.refreshSummary.overrides = g.refresh.edges.countP (fun e => e.kind = .overrides) ∧
    g.refresh.refresh.edges = g.refresh.edges ∧
    g.refresh.refreshSummary = g.refreshSummary := by
  refine ⟨by rw [infer_authored, refresh], rfl, rfl, (countP_refresh g rfl).symm,
    (countP_refresh g rfl).symm, (countP_refresh g rfl).symm, ?edges, ?summary⟩
  case edges =>
    show g.refresh.authored ++ Relations.infer g.refresh.nodes g.refresh.edges = g.refresh.edges
    rw [authored_refresh, infer_refresh, refresh]
  case summary => rw [refreshSummary, infer_refresh, refreshSummary]

/-- Where names differ, no node is left of a name that was taken out. -/
theorem eraseP_eq_filter {nodes : List Node} (h : (nodes.map Node.id).Nodup) (id : NodeId) :
    nodes.eraseP (fun n => n.id = id) = nodes.filter fun n => n.id ≠ id := by
  induction nodes with
  | nil => rfl
  | cons n rest ih =>
    obtain ⟨hn, hrest⟩ := List.nodup_cons.mp h
    by_cases hid : n.id = id
    · have hothers : rest.filter (fun n => n.id ≠ id) = rest :=
        List.filter_eq_self.mpr fun m hm => decide_eq_true fun heq =>
          hn (List.mem_map.mpr ⟨m, hm, heq.trans hid.symm⟩)
      rw [List.eraseP_cons_of_pos (by simp [hid]), List.filter_cons_of_neg (by simp [hid]),
        hothers]
    · rw [List.eraseP_cons_of_neg (by simp [hid]), List.filter_cons_of_pos (by simp [hid]),
        ih hrest]

end Graph

/-! ## Deleting a node -/

namespace Relations

variable {nodes : List Node} {node : NodeId}

/-- The nodes of other names. -/
def others (node : NodeId) (nodes : List Node) : List Node := nodes.filter fun n => n.id ≠ node

theorem mem_others {n : Node} : n ∈ others node nodes ↔ n ∈ nodes ∧ n.id ≠ node := by
  simp [others]

theorem nodup_others (h : (nodes.map Node.id).Nodup) : ((others node nodes).map Node.id).Nodup :=
  h.sublist (List.filter_sublist.map Node.id)

theorem touches_eq_false {e : Edge} :
    e.touches node = false ↔ e.source ≠ node ∧ e.target ≠ node := by
  simp [Edge.touches]

/-- What two nodes share depends on these two only. -/
theorem shares_others {source target : NodeId} {name : String} :
    Shares (others node nodes) source target name ↔
      Shares nodes source target name ∧ source ≠ node ∧ target ≠ node := by
  simp only [Shares, mem_others]
  grind

/-- Both lists are in strict order, so it is enough that they have the same edges. -/
theorem dependencies_others :
    dependencies (others node nodes) = (dependencies nodes).filter fun e => !e.touches node := by
  refine (pairwise_dependencies _).eq_of_mem_iff ((pairwise_dependencies nodes).filter _) ?_
  intro e
  have hshared {source target : NodeId} (hs : source ≠ node) (ht : target ≠ node)
      (names : List String) :
      IsShared (others node nodes) source target names ↔ IsShared nodes source target names := by
    simp [IsShared, shares_others, hs, ht]
  simp only [List.mem_filter, mem_dependencies, shares_others, Bool.not_eq_true', touches_eq_false]
  constructor
  · rintro ⟨source, target, names, ⟨name, hname, hs, ht⟩, hnames, rfl⟩
    exact ⟨⟨source, target, names, ⟨name, hname⟩, (hshared hs ht names).mp hnames, rfl⟩, hs, ht⟩
  · rintro ⟨⟨source, target, names, ⟨name, hname⟩, hnames, rfl⟩, hs, ht⟩
    exact ⟨source, target, names, ⟨name, hname, hs, ht⟩, (hshared hs ht names).mpr hnames, rfl⟩

theorem inheritance_others (h : (nodes.map Node.id).Nodup) :
    inheritance (others node nodes) (dependencies (others node nodes)) =
      (inheritance nodes (dependencies nodes)).filter fun e => !e.touches node := by
  rw [inheritance, inheritance, List.filter_map]
  refine congrArg (List.map (edgeOf .inheritance)) (Row.sorted_eq_filter fun r => ?_)
  rw [mem_inheritedNames_dependencies (nodup_others h), mem_inheritedNames_dependencies h]
  simp only [mem_others, Function.comp_apply, Bool.not_eq_true', touches_eq_false, edgeOf]
  grind

/-- An override that is there without a node was there with it, and between two others. -/
theorem IsOverride.of_others {existing existing' : List Edge} (he : existing' ⊆ existing) {r : Row}
    (h : IsOverride (others node nodes) existing' r) :
    IsOverride nodes existing r ∧ r.source ≠ node ∧ r.target ≠ node := by
  have leads {source target : NodeId} (hl : Wiring.Leads existing' .method source target) :
      Wiring.Leads existing .method source target := by
    obtain ⟨e, hmem, hedge⟩ := hl
    exact ⟨e, he hmem, hedge⟩
  obtain ⟨m, hm, o, ho, hsource, htarget, hmkind, hokind,
    ⟨c, hc, p, hp, hmc, hop, href⟩, hnames⟩ := h
  rw [mem_others] at hm ho hc hp
  exact ⟨⟨m, hm.1, o, ho.1, hsource, htarget, hmkind, hokind,
    ⟨c, hc.1, p, hp.1, leads hmc, leads hop, href⟩, hnames⟩, hsource ▸ hm.2, htarget ▸ ho.2⟩

theorem overrides_others (h : (nodes.map Node.id).Nodup) {existing existing' : List Edge}
    (he : existing' ⊆ existing) :
    (overrides (others node nodes) existing'
        (inheritance (others node nodes) (dependencies (others node nodes)))).Sublist
      ((overrides nodes existing (inheritance nodes (dependencies nodes))).filter
        fun e => !e.touches node) := by
  have hrows : overriddenNames (others node nodes) existing'
        (inheritance (others node nodes) (dependencies (others node nodes))) ⊆
      (overriddenNames nodes existing (inheritance nodes (dependencies nodes))).filter
        fun r => !(edgeOf .overrides r).touches node := by
    intro r hr
    obtain ⟨hover, hends⟩ :=
      ((mem_overriddenNames_inheritance (nodup_others h)).mp hr).of_others he
    refine List.mem_filter.mpr ⟨(mem_overriddenNames_inheritance h).mpr hover, ?_⟩
    rw [Bool.not_eq_true', touches_eq_false]
    exact hends
  have hsorted := Row.sorted_sublist hrows
  rw [Row.sorted_eq_filter fun r => List.mem_filter] at hsorted
  rw [overrides, overrides, List.filter_map]
  exact hsorted.map _

/-- When a node is deleted, whichever edges go with it, the dependency edges and the inheritance
edges that do not touch it stay as they are and none comes, all in their order. Of the overrides
edges that do not touch it, some may go, and none comes. -/
theorem infer_dropNode {g : Graph} (h : (g.nodes.map Node.id).Nodup) (node : NodeId)
    (keep : Edge → Bool) :
    let left := (g.keepEdges keep).dropNode node
    let before := (infer g.nodes g.edges).filter fun e => !e.touches node
    let after := infer left.nodes left.edges
    after.filter (fun e => e.kind = .dependency) = before.filter (fun e => e.kind = .dependency) ∧
    after.filter (fun e => e.kind = .inheritance) =
      before.filter (fun e => e.kind = .inheritance) ∧
    (after.filter fun e => e.kind = .overrides).Sublist
      (before.filter fun e => e.kind = .overrides) := by
  intro left before after
  have hnodes : left.nodes = others node g.nodes := Graph.eraseP_eq_filter h node
  have hedges : left.edges ⊆ g.edges := List.filter_sublist.subset
  have hbefore (kind : Edge.Kind) : before.filter (fun e => e.kind = kind) =
      ((infer g.nodes g.edges).filter fun e => e.kind = kind).filter fun e => !e.touches node :=
    List.filter_comm ..
  simp only [hbefore, after, hnodes, filter_infer]
  simp only [if_pos, reduceCtorEq, if_false, List.nil_append, List.append_nil]
  exact ⟨dependencies_others, inheritance_others h, overrides_others h hedges⟩

/-- The family with a second child, each with a method that overrides that of their parent. An
inheritance edge is left from before. -/
def household : Graph where
  nodes := family ++
    [{ Node.new "twin" .concreteClass with
        dependencies := ⟨.ofList ["Base"], .empty, .empty, .empty⟩ },
      { Node.new "twin.run" .method with definitions := ⟨.empty, .ofList ["Twin.run"], .empty⟩ }]
  edges := familyEdges ++
    [⟨"m3", "twin.run", "twin", .method, none⟩, ⟨"stale", "child", "base", .inheritance, none⟩]
  metadata := .empty

/-- Without the first child and the authored edges at it, its method overrides none, though the
edge did not touch the child. -/
theorem infer_dropNode_household :
    (household.nodes.map Node.id).Nodup ∧
    let left := (household.keepEdges fun e => e.isDerived || !e.touches "child").dropNode "child"
    let before := (infer household.nodes household.edges).filter fun e => !e.touches "child"
    let after := infer left.nodes left.edges
    (after.filter (fun e => e.kind = .dependency) = before.filter (fun e => e.kind = .dependency) ∧
    after.filter (fun e => e.kind = .inheritance) =
      before.filter (fun e => e.kind = .inheritance) ∧
    (after.filter fun e => e.kind = .overrides).Sublist
      (before.filter fun e => e.kind = .overrides)) ∧
    before.map Edge.id = ["dependency:twin->base", "inheritance:twin->base:Base",
      "overrides:child.run->base.run:run", "overrides:twin.run->base.run:run"] ∧
    after.map Edge.id = ["dependency:twin->base", "inheritance:twin->base:Base",
      "overrides:twin.run->base.run:run"] := by
  have hnames : (household.nodes.map Node.id).Nodup := by decide +kernel
  exact ⟨hnames, infer_dropNode hnames "child" _, by decide +kernel, by decide +kernel⟩

end Relations

end Runbook
