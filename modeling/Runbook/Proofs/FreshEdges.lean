import Mathlib.Data.List.Nodup
import Mathlib.Data.List.Perm.Subperm
import Mathlib.Data.Nat.Find
import Runbook.Graph
import Runbook.Proofs.EdgeNames

/-!
# Names for new edges

An edge that joins two nodes is named after them. If an edge has that name already, whichever nodes
it joins, the least number is put behind it that makes it free. There is one among the numbers up to
that of the edges, so the search for it ends, and a number of 32 bits is enough for fewer than 2³¹
edges. However many nodes are joined, no two of the new edges have one name.

* `Graph.IsFirstFree`: the name that an edge between two nodes should get
* `Graph.freeSuffix_eq`: what the search finds if there is something to be found
* `Graph.exists_free_le`: there is
* `Graph.edgeIds_connectAll`: the names of the edges once some nodes were joined
* `Graph.connectAll_fresh`: all of this, for every graph
-/

namespace Runbook.Graph

variable {g : Graph} {source target : NodeId} {id : EdgeId}

/-- The names of the edges. -/
def edgeIds (g : Graph) : List EdgeId := g.edges.map Edge.id

/-- The name of an edge between two nodes, as long as it is free. -/
def plainId (source target : NodeId) : EdgeId := source ++ "-" ++ target

/-- A name with a number behind it. -/
def numbered (base : String) (i : Nat) : EdgeId := base ++ "-" ++ toString i

/-- The name that an edge between two nodes should get. -/
inductive IsFirstFree (g : Graph) (source target : NodeId) : EdgeId → Prop
  /-- the names of the nodes, if no edge is called so -/
  | plain (hfree : plainId source target ∉ g.edgeIds) :
      IsFirstFree g source target (plainId source target)
  /-- with the least number from one on that makes it free, which is no greater than that of the
  edges -/
  | numbered {i : Nat} (htaken : plainId source target ∈ g.edgeIds) (hpos : 1 ≤ i)
      (hle : i ≤ g.edges.length) (hfree : numbered (plainId source target) i ∉ g.edgeIds)
      (hleast : ∀ j, 1 ≤ j → j < i → numbered (plainId source target) j ∈ g.edgeIds) :
      IsFirstFree g source target (numbered (plainId source target) i)

/-! ## Numbers behind a name -/

theorem toList_numbered (base : String) (i : Nat) :
    (numbered base i).toList = base.toList ++ '-' :: (toString i).toList := by
  simp [numbered]

/-- Different numbers make different names. -/
theorem numbered_inj {base : String} {i j : Nat} (h : numbered base i = numbered base j) :
    i = j := by
  have hlist := congrArg String.toList h
  rw [toList_numbered, toList_numbered] at hlist
  exact Text.toString_inj (List.cons.inj (List.append_cancel_left hlist)).2

theorem ne_numbered (base : String) (i : Nat) : base ≠ numbered base i := by
  intro h
  have hlength := congrArg (fun s => s.toList.length) h
  simp only [toList_numbered, List.length_append, List.length_cons] at hlength
  omega

/-! ## The search -/

theorem findEdge?_isNone_iff {edges : List Edge} :
    (findEdge? edges id).isNone = true ↔ id ∉ edges.map Edge.id := by
  rw [findEdge?, Option.isNone_iff_eq_none, List.find?_eq_none, List.mem_map, not_exists]
  refine forall_congr' fun e => ?_
  rw [not_and, decide_eq_true_eq]

/-- The search finds the least number that makes the name free, if one of those that it tries or
the one after them does. -/
theorem freeSuffix_eq {edges : List Edge} {base : String} {k : Nat}
    (hfree : numbered base k ∉ edges.map Edge.id) (fuel : Nat) : ∀ {i : Nat}, i ≤ k →
      k ≤ i + fuel → (∀ j, i ≤ j → j < k → numbered base j ∈ edges.map Edge.id) →
      freeSuffix edges base fuel i = numbered base k := by
  induction fuel with
  | zero =>
    intro i hik hki _
    rw [Nat.le_antisymm hik hki]
    rfl
  | succ fuel ih =>
    intro i hik hki hleast
    rw [freeSuffix]
    simp only [findEdge?_isNone_iff]
    split
    · rename_i hnone
      rcases Nat.eq_or_lt_of_le hik with rfl | hlt
      · rfl
      · exact absurd (hleast i (Nat.le_refl i) hlt) hnone
    · rename_i hsome
      have hne : i ≠ k := by
        rintro rfl
        exact hsome hfree
      exact ih (by omega) (by omega) fun j hij => hleast j (by omega)

/-- There are too few edges for a name and all its numbers up to that of the edges. -/
theorem exists_free_le {base : String} (htaken : base ∈ g.edgeIds) :
    ∃ i, 1 ≤ i ∧ i ≤ g.edges.length ∧ numbered base i ∉ g.edgeIds := by
  by_contra hnone
  simp only [not_exists, not_and, not_not] at hnone
  let names := base :: (List.range' 1 g.edges.length).map (numbered base)
  have hnodup : names.Nodup := by
    refine List.nodup_cons.mpr ⟨fun hmem => ?_, ?_⟩
    · obtain ⟨i, -, hi⟩ := List.mem_map.mp hmem
      exact ne_numbered base i hi.symm
    · exact List.Nodup.map (fun _ _ => numbered_inj) List.nodup_range'
  have hsubset : names ⊆ g.edgeIds := by
    refine List.cons_subset.mpr ⟨htaken, fun id hid => ?_⟩
    obtain ⟨i, hi, rfl⟩ := List.mem_map.mp hid
    rw [List.mem_range'_1] at hi
    exact hnone i hi.1 (by omega)
  have hlength := (List.subperm_of_subset hnodup hsubset).length_le
  simp only [names, edgeIds, List.length_cons, List.length_map, List.length_range'] at hlength
  omega

/-! ## The name that is found -/

/-- The name is not that of any edge. -/
theorem IsFirstFree.not_mem (h : g.IsFirstFree source target id) : id ∉ g.edgeIds := by
  cases h with
  | plain hfree => exact hfree
  | numbered _ _ _ hfree _ => exact hfree

/-- There is no other such name. -/
theorem IsFirstFree.unique {other : EdgeId} (h : g.IsFirstFree source target id)
    (h' : g.IsFirstFree source target other) : id = other := by
  cases h with
  | plain hfree =>
    cases h' with
    | plain => rfl
    | numbered htaken => exact absurd htaken hfree
  | @numbered i htaken hpos _ hfree hleast =>
    cases h' with
    | plain hfree' => exact absurd htaken hfree'
    | @numbered j _ hpos' _ hfree' hleast' =>
      rcases Nat.lt_trichotomy i j with hlt | rfl | hlt
      · exact absurd (hleast' i hpos hlt) hfree
      · rfl
      · exact absurd (hleast j hpos' hlt) hfree'

/-- It is the name that a new edge gets. -/
theorem isFirstFree_freshEdgeId (g : Graph) (source target : NodeId) :
    g.IsFirstFree source target (g.freshEdgeId source target) := by
  rw [freshEdgeId]
  simp only [edge?, findEdge?_isNone_iff]
  split
  · exact .plain ‹_›
  · rename_i htaken
    rw [not_not] at htaken
    have hexists := exists_free_le (g := g) htaken
    -- the least of the numbers that make the name free
    let k := Nat.find hexists
    obtain ⟨hpos, hle, hfree⟩ := Nat.find_spec hexists
    have hleast : ∀ j, 1 ≤ j → j < k → numbered (plainId source target) j ∈ g.edgeIds := by
      intro j hj hjk
      have hnot := Nat.find_min hexists hjk
      simp only [not_and, not_not] at hnot
      exact hnot hj (by omega)
    have hsearch : freeSuffix g.edges (plainId source target) g.edges.length 1 =
        numbered (plainId source target) k :=
      freeSuffix_eq hfree g.edges.length hpos (by omega) hleast
    rw [← plainId, hsearch]
    exact .numbered htaken hpos hle hfree hleast

theorem freshEdgeId_eq_iff :
    g.freshEdgeId source target = id ↔ g.IsFirstFree source target id :=
  ⟨fun h => h ▸ isFirstFree_freshEdgeId g source target,
    (isFirstFree_freshEdgeId g source target).unique⟩

/-! ## Joining nodes -/

/-- Two nodes that are to be joined, and the reason. -/
structure Join where
  /-- the node that the edge leaves -/
  source : NodeId
  /-- the node that it enters -/
  target : NodeId
  /-- the reason -/
  kind : Edge.Kind

/-- Joins nodes one after the other, and gives the names of the new edges. -/
def connectAll (g : Graph) : List Join → List EdgeId × Graph
  | [] => ([], g)
  | j :: rest =>
    let (id, joined) := g.connect j.source j.target j.kind
    let (ids, last) := joined.connectAll rest
    (id :: ids, last)

theorem edgeIds_connect (g : Graph) (source target : NodeId) (kind : Edge.Kind) :
    (g.connect source target kind).2.edgeIds =
      g.edgeIds ++ [(g.connect source target kind).1] := by
  rw [edgeIds, connect, addEdge, List.map_append]
  rfl

/-- The names of the new edges come behind those that were there. -/
theorem edgeIds_connectAll (joins : List Join) : ∀ g : Graph,
    (g.connectAll joins).2.edgeIds = g.edgeIds ++ (g.connectAll joins).1 := by
  induction joins with
  | nil => exact fun g => (List.append_nil _).symm
  | cons j rest ih =>
    intro g
    rw [connectAll]
    simp only
    rw [ih, edgeIds_connect, List.append_assoc, List.singleton_append]

/-- No new edge has a name that was there, or that of another new one. -/
theorem nodup_connectAll (joins : List Join) : ∀ g : Graph,
    (g.connectAll joins).1.Nodup ∧ g.edgeIds.Disjoint (g.connectAll joins).1 := by
  induction joins with
  | nil => exact fun g => ⟨List.nodup_nil, List.disjoint_nil_right _⟩
  | cons j rest ih =>
    intro g
    rw [connectAll]
    simp only
    obtain ⟨hrest, hapart⟩ := ih (g.connect j.source j.target j.kind).2
    rw [edgeIds_connect, List.disjoint_append_left, List.singleton_disjoint] at hapart
    have hnew : (g.connect j.source j.target j.kind).1 ∉ g.edgeIds :=
      (isFirstFree_freshEdgeId g j.source j.target).not_mem
    exact ⟨List.nodup_cons.mpr ⟨hapart.2, hrest⟩,
      List.disjoint_cons_right.mpr ⟨hnew, hapart.1⟩⟩

/-- **New edges have new names.** An edge that joins two nodes gets the name of the two if no edge
has it, or else the least number behind it that makes it free, which is no greater than that of the
edges. So one more edge leaves it as it was whether all names differ; and however many nodes are
joined, the names of the new edges differ from one another and from all that were there. -/
theorem connectAll_fresh (g : Graph) :
    (∀ source target id,
      (g.freshEdgeId source target = id ↔ g.IsFirstFree source target id) ∧
      g.freshEdgeId source target ∉ g.edgeIds) ∧
    (∀ source target kind,
      (g.connect source target kind).1 = g.freshEdgeId source target ∧
      (g.connect source target kind).2.edgeIds = g.edgeIds ++ [g.freshEdgeId source target] ∧
      ((g.connect source target kind).2.edgeIds.Nodup ↔ g.edgeIds.Nodup)) ∧
    ∀ joins,
      (g.connectAll joins).1.Nodup ∧
      g.edgeIds.Disjoint (g.connectAll joins).1 ∧
      (g.connectAll joins).2.edgeIds = g.edgeIds ++ (g.connectAll joins).1 ∧
      ((g.connectAll joins).2.edgeIds.Nodup ↔ g.edgeIds.Nodup) := by
  have hfresh := fun source target => (isFirstFree_freshEdgeId g source target).not_mem
  refine ⟨fun source target id => ⟨freshEdgeId_eq_iff, hfresh source target⟩,
    fun source target kind => ⟨rfl, edgeIds_connect g source target kind, ?_⟩, fun joins => ?_⟩
  · rw [edgeIds_connect, List.nodup_append']
    refine ⟨fun h => h.1, fun h => ⟨h, List.nodup_singleton _, ?_⟩⟩
    exact List.disjoint_singleton.mpr (hfresh source target)
  · obtain ⟨hnodup, hapart⟩ := nodup_connectAll joins g
    refine ⟨hnodup, hapart, edgeIds_connectAll joins g, ?_⟩
    rw [edgeIds_connectAll, List.nodup_append']
    exact ⟨fun h => h.1, fun h => ⟨h, hnodup, hapart⟩⟩

/-- Names that were made from other nodes are avoided, too. -/
example : (empty.connectAll [⟨"a", "b-1", .base⟩, ⟨"a-b", "1", .base⟩, ⟨"a", "b", .base⟩,
    ⟨"a", "b", .method⟩]).1 = ["a-b-1", "a-b-1-1", "a-b", "a-b-2"] := by decide +kernel

end Runbook.Graph
