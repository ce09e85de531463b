import Runbook.Proofs.BranchPaths
import Runbook.Proofs.FieldOrder

/-!
# Highlights

A session is shown in a file's tree by the names of the nodes that its path runs through. They are
found step by step: a step goes to a node that stands for the same graph node and shows the same
label, and where that leads nowhere, another such node is tried. In a tree of paths, those that are
found are the nodes at the ends of the beginnings of the session's path.

* `Tree.Leads`, `Tree.Along`: ways down a tree, and the steps that they take
* `Tree.exists_match?_iff`: a way along given steps is found exactly if there is one
* `Tree.exists_match?_build_iff`: the ways that are found in a tree of paths
* `Book.highlight_tree`: when a session is highlighted, and by which names
-/

namespace Runbook

/-- The set of different names has just these. -/
theorem NameSet.names_ofList_perm {names : List String} (h : names.Nodup) :
    (NameSet.ofList names).names.Perm names := by
  have hkeys : (names.map fun n => (n, ())).map Prod.fst = names := by
    rw [List.map_map]
    exact List.map_id names
  have hsorted := (Fields.sorted_perm (hkeys.symm ▸ h)).map Prod.fst
  rwa [hkeys] at hsorted

namespace Tree

/-! ## Ways along steps -/

/-- A way down from a node, on which each node is right below the one before. -/
inductive Leads : Tree → List Tree → Prop
  /-- not going anywhere -/
  | nil {t : Tree} : Leads t []
  /-- going to a child, and on from there -/
  | cons {t c : Tree} {way : List Tree} (child : c ∈ t.children) (rest : Leads c way) :
    Leads t (c :: way)

/-- The nodes of a way are the given steps, one by one. -/
def Along (steps : List Step) (way : List Tree) : Prop :=
  List.Forall₂ (fun step t => isStep step t = true) steps way

/-- What is found is a way down, along the steps. -/
theorem leads_of_match? {steps : List Step} {t : Tree} {way : List Tree}
    (h : t.match? steps = some way) : t.Leads way ∧ Along steps way := by
  induction steps generalizing t way with
  | nil =>
    obtain rfl : [] = way := Option.some_inj.mp h
    exact ⟨.nil, .nil⟩
  | cons step rest ih =>
    rw [match?] at h
    obtain ⟨c, hc, hfound⟩ := List.exists_of_findSome?_eq_some h
    obtain ⟨hstep, hfound⟩ := (Option.ite_none_right_eq_some).mp hfound
    obtain ⟨way, hway, rfl⟩ := Option.map_eq_some_iff.mp hfound
    obtain ⟨hleads, halong⟩ := ih hway
    exact ⟨.cons hc hleads, .cons hstep halong⟩

/-- If there is a way down along the steps, one is found: a dead end below one child hides nothing
below another. -/
theorem exists_match?_of_leads {steps : List Step} {t : Tree} {way : List Tree}
    (hleads : t.Leads way) (halong : Along steps way) : ∃ found, t.match? steps = some found := by
  induction hleads generalizing steps with
  | nil =>
    obtain rfl : steps = [] := List.forall₂_nil_right_iff.mp halong
    exact ⟨[], rfl⟩
  | cons hc _ ih =>
    obtain ⟨step, rest, hstep, hrest, rfl⟩ := List.forall₂_cons_right_iff.mp halong
    obtain ⟨found, hfound⟩ := ih hrest
    rw [match?, ← Option.isSome_iff_exists, List.findSome?_isSome_iff]
    refine ⟨_, hc, ?_⟩
    rw [if_pos hstep, hfound]
    rfl

/-- A way along the steps is found exactly if there is one. -/
theorem exists_match?_iff (steps : List Step) (t : Tree) :
    (∃ way, t.match? steps = some way) ↔ ∃ way, t.Leads way ∧ Along steps way :=
  ⟨fun ⟨way, hway⟩ => ⟨way, leads_of_match? hway⟩,
    fun ⟨_, hleads, halong⟩ => exists_match?_of_leads hleads halong⟩

/-- The steps that go to graph nodes by what is shown for them. -/
def stepsTo (shown : NodeId → String) (ids : List NodeId) : List Step :=
  ids.map fun id => ⟨id, shown id⟩

theorem isStep_iff {step : Step} {t : Tree} :
    isStep step t = true ↔ t.node = step.node ∧ t.label = step.label := by
  rw [isStep, Bool.and_eq_true, decide_eq_true_iff, decide_eq_true_iff]

/-- A way takes these steps if its nodes stand for the graph nodes and show what is shown. -/
theorem along_stepsTo_iff {shown : NodeId → String} {ids : List NodeId} {way : List Tree} :
    Along (stepsTo shown ids) way ↔
      way.map Tree.node = ids ∧ ∀ u ∈ way, u.label = shown u.node := by
  induction ids generalizing way with
  | nil =>
    rw [List.map_eq_nil_iff]
    refine ⟨fun h => ?_, fun ⟨hway, _⟩ => hway ▸ .nil⟩
    obtain rfl : way = [] := List.forall₂_nil_left_iff.mp h
    exact ⟨rfl, List.forall_mem_nil _⟩
  | cons id rest ih =>
    cases way with
    | nil => simp [Along, stepsTo]
    | cons u way =>
      rw [stepsTo, List.map_cons, Along, List.forall₂_cons, ← stepsTo, ← Along, ih, isStep_iff,
        List.map_cons, List.cons.injEq, List.forall_mem_cons]
      constructor
      · rintro ⟨⟨rfl, hlabel⟩, hway, hlabels⟩
        exact ⟨⟨rfl, hway⟩, hlabel, hlabels⟩
      · rintro ⟨⟨rfl, hway⟩, hlabel, hlabels⟩
        exact ⟨⟨rfl, hlabel⟩, hway, hlabels⟩

/-- Each node of a way is below the top, and the way to it is what comes before. -/
theorem Leads.mem_ways {t : Tree} {way : List Tree} (h : t.Leads way) :
    ∀ {i : Nat} (hi : i < way.length),
      ((way.take (i + 1)).map Tree.node, way[i]) ∈ t.ways := by
  induction h with
  | nil => exact fun {i} hi => absurd hi (Nat.not_lt_zero i)
  | cons hc _ ih =>
    intro i hi
    rw [ways_eq, mem_waysAmong]
    refine ⟨_, hc, ?_⟩
    cases i with
    | zero => exact .inl ⟨rfl, rfl⟩
    | succ i => exact .inr ⟨_, rfl, ih (Nat.lt_of_succ_lt_succ hi)⟩

/-- There is a way down to each node below the top. -/
theorem exists_leads_of_mem_ways {t u : Tree} {way : List NodeId} (h : (way, u) ∈ t.ways) :
    ∃ trees, t.Leads trees ∧ trees.map Tree.node = way := by
  induction way generalizing t with
  | nil => exact ⟨[], .nil, rfl⟩
  | cons id rest ih =>
    rw [ways_eq, mem_waysAmong] at h
    obtain ⟨c, hc, ⟨hway, -⟩ | ⟨rest', hway, hu⟩⟩ := h
    · exact ⟨[c], .cons hc .nil, hway.symm⟩
    · obtain ⟨rfl, rfl⟩ := List.cons.inj hway
      obtain ⟨trees, hleads, rfl⟩ := ih hu
      exact ⟨c :: trees, .cons hc hleads, rfl⟩

theorem ne_nil_of_mem_ways {t u : Tree} {way : List NodeId} (h : (way, u) ∈ t.ways) :
    way ≠ [] := by
  rw [ways_eq, mem_waysAmong] at h
  obtain ⟨c, -, ⟨rfl, -⟩ | ⟨rest, rfl, -⟩⟩ := h <;> exact List.cons_ne_nil _ _

/-- A way down that goes anywhere leads to a node. -/
theorem exists_leads_iff {t : Tree} {ids : List NodeId} (hids : ids ≠ []) :
    (∃ way, t.Leads way ∧ way.map Tree.node = ids) ↔ ids ∈ t.ways.map Prod.fst := by
  constructor
  · rintro ⟨way, hleads, rfl⟩
    have hlast : way.length - 1 < way.length :=
      Nat.sub_one_lt fun h => hids (by rw [List.length_eq_zero_iff.mp h, List.map_nil])
    have hmem := hleads.mem_ways hlast
    rw [Nat.sub_add_cancel (Nat.one_le_of_lt hlast), List.take_length] at hmem
    exact List.mem_map_of_mem hmem
  · intro h
    obtain ⟨⟨way, u⟩, hu, rfl⟩ := List.mem_map.mp h
    exact exists_leads_of_mem_ways hu

/-- Where names differ, they do so along a way. -/
theorem Leads.nodup_names {t : Tree} {way : List Tree} (h : t.Leads way)
    (hids : (t.ways.map fun p => p.2.id).Nodup) : (way.map Tree.id).Nodup := by
  rw [List.Nodup, List.pairwise_map, List.pairwise_iff_getElem]
  intro i j hi hj hij hid
  have hsame := List.inj_on_of_nodup_map hids (h.mem_ways hi) (h.mem_ways hj) hid
  have hlength := congrArg (fun p => p.1.length) hsame
  simp only [List.length_map, List.length_take] at hlength
  omega

/-! ## Ways in a tree of paths -/

/-- The nodes in a tree of paths show what their graph nodes are labelled with. -/
theorem label_of_mem_ways {labelOf : NodeId → String} {paths : List (List NodeId)}
    {p : List NodeId × Tree} (h : p ∈ (build labelOf paths).ways) :
    p.2.label = labelOf p.2.node := by
  have hmem : markOf p ∈ (build labelOf paths).marks := List.mem_map_of_mem h
  obtain ⟨q, -, hmark⟩ := List.mem_map.mp ((marks_build_perm labelOf paths).mem_iff.mp hmem)
  obtain ⟨-, -, hnode, hlabel⟩ := Mark.mk.inj hmark
  rw [← hnode, ← hlabel]

theorem Leads.label_eq {labelOf : NodeId → String} {paths : List (List NodeId)} {way : List Tree}
    (h : (build labelOf paths).Leads way) : ∀ u ∈ way, u.label = labelOf u.node := by
  intro u hu
  obtain ⟨i, hi, rfl⟩ := List.getElem_of_mem hu
  exact label_of_mem_ways (h.mem_ways hi)

/-- Where ways differ, the nodes of a way are those at the ends of its beginnings. -/
theorem Leads.mem_iff {t : Tree} {way : List Tree} (h : t.Leads way)
    (hways : (t.ways.map Prod.fst).Nodup) {u : Tree} :
    u ∈ way ↔ ∃ start, (start, u) ∈ t.ways ∧ start <+: way.map Tree.node := by
  constructor
  · intro hu
    obtain ⟨i, hi, rfl⟩ := List.getElem_of_mem hu
    exact ⟨_, h.mem_ways hi, (List.take_prefix ..).map _⟩
  · rintro ⟨start, hu, hstart⟩
    have hpos := List.length_pos_iff.mpr (ne_nil_of_mem_ways hu)
    obtain ⟨n, hn⟩ := Nat.exists_eq_succ_of_ne_zero hpos.ne'
    have hlt : n < way.length := by
      have hle := hstart.length_le
      rw [List.length_map, hn] at hle
      exact hle
    have htake : start = (way.take (n + 1)).map Tree.node := by
      rw [List.map_take, ← Nat.succ_eq_add_one, ← hn]
      exact List.prefix_iff_eq_take.mp hstart
    have hsame := List.inj_on_of_nodup_map hways hu (h.mem_ways hlt) htake
    rw [(Prod.mk.inj hsame).2]
    exact List.getElem_mem hlt

/-- What is found in a tree of paths: the beginnings of these, as long as it shows what is shown. -/
theorem exists_match?_build_iff {labelOf shown : NodeId → String} {paths : List (List NodeId)}
    {ids : List NodeId} (hids : ids ≠ []) :
    (∃ way, (build labelOf paths).match? (stepsTo shown ids) = some way) ↔
      (∃ path ∈ paths, ids <+: path) ∧ ∀ id ∈ ids, shown id = labelOf id := by
  have hway : (∃ way, (build labelOf paths).Leads way ∧ way.map Tree.node = ids) ↔
      ∃ path ∈ paths, ids <+: path := by
    rw [exists_leads_iff hids, (ways_build_perm labelOf paths).mem_iff, mem_firstSeen,
      and_iff_right hids]
  rw [exists_match?_iff, ← hway]
  constructor
  · rintro ⟨way, hleads, halong⟩
    obtain ⟨rfl, hlabels⟩ := along_stepsTo_iff.mp halong
    refine ⟨⟨way, hleads, rfl⟩, ?_⟩
    rw [List.forall_mem_map]
    intro u hu
    rw [← hlabels u hu, hleads.label_eq u hu]
  · rintro ⟨⟨way, hleads, rfl⟩, hlabels⟩
    refine ⟨way, hleads, along_stepsTo_iff.mpr ⟨rfl, fun u hu => ?_⟩⟩
    rw [hlabels _ (List.mem_map_of_mem hu), hleads.label_eq u hu]

/-- The names along a way in a tree of paths are as many as its nodes. -/
theorem Leads.names_perm {labelOf : NodeId → String} {paths : List (List NodeId)}
    {way : List Tree} (h : (build labelOf paths).Leads way) :
    (NameSet.ofList (way.map Tree.id)).names.Perm (way.map Tree.id) :=
  NameSet.names_ofList_perm (h.nodup_names (nodup_ids labelOf paths))

theorem highlight_of_match? {t : Tree} {g : Graph} {s : Session} {way : List Tree}
    (h : t.match? (stepsTo (stepLabel g) (startPath s)) = some way) :
    t.highlight g s = NameSet.ofList (way.map Tree.id) := by
  rw [stepsTo] at h
  rw [highlight, h]

theorem highlight_of_match?_none {t : Tree} {g : Graph} {s : Session}
    (h : t.match? (stepsTo (stepLabel g) (startPath s)) = none) : t.highlight g s = .empty := by
  rw [stepsTo] at h
  rw [highlight, h]

/-- What is found for a session's path in a tree of paths. -/
theorem names_of_match?_build {labelOf shown : NodeId → String} {paths : List (List NodeId)}
    {ids : List NodeId} {way : List Tree}
    (h : (build labelOf paths).match? (stepsTo shown ids) = some way) :
    (NameSet.ofList (way.map Tree.id)).names.length = ids.length ∧
    ∀ id, id ∈ (NameSet.ofList (way.map Tree.id)).names ↔
      ∃ start u, (start, u) ∈ (build labelOf paths).ways ∧ start <+: ids ∧ u.id = id := by
  obtain ⟨hleads, halong⟩ := leads_of_match? h
  obtain ⟨rfl, -⟩ := along_stepsTo_iff.mp halong
  have hways := (ways_build_perm labelOf paths).nodup_iff.mpr (nodup_firstSeen paths)
  refine ⟨by rw [hleads.names_perm.length_eq, List.length_map, List.length_map], fun id => ?_⟩
  simp only [hleads.names_perm.mem_iff, List.mem_map, hleads.mem_iff hways]
  constructor
  · rintro ⟨u, ⟨start, hu, hstart⟩, hid⟩
    exact ⟨start, u, hu, hstart, hid⟩
  · rintro ⟨start, u, hu, hstart, hid⟩
    exact ⟨u, ⟨start, hu, hstart⟩, hid⟩

theorem highlight_build_ne_empty_iff (labelOf : NodeId → String) (paths : List (List NodeId))
    (g : Graph) (s : Session) : (build labelOf paths).highlight g s ≠ .empty ↔
      ∃ way, (build labelOf paths).match? (stepsTo (stepLabel g) (startPath s)) = some way := by
  cases hmatch : (build labelOf paths).match? (stepsTo (stepLabel g) (startPath s)) with
  | none => simp [highlight_of_match?_none hmatch]
  | some way =>
    refine iff_of_true (fun hempty => ?_) ⟨way, rfl⟩
    have hlength := (names_of_match?_build hmatch).1
    rw [← highlight_of_match? hmatch, hempty] at hlength
    exact absurd hlength (Nat.succ_ne_zero _).symm

end Tree

namespace Book

open Runbook.Tree
open Workspace (idleSession)

/-- **When a session is highlighted, and by which names.** In a file's tree, whatever the graph has
become since, a session is highlighted exactly if its path is the beginning of the path of a session
of the book, and the start and each step of it are labelled as they were when the tree was built.
Then the names are one for the start and one for each step: those of the nodes of the tree at the
ends of the beginnings of the path. -/
theorem highlight_tree (b : Book) (g g' : Graph) (s : Session) :
    ((b.tree g).highlight g' s ≠ .empty ↔ (∃ t ∈ b.sessions, s.path <+: t.path) ∧
      ∀ id ∈ startPath s, stepLabel g' id = stepLabel g id) ∧
    (s ∈ b.sessions → ((b.tree g).highlight g' s ≠ .empty ↔
      ∀ id ∈ startPath s, stepLabel g' id = stepLabel g id)) ∧
    ((b.tree g).highlight g' s ≠ .empty →
      ((b.tree g).highlight g' s).names.length = s.path.length + 1 ∧
      ∀ id, id ∈ ((b.tree g).highlight g' s).names ↔
        ∃ path u, path <+: s.path ∧ (startId :: path, u) ∈ (b.tree g).ways ∧ u.id = id) := by
  have hne : startPath s ≠ [] := List.cons_ne_nil _ _
  have hfound : (∃ way, (b.tree g).match? (stepsTo (stepLabel g') (startPath s)) = some way) ↔
      (∃ t ∈ b.sessions, s.path <+: t.path) ∧
        ∀ id ∈ startPath s, stepLabel g' id = stepLabel g id := by
    rw [tree, exists_match?_build_iff hne]
    simp only [startPath, List.mem_map, exists_exists_and_eq_and, List.cons_prefix_cons, true_and]
  have hsome := highlight_build_ne_empty_iff (stepLabel g) (b.sessions.map startPath) g' s
  rw [← tree] at hsome
  refine ⟨hsome.trans hfound, fun hs => ?_, fun h => ?_⟩
  · rw [hsome, hfound]
    exact and_iff_right ⟨s, hs, List.prefix_rfl⟩
  · obtain ⟨way, hway⟩ := hsome.mp h
    rw [highlight_of_match? hway]
    obtain ⟨hlength, hmem⟩ := names_of_match?_build hway
    refine ⟨hlength, fun id => (hmem id).trans ?_⟩
    constructor
    · rintro ⟨start, u, hu, hstart, hid⟩
      obtain ⟨first, path, rfl⟩ := List.exists_cons_of_ne_nil (ne_nil_of_mem_ways hu)
      obtain ⟨rfl, hpath⟩ := List.cons_prefix_cons.mp hstart
      exact ⟨path, u, hpath, hu, hid⟩
    · rintro ⟨path, u, hpath, hu, hid⟩
      exact ⟨startId :: path, u, hu, List.cons_prefix_cons.mpr ⟨rfl, hpath⟩, hid⟩

/-- A session that is not in the book is highlighted if the path of one there begins with its own. -/
theorem highlight_tree_forked :
    (forked.tree .empty).highlight .empty (idleSession "x" ["a"]) ≠ .empty ∧
    ((forked.tree .empty).highlight .empty (idleSession "x" ["a"])).names.length = 2 := by
  obtain ⟨hiff, -, hnames⟩ := highlight_tree forked .empty .empty (idleSession "x" ["a"])
  have hsome := hiff.mpr ⟨⟨_, .head _, by decide⟩, fun _ _ => rfl⟩
  exact ⟨hsome, (hnames hsome).1⟩

end Book

end Runbook
