import Mathlib.Data.List.Sort
import Runbook.Relations

/-!
# What derived edges are read off

The derived edges depend on the nodes through their names, kinds and analysis only, and on the
edges there are already through the ends of the method edges only; neither the order of either
list nor anything that occurs twice makes a difference.

* `Relations.Row.sorted_congr`: sorted rows are told apart by what occurs in them only
* `Relations.mem_sharedNames`, `Relations.mem_inheritedNames`, `Relations.mem_overriddenNames`:
  which rows each kind of edge is made from
* `Node.facts`, `Relations.methodEnds`: what is read of a node, and of the edges there are
* `Relations.infer_congr`: what is not read makes no difference
-/

namespace Runbook

/-! ## Nodes with names of their own -/

/-- Where keys are pairwise different, the last of the things with a key is the only one. -/
theorem getLast?_filter_key {α κ : Type} [DecidableEq κ] (key : α → κ) {things : List α}
    (h : (things.map key).Nodup) {k : κ} {x : α} :
    (things.filter fun y => key y = k).getLast? = some x ↔ x ∈ things ∧ key x = k := by
  constructor
  · intro hlast
    simpa using List.mem_filter.mp (List.mem_of_getLast? hlast)
  · rintro ⟨hx, hkey⟩
    cases hlast : (things.filter fun y => key y = k).getLast? with
    | none =>
      rw [List.getLast?_eq_none_iff, List.filter_eq_nil_iff] at hlast
      exact absurd (decide_eq_true hkey) (hlast x hx)
    | some y =>
      obtain ⟨hy, hykey⟩ := List.mem_filter.mp (List.mem_of_getLast? hlast)
      have hykey : key y = k := of_decide_eq_true hykey
      rw [List.inj_on_of_nodup_map h hy hx (hykey.trans hkey.symm)]

namespace Wiring

variable {nodes : List Node}

theorem lastPlace?_eq_some_iff (h : (nodes.map Node.id).Nodup) {id : NodeId} {place : Nat} :
    lastPlace? nodes id = some place ↔ ∃ n, nodes[place]? = some n ∧ n.id = id := by
  have hkeys : (nodes.zipIdx.map fun x => x.1.id).Nodup := by
    rw [← List.zipIdx_map_fst 0 nodes, List.map_map] at h
    exact h
  rw [lastPlace?, Option.map_eq_some_iff]
  constructor
  · rintro ⟨⟨n, p⟩, hlast, rfl⟩
    obtain ⟨hn, hid⟩ := (getLast?_filter_key (fun x : Node × Nat => x.1.id) hkeys).mp hlast
    exact ⟨n, List.mem_zipIdx_iff_getElem?.mp hn, hid⟩
  · rintro ⟨n, hn, hid⟩
    exact ⟨(n, place), (getLast?_filter_key (fun x : Node × Nat => x.1.id) hkeys).mpr
      ⟨List.mem_zipIdx_iff_getElem?.mpr hn, hid⟩, rfl⟩

/-- The links are the edges between nodes that are there. -/
theorem mem_links_of (h : (nodes.map Node.id).Nodup) {edges : List Edge} {p q : Nat} {e : Edge} :
    (p, q, e) ∈ (of nodes edges).links ↔ e ∈ edges ∧
      (∃ n, nodes[p]? = some n ∧ n.id = e.source) ∧ ∃ n, nodes[q]? = some n ∧ n.id = e.target := by
  simp only [of, List.mem_filterMap, ← lastPlace?_eq_some_iff h]
  constructor
  · rintro ⟨d, hd, hlink⟩
    obtain ⟨p', hp, hlink⟩ := Option.bind_eq_some_iff.mp hlink
    obtain ⟨q', hq, hlink⟩ := Option.bind_eq_some_iff.mp hlink
    obtain ⟨rfl, rfl, rfl⟩ : p' = p ∧ q' = q ∧ d = e := by simpa using hlink
    exact ⟨hd, hp, hq⟩
  · rintro ⟨he, hp, hq⟩
    exact ⟨e, he, by simp [hp, hq]⟩

/-- An edge of a kind from one node to another. -/
def Leads (edges : List Edge) (kind : Edge.Kind) (source target : NodeId) : Prop :=
  ∃ e ∈ edges, e.kind = kind ∧ e.source = source ∧ e.target = target

/-- From the place of a node, edges lead to the places of the nodes they lead to. -/
theorem mem_next_of (h : (nodes.map Node.id).Nodup) {edges : List Edge} {kind : Edge.Kind}
    {p q : Nat} {n : Node} (hn : nodes[p]? = some n) :
    q ∈ (of nodes edges).next kind p ↔
      ∃ m, nodes[q]? = some m ∧ Leads edges kind n.id m.id := by
  simp only [next, List.mem_map, List.mem_filter, Prod.exists, Bool.and_eq_true, decide_eq_true_eq]
  constructor
  · rintro ⟨p', q', e, ⟨hlink, rfl, hkind⟩, rfl⟩
    obtain ⟨he, ⟨n', hn', hsource⟩, m, hm, htarget⟩ := (mem_links_of h).mp hlink
    obtain rfl : n = n' := Option.some.inj (hn.symm.trans hn')
    exact ⟨m, hm, e, he, hkind, hsource.symm, htarget.symm⟩
  · rintro ⟨m, hm, e, he, hkind, hsource, htarget⟩
    exact ⟨p, q, e, ⟨(mem_links_of h).mpr ⟨he, ⟨n, hn, hsource.symm⟩, m, hm, htarget.symm⟩, rfl,
      hkind⟩, rfl⟩

/-- To the place of a node, edges lead from the places of the nodes they lead from. -/
theorem mem_previous_of (h : (nodes.map Node.id).Nodup) {edges : List Edge} {kind : Edge.Kind}
    {p q : Nat} {n : Node} (hn : nodes[p]? = some n) :
    q ∈ (of nodes edges).previous kind p ↔
      ∃ m, nodes[q]? = some m ∧ Leads edges kind m.id n.id := by
  simp only [previous, List.mem_map, List.mem_filter, Prod.exists, Bool.and_eq_true,
    decide_eq_true_eq]
  constructor
  · rintro ⟨q', p', e, ⟨hlink, rfl, hkind⟩, rfl⟩
    obtain ⟨he, ⟨m, hm, hsource⟩, n', hn', htarget⟩ := (mem_links_of h).mp hlink
    obtain rfl : n = n' := Option.some.inj (hn.symm.trans hn')
    exact ⟨m, hm, e, he, hkind, hsource.symm, htarget.symm⟩
  · rintro ⟨m, hm, e, he, hkind, hsource, htarget⟩
    exact ⟨q, p, e, ⟨(mem_links_of h).mpr ⟨he, ⟨m, hm, hsource.symm⟩, n, hn, htarget.symm⟩, rfl,
      hkind⟩, rfl⟩

/-- Along method edges to the classes of a method, on to their parents, and back along method
edges to the methods of those. -/
theorem mem_relatives (h : (nodes.map Node.id).Nodup) {edges : List Edge} {place : Nat}
    {m o : Node} (hm : nodes[place]? = some m) :
    o ∈ ((((of nodes edges).next .method place).flatMap
        ((of nodes edges).next .inheritance)).flatMap
        ((of nodes edges).previous .method)).filterMap (fun p => (of nodes edges).nodes[p]?) ↔
      o ∈ nodes ∧ ∃ c ∈ nodes, ∃ p ∈ nodes, Leads edges .method m.id c.id ∧
        Leads edges .inheritance c.id p.id ∧ Leads edges .method o.id p.id := by
  simp only [List.mem_filterMap, List.mem_flatMap]
  constructor
  · rintro ⟨po, ⟨pp, ⟨pc, hc, hp⟩, ho⟩, hat⟩
    obtain ⟨c, hc, hmc⟩ := (mem_next_of h hm).mp hc
    obtain ⟨p, hp, hcp⟩ := (mem_next_of h hc).mp hp
    obtain ⟨o', ho, hop⟩ := (mem_previous_of h hp).mp ho
    obtain rfl : o = o' := Option.some.inj (hat.symm.trans ho)
    exact ⟨List.mem_of_getElem? ho, c, List.mem_of_getElem? hc, p, List.mem_of_getElem? hp, hmc,
      hcp, hop⟩
  · rintro ⟨ho, c, hc, p, hp, hmc, hcp, hop⟩
    obtain ⟨po, ho⟩ := List.mem_iff_getElem?.mp ho
    obtain ⟨pc, hc⟩ := List.mem_iff_getElem?.mp hc
    obtain ⟨pp, hp⟩ := List.mem_iff_getElem?.mp hp
    exact ⟨po, ⟨pp, ⟨pc, (mem_next_of h hm).mpr ⟨c, hc, hmc⟩,
      (mem_next_of h hc).mpr ⟨p, hp, hcp⟩⟩, (mem_previous_of h hp).mpr ⟨o, ho, hop⟩⟩, ho⟩

end Wiring

namespace Relations

/-! ## Rows -/

namespace Row

theorem before_trans {a b c : Row} (hab : a.before b) (hbc : b.before c) : a.before c := by
  simp only [before, Bool.or_eq_true, Bool.and_eq_true, decide_eq_true_eq] at *
  grind

theorem not_before_self (a : Row) : ¬ a.before a := by
  simp [before]

theorem before_of_not_before {a b : Row} (h : ¬ a.before b) (hne : a ≠ b) : b.before a := by
  obtain ⟨s, t, n⟩ := a
  obtain ⟨s', t', n'⟩ := b
  simp only [before, Bool.or_eq_true, Bool.and_eq_true, decide_eq_true_eq, ne_eq, mk.injEq] at *
  grind

theorem pairwise_insert (r : Row) : ∀ {rows : List Row}, rows.Pairwise (·.before ·) →
    (r.insert rows).Pairwise (·.before ·)
  | [], _ => by simp [insert]
  | a :: rest, h => by
    obtain ⟨ha, hrest⟩ := List.pairwise_cons.mp h
    rw [insert]
    split
    · rename_i hra
      refine List.pairwise_cons.mpr ⟨?_, h⟩
      intro x hx
      rcases List.mem_cons.mp hx with rfl | hx
      · exact hra
      · exact before_trans hra (ha x hx)
    · rename_i hra
      split
      · exact h
      · rename_i hne
        refine List.pairwise_cons.mpr ⟨?_, pairwise_insert r hrest⟩
        intro x hx
        rcases mem_insert.mp hx with rfl | hx
        · exact before_of_not_before hra hne
        · exact ha x hx

theorem pairwise_sorted (rows : List Row) : (sorted rows).Pairwise (·.before ·) := by
  induction rows with
  | nil => exact List.Pairwise.nil
  | cons r rest ih => exact pairwise_insert r ih

instance : Std.Irrefl fun a b : Row => a.before b := ⟨not_before_self⟩

instance : Std.Antisymm fun a b : Row => a.before b :=
  ⟨fun a _ hab hba => absurd (before_trans hab hba) (not_before_self a)⟩

/-- Neither the order of rows nor their number shows when they are sorted. -/
theorem sorted_congr {rows rows' : List Row} (h : ∀ r, r ∈ rows ↔ r ∈ rows') :
    sorted rows = sorted rows' :=
  (pairwise_sorted rows).eq_of_mem_iff (pairwise_sorted rows') fun _ => by
    rw [mem_sorted, mem_sorted, h]

/-- Of rows that are sorted, some make up the same list as if only those had been sorted. -/
theorem sorted_eq_filter {rows rows' : List Row} {p : Row → Bool}
    (h : ∀ r, r ∈ rows ↔ r ∈ rows' ∧ p r = true) : sorted rows = (sorted rows').filter p :=
  (pairwise_sorted rows).eq_of_mem_iff ((pairwise_sorted rows').filter p) fun _ => by
    rw [List.mem_filter, mem_sorted, mem_sorted, h]

theorem sorted_sublist {rows rows' : List Row} (h : rows ⊆ rows') :
    (sorted rows).Sublist (sorted rows') :=
  List.sublist_of_subperm_of_pairwise
    (List.subperm_of_subset (pairwise_sorted rows).nodup fun _ hr => mem_sorted.mpr
      (h (mem_sorted.mp hr)))
    (pairwise_sorted rows) (pairwise_sorted rows')

end Row

/-! ## Which rows there are -/

variable {nodes : List Node} {r : Row}

theorem mem_sharedNames : r ∈ sharedNames nodes ↔ ∃ s ∈ nodes, ∃ t ∈ nodes,
    s.kind.isCode ∧ t.kind.isCode ∧ r.name ∈ s.dependencies.names ∧ r.name ∈ t.definitions.names ∧
      r.source = s.id ∧ r.target = t.id := by
  obtain ⟨source, target, name⟩ := r
  simp only [sharedNames, List.mem_flatMap, List.mem_map, List.mem_filter, List.contains_iff_mem,
    Row.mk.injEq]
  grind

theorem lastNode?_eq_some_iff (h : (nodes.map Node.id).Nodup) {id : NodeId} {n : Node} :
    lastNode? nodes id = some n ↔ n ∈ nodes ∧ n.id = id :=
  getLast?_filter_key Node.id h

theorem mem_inheritedNames (h : (nodes.map Node.id).Nodup) {dependency : List Edge} :
    r ∈ inheritedNames nodes dependency ↔ ∃ n ∈ nodes, ∃ t ∈ nodes,
      n.kind.isClass ∧ t.kind.isClass ∧ Wiring.Leads dependency .dependency n.id t.id ∧
      r.name ∈ n.dependencies.typeReferences ∧ r.name ∈ t.definitions.classes.names ∧
      r.source = n.id ∧ r.target = t.id := by
  obtain ⟨source, target, name⟩ := r
  simp only [inheritedNames, Wiring.Leads, List.mem_flatMap, List.mem_map, List.mem_filter,
    List.mem_filterMap, Option.filter_eq_some_iff, lastNode?_eq_some_iff h, decide_eq_true_eq,
    NameSet.contains, List.contains_iff_mem, Row.mk.injEq]
  grind

/-- Of the edges that overrides are found along, those of one kind come from one list. -/
theorem leads_structural {existing inherited : List Edge} {source target : NodeId} :
    let edges := (existing.filter fun e => e.kind = .method) ++
      inherited.filter fun e => e.kind = .inheritance
    (Wiring.Leads edges .method source target ↔ Wiring.Leads existing .method source target) ∧
    (Wiring.Leads edges .inheritance source target ↔
      Wiring.Leads inherited .inheritance source target) := by
  simp only [Wiring.Leads, List.mem_append, List.mem_filter, decide_eq_true_eq]
  grind

theorem mem_overriddenNames (h : (nodes.map Node.id).Nodup) {existing inherited : List Edge} :
    r ∈ overriddenNames nodes existing inherited ↔ ∃ m ∈ nodes, ∃ o ∈ nodes,
      m.kind = .method ∧ o.kind = .method ∧
      (∃ c ∈ nodes, ∃ p ∈ nodes, Wiring.Leads existing .method m.id c.id ∧
        Wiring.Leads inherited .inheritance c.id p.id ∧ Wiring.Leads existing .method o.id p.id) ∧
      r.name ∈ m.definitions.qualifiedMethods ∧ r.name ∈ o.definitions.qualifiedMethods ∧
      r.source = m.id ∧ r.target = o.id := by
  simp only [overriddenNames, List.mem_flatMap (l := nodes.filter _), List.mem_filter,
    decide_eq_true_eq]
  refine exists_congr fun m => ?_
  rw [and_assoc]
  refine and_congr_right fun hm => ?_
  obtain ⟨place, hplace⟩ := List.mem_iff_getElem?.mp hm
  rw [(Wiring.lastPlace?_eq_some_iff h).mpr ⟨m, hplace, rfl⟩]
  simp only [List.mem_flatMap (l := List.filter _ (List.filterMap _ _)), List.mem_filter,
    Wiring.mem_relatives h hplace, leads_structural, List.mem_map, List.contains_iff_mem,
    decide_eq_true_eq]
  obtain ⟨source, target, name⟩ := r
  simp only [Row.mk.injEq]
  grind

/-! ## What is read -/

end Relations

/-- What derived edges read of a node. -/
structure Node.Facts where
  /-- its name -/
  id : NodeId
  /-- what it is -/
  kind : Node.Kind
  /-- the names it uses -/
  dependencies : Dependencies
  /-- the names it introduces -/
  definitions : Definitions
  deriving DecidableEq

/-- Of a node, what derived edges read. -/
def Node.facts (n : Node) : Node.Facts := ⟨n.id, n.kind, n.dependencies, n.definitions⟩

namespace Relations

/-- The ends of the method edges. -/
def methodEnds (edges : List Edge) : List (NodeId × NodeId) :=
  (edges.filter fun e => e.kind = .method).map fun e => (e.source, e.target)

theorem mem_methodEnds {edges : List Edge} {source target : NodeId} :
    (source, target) ∈ methodEnds edges ↔ Wiring.Leads edges .method source target := by
  simp only [methodEnds, Wiring.Leads, List.mem_map, List.mem_filter, decide_eq_true_eq,
    Prod.mk.injEq, and_assoc]

variable {nodes nodes' : List Node}

/-- A node whose facts are among those of other nodes is matched by one of them. -/
theorem exists_facts_eq (h : nodes.map Node.facts ⊆ nodes'.map Node.facts) {n : Node}
    (hn : n ∈ nodes) : ∃ n' ∈ nodes', n.id = n'.id ∧ n.kind = n'.kind ∧
      n.dependencies = n'.dependencies ∧ n.definitions = n'.definitions := by
  obtain ⟨n', hn', hfacts⟩ := List.mem_map.mp (h (List.mem_map_of_mem hn))
  simp only [Node.facts, Node.Facts.mk.injEq] at hfacts
  obtain ⟨hid, hkind, hdependencies, hdefinitions⟩ := hfacts
  exact ⟨n', hn', hid.symm, hkind.symm, hdependencies.symm, hdefinitions.symm⟩

/-- More facts, more rows. -/
theorem sharedNames_subset (h : nodes.map Node.facts ⊆ nodes'.map Node.facts) :
    sharedNames nodes ⊆ sharedNames nodes' := by
  intro r hr
  obtain ⟨s, hs, t, ht, hrow⟩ := mem_sharedNames.mp hr
  obtain ⟨s', hs', hsid, hskind, hsdep, -⟩ := exists_facts_eq h hs
  obtain ⟨t', ht', htid, htkind, -, htdef⟩ := exists_facts_eq h ht
  rw [hsid, hskind, hsdep, htid, htkind, htdef] at hrow
  exact mem_sharedNames.mpr ⟨s', hs', t', ht', hrow⟩

theorem inheritedNames_subset (hn : (nodes.map Node.id).Nodup) (hn' : (nodes'.map Node.id).Nodup)
    (h : nodes.map Node.facts ⊆ nodes'.map Node.facts) (dependency : List Edge) :
    inheritedNames nodes dependency ⊆ inheritedNames nodes' dependency := by
  intro r hr
  obtain ⟨n, hn, t, ht, hrow⟩ := (mem_inheritedNames hn).mp hr
  obtain ⟨n₁, hn₁, hnid, hnkind, hndep, -⟩ := exists_facts_eq h hn
  obtain ⟨t₁, ht₁, htid, htkind, -, htdef⟩ := exists_facts_eq h ht
  rw [hnid, hnkind, hndep, htid, htkind, htdef] at hrow
  exact (mem_inheritedNames hn').mpr ⟨n₁, hn₁, t₁, ht₁, hrow⟩

theorem overriddenNames_subset (hn : (nodes.map Node.id).Nodup)
    (hn' : (nodes'.map Node.id).Nodup) (h : nodes.map Node.facts ⊆ nodes'.map Node.facts)
    {existing existing' : List Edge} (he : methodEnds existing ⊆ methodEnds existing')
    (inherited : List Edge) :
    overriddenNames nodes existing inherited ⊆ overriddenNames nodes' existing' inherited := by
  have leads {source target : NodeId} (hl : Wiring.Leads existing .method source target) :
      Wiring.Leads existing' .method source target := mem_methodEnds.mp (he (mem_methodEnds.mpr hl))
  intro r hr
  obtain ⟨m, hm, o, ho, hmkind, hokind, ⟨c, hc, p, hp, hmc, hcp, hop⟩, hrow⟩ :=
    (mem_overriddenNames hn).mp hr
  obtain ⟨m₁, hm₁, hmid, hmkind₁, -, hmdef⟩ := exists_facts_eq h hm
  obtain ⟨o₁, ho₁, hoid, hokind₁, -, hodef⟩ := exists_facts_eq h ho
  obtain ⟨c₁, hc₁, hcid, -⟩ := exists_facts_eq h hc
  obtain ⟨p₁, hp₁, hpid, -⟩ := exists_facts_eq h hp
  rw [hmid, hcid] at hmc
  rw [hcid, hpid] at hcp
  rw [hoid, hpid] at hop
  rw [hmid, hmdef, hoid, hodef] at hrow
  exact (mem_overriddenNames hn').mpr ⟨m₁, hm₁, o₁, ho₁, hmkind₁ ▸ hmkind, hokind₁ ▸ hokind,
    ⟨c₁, hc₁, p₁, hp₁, leads hmc, hcp, leads hop⟩, hrow⟩

/-- Nodes with the same facts, and edges with the same method edges but for their names and
labels, in any order and however often, have the same derived edges. -/
theorem infer_congr {existing existing' : List Edge} (hn : (nodes.map Node.id).Nodup)
    (hn' : (nodes'.map Node.id).Nodup)
    (hfacts : ∀ x, x ∈ nodes.map Node.facts ↔ x ∈ nodes'.map Node.facts)
    (hends : ∀ x, x ∈ methodEnds existing ↔ x ∈ methodEnds existing') :
    infer nodes existing = infer nodes' existing' := by
  have fwd : nodes.map Node.facts ⊆ nodes'.map Node.facts := fun x => (hfacts x).mp
  have bwd : nodes'.map Node.facts ⊆ nodes.map Node.facts := fun x => (hfacts x).mpr
  have hdep : dependencies nodes = dependencies nodes' := by
    rw [dependencies, dependencies, Row.sorted_congr fun r =>
      ⟨fun hr => sharedNames_subset fwd hr, fun hr => sharedNames_subset bwd hr⟩]
  have hinh (dependency : List Edge) :
      inheritance nodes dependency = inheritance nodes' dependency := by
    rw [inheritance, inheritance, Row.sorted_congr fun r =>
      ⟨fun hr => inheritedNames_subset hn hn' fwd dependency hr,
        fun hr => inheritedNames_subset hn' hn bwd dependency hr⟩]
  have hover (inherited : List Edge) :
      overrides nodes existing inherited = overrides nodes' existing' inherited := by
    rw [overrides, overrides, Row.sorted_congr fun r =>
      ⟨fun hr => overriddenNames_subset hn hn' fwd (fun x => (hends x).mp) inherited hr,
        fun hr => overriddenNames_subset hn' hn bwd (fun x => (hends x).mpr) inherited hr⟩]
  rw [infer, infer, hdep, hinh, hover]

/-- A class and its parent, each with a method of the same name. -/
def family : List Node :=
  [{ Node.new "base" .concreteClass with definitions := ⟨.empty, .empty, .ofList ["Base"]⟩ },
    { Node.new "child" .concreteClass with
      dependencies := ⟨.ofList ["Base"], .empty, .empty, .empty⟩
      definitions := ⟨.empty, .empty, .ofList ["Child"]⟩ },
    { Node.new "base.run" .method with definitions := ⟨.empty, .ofList ["Base.run"], .empty⟩ },
    { Node.new "child.run" .method with definitions := ⟨.empty, .ofList ["Child.run"], .empty⟩ }]

/-- The methods' edges to their classes. -/
def familyEdges : List Edge :=
  [⟨"m1", "base.run", "base", .method, none⟩, ⟨"m2", "child.run", "child", .method, none⟩]

/-- The derived edges of `family` stay when all is told backwards, under other labels and with
other code, with one method edge twice under new names and the others in between. -/
theorem infer_congr_retold :
    infer family familyEdges = infer
      (family.reverse.map fun n => { n with label := "", code := some "pass", scope := some "X" })
      (⟨"again", "child.run", "child", .method, some "twice"⟩ ::
        ⟨"stale", "base", "child", .inheritance, none⟩ ::
        ⟨"exec:s:1", "start", "run", .execution "s", some "1"⟩ :: familyEdges.reverse) ∧
    (infer family familyEdges).map Edge.kind = [.dependency, .inheritance, .overrides] := by
  refine ⟨infer_congr (by decide +kernel) (by decide +kernel) ?_ ?_, by decide +kernel⟩
  · intro x
    rw [List.map_map, List.map_reverse, List.mem_reverse]
    rfl
  · intro x
    simp only [familyEdges, methodEnds, List.filter, List.reverse, List.reverseAux, List.map,
      List.mem_cons, List.not_mem_nil, reduceCtorEq, decide_true, decide_false]
    grind

end Relations

end Runbook
