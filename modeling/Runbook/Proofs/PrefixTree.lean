import Mathlib.Data.List.Infix
import Mathlib.Data.List.Nodup
import Runbook.Tree

/-!
# Trees of paths

The tree of some paths has one node for every way that one of them begins with, and nothing else.
Paths that begin alike share the nodes of what they have in common, and no others.

* `Tree.ways`: the nodes below the root, each with the way down to it
* `Tree.Forks`: below every node, no two children stand for the same graph node
* `Tree.prefixes`, `Tree.firstSeen`: the ways that paths begin with, as they come up
* `Tree.addPath_marks`: merging one path adds a node for each of its beginnings that is new
* `Tree.build_isPrefixTree`: the tree of some paths is their prefix tree
-/

namespace Runbook

/-! ## Lists in which each entry is kept once -/

section Once

variable {α : Type} [BEq α] [LawfulBEq α] {xs : List α}

theorem eraseDups_eq_self (h : xs.Nodup) : xs.eraseDups = xs := by
  induction xs with
  | nil => rfl
  | cons x rest ih =>
    obtain ⟨hnew, hrest⟩ := List.nodup_cons.mp h
    rw [List.eraseDups_cons, List.filter_eq_self.mpr, ih hrest]
    intro other hother
    rw [Bool.not_eq_true', beq_eq_false_iff_ne]
    rintro rfl
    exact hnew hother

/-- More entries, each of which comes once, are kept if they did not come up before. -/
theorem eraseDups_append_of_nodup (xs : List α) {ys : List α} (h : ys.Nodup) :
    (xs ++ ys).eraseDups = xs.eraseDups ++ ys.filter fun y => !xs.contains y := by
  rw [List.eraseDups_append, List.removeAll, eraseDups_eq_self (h.filter _)]

theorem eraseDups_concat (xs : List α) (x : α) :
    (xs ++ [x]).eraseDups = if x ∈ xs then xs.eraseDups else xs.eraseDups ++ [x] := by
  rw [eraseDups_append_of_nodup xs (List.nodup_singleton x)]
  by_cases hmem : x ∈ xs <;> simp [hmem]

theorem nodup_eraseDups (xs : List α) : xs.eraseDups.Nodup := by
  induction xs using List.reverseRecOn with
  | nil => exact List.nodup_nil
  | append_singleton xs x ih =>
    rw [eraseDups_concat]
    split
    · exact ih
    · rename_i hnew
      refine ih.append (List.nodup_singleton x) (List.disjoint_singleton.mpr fun hmem => ?_)
      exact hnew (List.mem_eraseDups.mp hmem)

end Once

namespace Tree

/-! ## Ways down -/

mutual

/-- The nodes below one, each with the graph nodes on the way down to it, its own last. -/
def ways : Tree → List (List NodeId × Tree)
  | ⟨_, _, _, children⟩ => waysAmong children

/-- Some nodes and those below them, each with the way down to it. -/
def waysAmong : List Tree → List (List NodeId × Tree)
  | [] => []
  | t :: rest => ([t.node], t) :: (ways t).map (fun (way, u) => (t.node :: way, u)) ++
    waysAmong rest

end

/-- Below every node, no two children stand for the same graph node. -/
inductive Forks : Tree → Prop
  /-- the children differ, and so it goes on below them -/
  | intro {t : Tree} (children : (t.children.map Tree.node).Nodup)
    (below : ∀ c ∈ t.children, Forks c) : Forks t

mutual

theorem size_eq : ∀ t : Tree, t.size = t.ways.length + 1
  | ⟨_, _, _, children⟩ => by rw [size, ways, sizes_eq children, Nat.add_comm]

theorem sizes_eq : ∀ ts : List Tree, sizes ts = (waysAmong ts).length
  | [] => rfl
  | t :: rest => by
    rw [sizes, waysAmong, size_eq t, sizes_eq rest, List.length_append, List.length_cons,
      List.length_map]

end

theorem length_eq (t : Tree) : t.length = t.ways.length := by
  rw [length, size_eq, Nat.add_sub_cancel]

theorem mem_waysAmong {way : List NodeId} {u : Tree} {ts : List Tree} :
    (way, u) ∈ waysAmong ts ↔ ∃ c ∈ ts, (way = [c.node] ∧ u = c) ∨
      ∃ rest, way = c.node :: rest ∧ (rest, u) ∈ c.ways := by
  induction ts with
  | nil => simp [waysAmong]
  | cons c ts ih =>
    simp only [waysAmong, List.cons_append, List.mem_cons, List.mem_append, List.mem_map, ih,
      Prod.mk.injEq, exists_eq_or_imp]
    grind

theorem ways_eq (t : Tree) : t.ways = waysAmong t.children := by
  cases t
  rfl

/-- A way down goes on from one of the children. -/
theorem cons_mem_ways {t c : Tree} (h : (t.children.map Tree.node).Nodup) (hc : c ∈ t.children)
    (rest : List NodeId) : c.node :: rest ∈ t.ways.map Prod.fst ↔
      rest = [] ∨ rest ∈ c.ways.map Prod.fst := by
  simp only [List.mem_map, Prod.exists, exists_and_right, exists_eq_right, ways_eq t, mem_waysAmong]
  constructor
  · rintro ⟨u, d, hd, ⟨hway, -⟩ | ⟨rest', hway, hu⟩⟩
    · exact .inl (List.cons.inj hway).2
    · obtain ⟨hnode, rfl⟩ := List.cons.inj hway
      obtain rfl : c = d := List.inj_on_of_nodup_map h hc hd hnode
      exact .inr ⟨u, hu⟩
  · rintro (rfl | ⟨u, hu⟩)
    · exact ⟨c, c, hc, .inl ⟨rfl, rfl⟩⟩
    · exact ⟨u, c, hc, .inr ⟨rest, rfl, hu⟩⟩

/-! ## Beginnings of paths -/

/-- The ways that a path begins with, the shortest first. -/
def prefixes (path : List NodeId) : List (List NodeId) := path.inits.tail

/-- The ways that some paths begin with, each once, in the order in which they come up. -/
def firstSeen (paths : List (List NodeId)) : List (List NodeId) :=
  (paths.flatMap prefixes).eraseDups

theorem prefixes_cons (id : NodeId) (path : List NodeId) :
    prefixes (id :: path) = [id] :: (prefixes path).map (id :: ·) := by
  cases path <;> simp [prefixes]

theorem mem_prefixes {way path : List NodeId} : way ∈ prefixes path ↔ way ≠ [] ∧ way <+: path := by
  induction path generalizing way with
  | nil => simp [prefixes]
  | cons id path ih =>
    rw [prefixes_cons, List.mem_cons, List.mem_map]
    cases way with
    | nil => simp
    | cons first rest =>
      simp only [ih, List.cons.injEq, List.cons_prefix_cons, ne_eq, reduceCtorEq, not_false_eq_true,
        true_and]
      grind

theorem nodup_prefixes (path : List NodeId) : (prefixes path).Nodup := by
  induction path with
  | nil => exact List.nodup_nil
  | cons id path ih =>
    rw [prefixes_cons, List.nodup_cons]
    refine ⟨?_, ih.map fun _ _ h => (List.cons.inj h).2⟩
    intro h
    obtain ⟨way, hway, heq⟩ := List.mem_map.mp h
    exact (mem_prefixes.mp hway).1 (List.cons.inj heq).2

theorem length_prefixes (path : List NodeId) : (prefixes path).length = path.length := by
  rw [prefixes, List.length_tail, List.length_inits, Nat.add_sub_cancel]

/-- One more path adds those of its beginnings that did not come up before. -/
theorem firstSeen_concat (paths : List (List NodeId)) (path : List NodeId) :
    firstSeen (paths ++ [path]) = firstSeen paths ++
      (prefixes path).filter fun way => way ∉ firstSeen paths := by
  rw [firstSeen, List.flatMap_append, List.eraseDups_append, List.flatMap_singleton, ← firstSeen,
    List.removeAll]
  have hsame : (prefixes path).filter (fun way => !List.elem way (paths.flatMap prefixes)) =
      (prefixes path).filter fun way => way ∉ firstSeen paths := by
    refine List.filter_congr fun way _ => ?_
    simp only [firstSeen, List.mem_eraseDups, List.elem_eq_mem, decide_not]
  rw [hsame, eraseDups_eq_self ((nodup_prefixes path).filter _)]

theorem nodup_firstSeen (paths : List (List NodeId)) : (firstSeen paths).Nodup :=
  nodup_eraseDups _

theorem mem_firstSeen {way : List NodeId} {paths : List (List NodeId)} :
    way ∈ firstSeen paths ↔ way ≠ [] ∧ ∃ path ∈ paths, way <+: path := by
  simp only [firstSeen, List.mem_eraseDups, List.mem_flatMap, mem_prefixes]
  exact ⟨fun ⟨path, hpath, hne, h⟩ => ⟨hne, path, hpath, h⟩,
    fun ⟨hne, path, hpath, h⟩ => ⟨path, hpath, hne, h⟩⟩

/-! ## Marks -/

/-- What is shown of a node, with the way down to it. -/
structure Mark where
  /-- the graph nodes on the way -/
  way : List NodeId
  /-- its name -/
  id : String
  /-- the graph node that it stands for -/
  node : NodeId
  /-- what is shown for that -/
  label : String

/-- The mark of a node at the end of a way. -/
def markOf (p : List NodeId × Tree) : Mark := ⟨p.1, p.2.id, p.2.node, p.2.label⟩

/-- The mark of the node with a number that a way is to have. -/
def newMark (labelOf : NodeId → String) (p : List NodeId × Nat) : Mark :=
  ⟨p.1, "node" ++ toString p.2, p.1.getLastD "", labelOf (p.1.getLastD "")⟩

/-- A mark seen from one node higher up. -/
def Mark.below (id : NodeId) (m : Mark) : Mark := { m with way := id :: m.way }

/-- The marks of the nodes below one. -/
def marks (t : Tree) : List Mark := t.ways.map markOf

/-- The marks of some nodes and of those below them. -/
def marksAmong (ts : List Tree) : List Mark := (waysAmong ts).map markOf

theorem marks_eq (t : Tree) : t.marks = marksAmong t.children := by
  rw [marks, ways_eq, marksAmong]

theorem marksAmong_cons (t : Tree) (ts : List Tree) : marksAmong (t :: ts) =
    ⟨[t.node], t.id, t.node, t.label⟩ :: t.marks.map (Mark.below t.node) ++ marksAmong ts := by
  rw [marksAmong, waysAmong, List.map_append, List.map_cons, List.map_map, marks, List.map_map]
  rfl

theorem marksAmong_append (ts us : List Tree) :
    marksAmong (ts ++ us) = marksAmong ts ++ marksAmong us := by
  induction ts with
  | nil => rfl
  | cons t ts ih =>
    rw [List.cons_append, marksAmong_cons, marksAmong_cons, ih, List.append_assoc]

theorem map_way_marks (t : Tree) : t.marks.map Mark.way = t.ways.map Prod.fst := by
  rw [marks, List.map_map]
  rfl

theorem map_way_newMark (labelOf : NodeId → String) (ways : List (List NodeId)) (k : Nat) :
    ((ways.zipIdx k).map (newMark labelOf)).map Mark.way = ways := by
  rw [List.map_map]
  exact List.zipIdx_map_fst k ways

/-- The marks of ways that go on from a node are those of the ways below it. -/
theorem map_newMark_below (labelOf : NodeId → String) (id : NodeId) (k : Nat)
    (ways : List (List NodeId)) (hways : ∀ way ∈ ways, way ≠ []) :
    ((ways.map (id :: ·)).zipIdx k).map (newMark labelOf) =
      ((ways.zipIdx k).map (newMark labelOf)).map (Mark.below id) := by
  rw [List.zipIdx_map, List.map_map, List.map_map]
  refine List.map_congr_left fun p hp => ?_
  obtain ⟨way, n⟩ := p
  cases way with
  | nil => exact absurd rfl (hways [] (List.fst_mem_of_mem_zipIdx hp))
  | cons first rest => rfl

/-- A chain of new nodes has the beginnings of its path for ways. -/
theorem marksAmong_chain (labelOf : NodeId → String) (path : List NodeId) :
    ∀ count, marksAmong (chain labelOf count path) =
      ((prefixes path).zipIdx (count + 1)).map (newMark labelOf) := by
  induction path with
  | nil => exact fun _ => rfl
  | cons id path ih =>
    intro count
    rw [chain, marksAmong_cons, marks_eq, ih, prefixes_cons, List.zipIdx_cons, List.map_cons,
      map_newMark_below labelOf id _ _ fun way hway => (mem_prefixes.mp hway).1]
    exact List.append_nil _

theorem forks_of_mem_chain (labelOf : NodeId → String) (path : List NodeId) :
    ∀ count, ∀ t ∈ chain labelOf count path, Forks t := by
  induction path with
  | nil => exact fun _ t h => absurd h List.not_mem_nil
  | cons id path ih =>
    intro count t h
    rw [chain, List.mem_singleton] at h
    subst h
    refine .intro ?_ (ih (count + 1))
    cases path with
    | nil => exact List.nodup_nil
    | cons next rest => exact List.nodup_singleton _

/-! ## Merging a path -/

theorem replaceFirst_eq {id : NodeId} {c : Tree} {pre post : List Tree} (c' : Tree)
    (hpre : ∀ t ∈ pre, t.node ≠ id) (hc : c.node = id) :
    replaceFirst id c' (pre ++ c :: post) = pre ++ c' :: post := by
  induction pre with
  | nil => rw [List.nil_append, replaceFirst, if_pos hc, List.nil_append]
  | cons t pre ih =>
    rw [List.cons_append, replaceFirst, if_neg (hpre t (List.mem_cons_self ..)),
      ih fun u hu => hpre u (List.mem_cons_of_mem _ hu), List.cons_append]

/-- The beginnings of a path that no way down from a node is. -/
def newWays (t : Tree) (path : List NodeId) : List (List NodeId) :=
  (prefixes path).filter fun way => way ∉ t.ways.map Prod.fst

theorem ne_nil_of_mem_newWays {t : Tree} {way path : List NodeId} (h : way ∈ t.newWays path) :
    way ≠ [] :=
  (mem_prefixes.mp (List.mem_filter.mp h).1).1

/-- Below a node without a child for the first step of a path, all its beginnings are new. -/
theorem newWays_of_forall_ne {t : Tree} {id : NodeId} (path : List NodeId)
    (h : ∀ c ∈ t.children, c.node ≠ id) : t.newWays (id :: path) = prefixes (id :: path) := by
  rw [newWays, List.filter_eq_self]
  intro way hway
  obtain ⟨rest, rfl⟩ : ∃ rest, way = id :: rest := by
    rw [prefixes_cons, List.mem_cons, List.mem_map] at hway
    rcases hway with rfl | ⟨rest, -, rfl⟩ <;> exact ⟨_, rfl⟩
  rw [decide_eq_true_eq, List.mem_map]
  rintro ⟨⟨way, u⟩, hmem, rfl : way = _⟩
  rw [ways_eq] at hmem
  obtain ⟨c, hc, ⟨hway, -⟩ | ⟨rest', hway, -⟩⟩ := mem_waysAmong.mp hmem
  · exact h c hc (List.cons.inj hway).1.symm
  · exact h c hc (List.cons.inj hway).1.symm

/-- Below a child for the first step of a path, the new beginnings are those of the rest of it. -/
theorem newWays_cons {t c : Tree} (h : (t.children.map Tree.node).Nodup) (hc : c ∈ t.children)
    (path : List NodeId) :
    t.newWays (c.node :: path) = (c.newWays path).map (c.node :: ·) := by
  have hold : [c.node] ∈ t.ways.map Prod.fst := (cons_mem_ways h hc []).mpr (.inl rfl)
  rw [newWays, prefixes_cons, List.filter_cons_of_neg (by simpa using hold), List.filter_map,
    newWays]
  congr 1
  refine List.filter_congr fun way hway => ?_
  have hne : way ≠ [] := (mem_prefixes.mp hway).1
  simp only [Function.comp_apply, decide_not, cons_mem_ways h hc, hne, false_or]

/-- Merging a path touches nothing of the node itself but its children. -/
theorem addPath_top (labelOf : NodeId → String) (path : List NodeId) (count : Nat) (t : Tree) :
    ∃ children, (addPath labelOf path count t).2 = { t with children } := by
  cases path with
  | nil =>
    cases t
    exact ⟨_, rfl⟩
  | cons id path =>
    rw [addPath]
    split <;> exact ⟨_, rfl⟩

/-- A path that leaves the tree becomes a chain of new nodes. -/
theorem addPath_cons_of_forall_ne (labelOf : NodeId → String) (path : List NodeId) (count : Nat)
    {t : Tree} {id : NodeId} (h : ∀ c ∈ t.children, c.node ≠ id) :
    addPath labelOf (id :: path) count t = (count + (path.length + 1),
      { t with children := t.children ++ chain labelOf count (id :: path) }) := by
  have hnone : t.children.find? (fun c => c.node = id) = none :=
    List.find?_eq_none.mpr fun c hc hid => h c hc (of_decide_eq_true hid)
  rw [addPath, hnone, Nat.add_assoc]

/-- A path that stays in the tree is merged below the child that it goes on to. -/
theorem addPath_cons_of_split (labelOf : NodeId → String) (path : List NodeId) (count : Nat)
    {t c : Tree} {pre post : List Tree} (hsplit : t.children = pre ++ c :: post)
    (hpre : ∀ u ∈ pre, u.node ≠ c.node) :
    addPath labelOf (c.node :: path) count t = ((addPath labelOf path count c).1,
      { t with children := pre ++ (addPath labelOf path count c).2 :: post }) := by
  have hsome : t.children.find? (fun u => u.node = c.node) = some c :=
    List.find?_eq_some_iff_append.mpr
      ⟨decide_eq_true rfl, pre, post, hsplit, fun u hu => by simpa using hpre u hu⟩
  rw [addPath, hsome]
  simp only [hsplit, replaceFirst_eq _ hpre rfl]

/-- The first child for a graph node, or there is none. -/
theorem split_children (t : Tree) (id : NodeId) : (∀ c ∈ t.children, c.node ≠ id) ∨
    ∃ c pre post, c.node = id ∧ t.children = pre ++ c :: post ∧ ∀ u ∈ pre, u.node ≠ id := by
  cases hfind : t.children.find? fun c => c.node = id with
  | none => exact .inl fun c hc hid => List.find?_eq_none.mp hfind c hc (decide_eq_true hid)
  | some c =>
    obtain ⟨hid, pre, post, hsplit, hpre⟩ := List.find?_eq_some_iff_append.mp hfind
    exact .inr ⟨c, pre, post, of_decide_eq_true hid, hsplit, fun u hu => by simpa using hpre u hu⟩

/-- Merging a path keeps siblings apart. -/
theorem Forks.addPath (labelOf : NodeId → String) (path : List NodeId) :
    ∀ (count : Nat) {t : Tree}, t.Forks → (Tree.addPath labelOf path count t).2.Forks := by
  induction path with
  | nil => exact fun _ _ h => h
  | cons id path ih =>
    intro count t h
    obtain ⟨hchildren, hbelow⟩ := h
    rcases split_children t id with hne | ⟨c, pre, post, rfl, hsplit, hpre⟩
    · rw [addPath_cons_of_forall_ne labelOf path count hne]
      refine .intro ?_ fun c hc => ?_
      · rw [List.map_append]
        refine hchildren.append (List.nodup_singleton _) fun node hold hlast => ?_
        obtain ⟨c, hc, rfl⟩ := List.mem_map.mp hold
        exact hne c hc (List.mem_singleton.mp hlast)
      · rcases List.mem_append.mp hc with hc | hc
        · exact hbelow c hc
        · exact forks_of_mem_chain labelOf (id :: path) count c hc
    · rw [addPath_cons_of_split labelOf path count hsplit hpre]
      obtain ⟨children, htop⟩ := addPath_top labelOf path count c
      have hnode : (Tree.addPath labelOf path count c).2.node = c.node := by rw [htop]
      rw [hsplit] at hchildren hbelow
      refine .intro ?_ fun d hd => ?_
      · rw [List.map_append, List.map_cons, hnode, ← List.map_cons, ← List.map_append]
        exact hchildren
      · rcases List.mem_append.mp hd with hd | hd
        · exact hbelow d (List.mem_append_left _ hd)
        · rcases List.mem_cons.mp hd with rfl | hd
          · exact ih count (hbelow c (List.mem_append_right _ (List.mem_cons_self ..)))
          · exact hbelow d (List.mem_append_right _ (List.mem_cons_of_mem _ hd))

/-- Merging a path adds a node for each of its beginnings that is new, numbered from the count on,
and leaves all other nodes with their ways down. -/
theorem addPath_marks (labelOf : NodeId → String) (path : List NodeId) :
    ∀ (count : Nat) {t : Tree}, t.Forks →
      (addPath labelOf path count t).1 = count + (t.newWays path).length ∧
        (addPath labelOf path count t).2.marks.Perm
          (t.marks ++ ((t.newWays path).zipIdx (count + 1)).map (newMark labelOf)) := by
  induction path with
  | nil => exact fun count t _ => ⟨rfl, .of_eq (List.append_nil _).symm⟩
  | cons id path ih =>
    intro count t h
    obtain ⟨hchildren, hbelow⟩ := h
    rcases split_children t id with hne | ⟨c, pre, post, rfl, hsplit, hpre⟩
    · -- from here on the path goes its own way
      rw [addPath_cons_of_forall_ne labelOf path count hne, newWays_of_forall_ne path hne]
      refine ⟨by rw [length_prefixes, List.length_cons], ?_⟩
      rw [marks_eq, marksAmong_append, marksAmong_chain, marks_eq]
    · -- the marks below the child that the path goes on to grow, and those beside it stay
      have hc : c ∈ t.children := hsplit ▸ List.mem_append_right _ (List.mem_cons_self ..)
      obtain ⟨hcount, hmarks⟩ := ih count (hbelow c hc)
      obtain ⟨children, htop⟩ := addPath_top labelOf path count c
      have hhead : marksAmong ((addPath labelOf path count c).2 :: post) =
          ⟨[c.node], c.id, c.node, c.label⟩ ::
            (addPath labelOf path count c).2.marks.map (Mark.below c.node) ++ marksAmong post := by
        rw [marksAmong_cons, htop]
      rw [addPath_cons_of_split labelOf path count hsplit hpre, newWays_cons hchildren hc,
        map_newMark_below labelOf _ _ _ fun _ => ne_nil_of_mem_newWays, List.length_map]
      refine ⟨hcount, ?_⟩
      have hgrown := hmarks.map (Mark.below c.node)
      rw [List.map_append] at hgrown
      rw [marks_eq, marks_eq, hsplit, marksAmong_append, marksAmong_append, hhead, marksAmong_cons,
        List.append_assoc]
      refine .append_left _ (((hgrown.cons _).append_right _).trans ?_)
      rw [← List.cons_append, List.append_assoc, List.append_assoc]
      exact .append_left _ List.perm_append_comm

/-! ## The whole tree -/

/-- The tree is what remains of some paths when their common beginnings are told only once. -/
structure IsPrefixTree (labelOf : NodeId → String) (paths : List (List NodeId)) (t : Tree) :
    Prop where
  /-- the ways down are the beginnings of the paths -/
  ways : ∀ way, way ∈ t.ways.map Prod.fst ↔ way ≠ [] ∧ ∃ path ∈ paths, way <+: path
  /-- no two nodes have the same way down -/
  nodup : (t.ways.map Prod.fst).Nodup
  /-- siblings stand for different graph nodes -/
  forks : t.Forks
  /-- the nodes are numbered from one on -/
  ids : (t.ways.map fun p => p.2.id).Perm
    ((List.range t.length).map fun k => "node" ++ toString (k + 1))
  /-- they are numbered in the order in which the beginnings come up -/
  numbered : ∀ k way, (firstSeen paths)[k]? = some way →
    ∃ u, (way, u) ∈ t.ways ∧ u.id = "node" ++ toString (k + 1)
  /-- a node stands for the end of its way, and shows that -/
  labels : ∀ p ∈ t.ways, p.1.getLast? = some p.2.node ∧ p.2.label = labelOf p.2.node

/-- While paths are merged, the nodes are those for the beginnings that have come up. -/
theorem foldl_addPath (labelOf : NodeId → String) (paths : List (List NodeId)) :
    let built := paths.foldl (fun (count, t) path => addPath labelOf path count t) (0, root)
    built.1 = (firstSeen paths).length ∧ built.2.Forks ∧
      built.2.marks.Perm (((firstSeen paths).zipIdx 1).map (newMark labelOf)) := by
  induction paths using List.reverseRecOn with
  | nil => exact ⟨rfl, .intro List.nodup_nil nofun, List.Perm.refl _⟩
  | append_singleton paths path ih =>
    rw [List.foldl_append, List.foldl_cons, List.foldl_nil]
    generalize paths.foldl (fun (count, t) path => addPath labelOf path count t) (0, root) =
      built at ih ⊢
    obtain ⟨count, t⟩ := built
    obtain ⟨rfl, hforks, hmarks⟩ := ih
    obtain ⟨hcount, hmore⟩ := addPath_marks labelOf path (firstSeen paths).length hforks
    -- what is new to the tree is what has not come up
    have hnew : t.newWays path = (prefixes path).filter fun way => way ∉ firstSeen paths := by
      have hways : ∀ way, way ∈ t.ways.map Prod.fst ↔ way ∈ firstSeen paths := by
        intro way
        rw [← map_way_marks, (hmarks.map Mark.way).mem_iff, map_way_newMark]
      simp only [newWays, hways]
    refine ⟨?_, hforks.addPath labelOf path _, ?_⟩
    · rw [hcount, hnew, firstSeen_concat, List.length_append]
    · refine hmore.trans ?_
      rw [hnew, firstSeen_concat, List.zipIdx_append, List.map_append, Nat.add_comm 1]
      exact hmarks.append_right _

/-- The nodes of the tree are those for the beginnings of the paths. -/
theorem marks_build_perm (labelOf : NodeId → String) (paths : List (List NodeId)) :
    (build labelOf paths).marks.Perm (((firstSeen paths).zipIdx 1).map (newMark labelOf)) :=
  (foldl_addPath labelOf paths).2.2

/-- Its ways down are the beginnings of the paths, each once. -/
theorem ways_build_perm (labelOf : NodeId → String) (paths : List (List NodeId)) :
    ((build labelOf paths).ways.map Prod.fst).Perm (firstSeen paths) := by
  rw [← map_way_marks]
  exact ((marks_build_perm labelOf paths).map Mark.way).trans
    (.of_eq (map_way_newMark labelOf _ 1))

/-- **The tree of some paths is their prefix tree.** It has one node for every way that one of the
paths begins with, in whatever order and however often they come, and the nodes are numbered as
these ways come up. -/
theorem build_isPrefixTree (labelOf : NodeId → String) (paths : List (List NodeId)) :
    IsPrefixTree labelOf paths (build labelOf paths) := by
  obtain ⟨-, hforks, hmarks⟩ := foldl_addPath labelOf paths
  rw [← build] at hforks hmarks
  generalize build labelOf paths = t at hforks hmarks
  have hways : (t.ways.map Prod.fst).Perm (firstSeen paths) := by
    rw [← map_way_marks]
    exact (hmarks.map Mark.way).trans (.of_eq (map_way_newMark labelOf _ 1))
  have hlength : t.length = (firstSeen paths).length := by
    rw [length_eq, ← hways.length_eq, List.length_map]
  refine ⟨fun way => ?_, hways.nodup_iff.mpr (nodup_firstSeen paths), hforks, ?_, ?_, ?_⟩
  · rw [hways.mem_iff, mem_firstSeen]
  · have hids := hmarks.map Mark.id
    rw [marks, List.map_map, List.map_map] at hids
    refine hids.trans (.of_eq ?_)
    have hnumbers := congrArg (List.map fun n => "node" ++ toString n)
      (List.zipIdx_map_snd 1 (firstSeen paths))
    rw [List.map_map, List.range'_eq_map_range, List.map_map, ← hlength] at hnumbers
    refine hnumbers.trans (List.map_congr_left fun k _ => ?_)
    rw [Function.comp_apply, Nat.add_comm]
  · intro k way hk
    have hnew : newMark labelOf (way, k + 1) ∈ t.marks := by
      rw [hmarks.mem_iff, Nat.add_comm]
      exact List.mem_map_of_mem (List.mk_add_mem_zipIdx_iff_getElem?.mpr hk)
    obtain ⟨⟨way', u⟩, hu, hmark⟩ := List.mem_map.mp hnew
    obtain ⟨rfl, hid, -⟩ := Mark.mk.inj hmark
    exact ⟨u, hu, hid⟩
  · intro p hp
    obtain ⟨⟨way, n⟩, hn, hmark⟩ := List.mem_map.mp (hmarks.mem_iff.mp (List.mem_map_of_mem hp))
    obtain ⟨hway, -, hnode, hlabel⟩ := Mark.mk.inj hmark
    have hne : way ≠ [] := (mem_firstSeen.mp (List.fst_mem_of_mem_zipIdx hn)).1
    rw [← hway, ← hnode, ← hlabel, List.getLastD_eq_getLast?, List.getLast?_eq_some_getLast hne]
    exact ⟨rfl, rfl⟩

end Tree

end Runbook
