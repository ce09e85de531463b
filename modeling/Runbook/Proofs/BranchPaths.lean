import Runbook.Proofs.EdgeNames
import Runbook.Proofs.PrefixTree
import Runbook.Proofs.Updates

/-!
# Branching off

A session that branches off at a node of a file's tree takes the steps on the way to it, and one
more. The start is left out, which stands only at the top of the tree; but so is every step whose
graph node is named like the root of a tree or has no name, as if it marked a place as well.

* `Tree.descents`: the nodes below one, each with the nodes above it, in depth-first order
* `Tree.pathTo?_eq`: the way to a node leads to the first of its name
* `Tree.nodup_ids`: in a tree of paths, names differ
* `Tree.branched`: a path with one step more
* `Book.branchPath?_tree`: what branching off gives, and when it takes all steps
-/

namespace Runbook

namespace Tree

/-! ## Descents -/

mutual

/-- The nodes below one in depth-first order, each with those above it, the nearest last. -/
def descents : Tree → List (List Tree × Tree)
  | ⟨_, _, _, children⟩ => descentsAmong children

/-- Some nodes and those below them, each with those above it. -/
def descentsAmong : List Tree → List (List Tree × Tree)
  | [] => []
  | t :: rest => ([], t) :: (descents t).map (fun (above, u) => (t :: above, u)) ++
    descentsAmong rest

end

mutual

/-- The way to a node leads to the first of its name. -/
theorem pathTo?_eq (target : String) : ∀ t : Tree, t.pathTo? target =
    (t.descents.find? fun d => d.2.id = target).map fun d => d.1 ++ [d.2]
  | ⟨_, _, _, children⟩ => pathAmong?_eq target children

theorem pathAmong?_eq (target : String) : ∀ ts : List Tree, pathAmong? target ts =
    ((descentsAmong ts).find? fun d => d.2.id = target).map fun d => d.1 ++ [d.2]
  | [] => rfl
  | t :: rest => by
    rw [pathAmong?, descentsAmong, List.cons_append]
    by_cases hid : t.id = target
    · rw [if_pos hid, List.find?_cons_of_pos (by simpa using hid)]
      rfl
    · rw [if_neg hid, List.find?_cons_of_neg (by simpa using hid), List.find?_append,
        List.find?_map, pathAmong?_eq target rest, pathTo?_eq target t]
      show _ = (((t.descents.find? fun d => d.2.id = target).map _).or _).map _
      cases t.descents.find? fun d => d.2.id = target <;> rfl

end

mutual

/-- The way down to a node is told by the nodes above it. -/
theorem ways_eq_map : ∀ t : Tree,
    t.ways = t.descents.map fun d => ((d.1 ++ [d.2]).map Tree.node, d.2)
  | ⟨_, _, _, children⟩ => waysAmong_eq_map children

theorem waysAmong_eq_map : ∀ ts : List Tree,
    waysAmong ts = (descentsAmong ts).map fun d => ((d.1 ++ [d.2]).map Tree.node, d.2)
  | [] => rfl
  | t :: rest => by
    rw [waysAmong, descentsAmong, ways_eq_map t, waysAmong_eq_map rest, List.map_append,
      List.map_cons, List.map_map, List.map_map]
    rfl

end

/-- Where names differ, the way to a node that is there leads to it. -/
theorem pathTo?_of_mem {t : Tree} (h : (t.ways.map fun p => p.2.id).Nodup) {way : List NodeId}
    {u : Tree} (hu : (way, u) ∈ t.ways) :
    ∃ path, t.pathTo? u.id = some path ∧ path.map Tree.node = way := by
  rw [ways_eq_map] at h hu
  obtain ⟨d, hd, heq⟩ := List.mem_map.mp hu
  obtain ⟨rfl, rfl⟩ := Prod.mk.inj heq
  rw [List.map_map] at h
  obtain ⟨first, hfirst⟩ : ∃ first, t.descents.find? (fun d' => d'.2.id = d.2.id) = some first :=
    Option.isSome_iff_exists.mp (List.find?_isSome.mpr ⟨d, hd, decide_eq_true rfl⟩)
  have hid : first.2.id = d.2.id := by simpa using List.find?_some hfirst
  obtain rfl : first = d :=
    List.inj_on_of_nodup_map h (List.mem_of_find?_eq_some hfirst) hd hid
  exact ⟨first.1 ++ [first.2], by rw [pathTo?_eq, hfirst, Option.map_some], rfl⟩

/-- There is no way to a name that no node has. -/
theorem pathTo?_eq_none {t : Tree} {target : String} (h : ∀ p ∈ t.ways, p.2.id ≠ target) :
    t.pathTo? target = none := by
  rw [pathTo?_eq, Option.map_eq_none_iff, List.find?_eq_none]
  intro d hd hid
  refine h ((d.1 ++ [d.2]).map Tree.node, d.2) ?_ (of_decide_eq_true hid)
  rw [ways_eq_map]
  exact List.mem_map_of_mem hd

/-! ## Trees of paths -/

theorem nodeName_inj {m n : Nat} (h : "node" ++ toString m = "node" ++ toString n) : m = n :=
  Text.toString_inj (congrArg String.toList (String.append_right_inj _ |>.mp h))

/-- In a tree of paths, names differ. -/
theorem nodup_ids (labelOf : NodeId → String) (paths : List (List NodeId)) :
    ((build labelOf paths).ways.map fun p => p.2.id).Nodup := by
  have hids := (marks_build_perm labelOf paths).map Mark.id
  rw [marks, List.map_map, List.map_map] at hids
  refine hids.nodup_iff.mpr ?_
  have hnumbers := (List.nodup_range' (s := 1) (n := (firstSeen paths).length)).map
    (f := fun n => "node" ++ toString n) fun _ _ => nodeName_inj
  rw [← List.zipIdx_map_snd 1 (firstSeen paths), List.map_map] at hnumbers
  exact hnumbers

/-- A way down in a tree of paths is one that a path begins with. -/
theorem exists_prefix_of_mem_ways {labelOf : NodeId → String} {paths : List (List NodeId)}
    {way : List NodeId} {u : Tree} (h : (way, u) ∈ (build labelOf paths).ways) :
    way ≠ [] ∧ ∃ path ∈ paths, way <+: path :=
  mem_firstSeen.mp ((ways_build_perm labelOf paths).mem_iff.mp (List.mem_map_of_mem h))

/-! ## A step more -/

/-- A path with one step more, right before or right after the last. -/
def branched (placement : Placement) (path : List NodeId) (node : NodeId) : List NodeId :=
  match placement with
  | .before => path.dropLast ++ node :: path.getLast?.toList
  | .after => path ++ [node]

theorem mem_branched {placement : Placement} {path : List NodeId} {node id : NodeId} :
    id ∈ branched placement path node ↔ id = node ∨ id ∈ path := by
  cases placement with
  | after => rw [branched, List.mem_append, List.mem_singleton, or_comm]
  | before =>
    rcases path.eq_nil_or_concat with rfl | ⟨init, last, rfl⟩
    · simp [branched]
    · simp only [branched, List.concat_eq_append, List.dropLast_concat, List.getLast?_concat,
        Option.toList_some, List.mem_append, List.mem_cons, List.not_mem_nil, or_false]
      exact or_left_comm

/-- What is left of a path's first step. -/
theorem branched_cons (placement : Placement) (first : NodeId) {path : List NodeId}
    (h : path ≠ []) (node : NodeId) :
    branched placement (first :: path) node = first :: branched placement path node := by
  cases placement with
  | after => rfl
  | before =>
    rw [branched, List.dropLast_cons_of_ne_nil h, List.getLast?_cons_of_ne_nil h, branched,
      List.cons_append]

theorem branchPath?_eq (t : Tree) (target : String) (node : NodeId) (placement : Placement) :
    t.branchPath? target node placement = (t.pathTo? target).map fun path =>
      (branched placement (path.map Tree.node) node).filter fun id => !isMarker id := by
  cases placement <;> rfl

/-- The start is left out wherever the new step goes. -/
theorem filter_branched_start (placement : Placement) (path : List NodeId) (node : NodeId) :
    (branched placement (startId :: path) node).filter (fun id => !isMarker id) =
      (branched placement path node).filter fun id => !isMarker id := by
  have hstart : isMarker startId = true := rfl
  rcases eq_or_ne path [] with rfl | hpath
  · cases placement <;> simp [branched, List.filter_cons, hstart]
  · rw [branched_cons placement startId hpath, List.filter_cons_of_neg (by simp [hstart])]

theorem isMarker_iff {id : NodeId} (h : id ≠ startId) :
    isMarker id = false ↔ id ≠ rootId ∧ id ≠ "" := by
  simp [isMarker, h]

end Tree

namespace Book

open Runbook.Tree
open Workspace (idleSession)

/-- **What branching off gives.** At a node of a file's tree, the path of the new session is the one
down to the node with one step more, but without the steps whose graph nodes are named like the
root of a tree, or not at all; so it takes all steps exactly when there are none of these. At
names that no node of the tree has, nothing branches off. -/
theorem branchPath?_tree (b : Book) (g : Graph) (hstart : ∀ s ∈ b.sessions, startId ∉ s.path)
    {new : NodeId} (hnew : new ≠ startId) (placement : Placement) :
    (∀ way u, (way, u) ∈ (b.tree g).ways → ∃ path, way = startId :: path ∧
      (∃ s ∈ b.sessions, path <+: s.path) ∧
      (b.tree g).branchPath? u.id new placement =
        some ((branched placement path new).filter fun id => id ≠ rootId ∧ id ≠ "") ∧
      ((b.tree g).branchPath? u.id new placement = some (branched placement path new) ↔
        ∀ id ∈ new :: path, id ≠ rootId ∧ id ≠ "")) ∧
    ∀ target, (∀ p ∈ (b.tree g).ways, p.2.id ≠ target) →
      (b.tree g).branchPath? target new placement = none := by
  refine ⟨fun way u hu => ?_, fun target htarget => ?_⟩
  · obtain ⟨hne, path, hpath, hprefix⟩ := exists_prefix_of_mem_ways hu
    obtain ⟨s, hs, rfl⟩ := List.mem_map.mp hpath
    obtain ⟨first, path, rfl⟩ := List.exists_cons_of_ne_nil hne
    obtain ⟨rfl, hpath⟩ := List.cons_prefix_cons.mp hprefix
    -- below the top no step is the start, so what is left out besides it are real steps
    have hids : ∀ id ∈ branched placement path new, id ≠ startId := by
      intro id hid
      rcases mem_branched.mp hid with rfl | hid
      · exact hnew
      · exact fun heq => hstart s hs (heq ▸ hpath.subset hid)
    have hbranch : (b.tree g).branchPath? u.id new placement =
        some ((branched placement path new).filter fun id => id ≠ rootId ∧ id ≠ "") := by
      obtain ⟨trees, htrees, hway⟩ := pathTo?_of_mem (nodup_ids _ _) hu
      rw [branchPath?_eq, tree, htrees, Option.map_some, hway, filter_branched_start]
      refine congrArg some (List.filter_congr fun id hid => ?_)
      rw [Bool.eq_iff_iff, Bool.not_eq_true', isMarker_iff (hids id hid), decide_eq_true_iff]
    refine ⟨path, rfl, ⟨s, hs, hpath⟩, hbranch, ?_⟩
    rw [hbranch, Option.some_inj, List.filter_eq_self]
    simp only [mem_branched, decide_eq_true_eq, List.mem_cons]
  · rw [branchPath?_eq, pathTo?_eq_none htarget, Option.map_none]

/-- Two sessions that go apart after the first step. -/
def forked : Book := ⟨[idleSession "s" ["a", "b"], idleSession "t" ["a", "c"]], none⟩

/-- Branching off before the second session's second step takes the first step, the new one and
then the second. -/
theorem branchPath?_tree_forked :
    (∀ s ∈ forked.sessions, startId ∉ s.path) ∧ "n" ≠ startId ∧
    (forked.tree .empty).branchPath? "node4" "n" .before = some ["a", "n", "c"] ∧
    (forked.tree .empty).branchPath? "node5" "n" .before = none := by
  have hstart : ∀ s ∈ forked.sessions, startId ∉ s.path := by decide
  have hnew : "n" ≠ startId := by decide
  obtain ⟨hthere, hnone⟩ := branchPath?_tree forked .empty hstart hnew .before
  obtain ⟨path, hway, -, -, hall⟩ := hthere ["start", "a", "c"] ⟨"node4", "c", "c", []⟩
    (.tail _ (.tail _ (.tail _ (.head _))))
  obtain ⟨-, rfl⟩ := List.cons.inj hway
  exact ⟨hstart, hnew, hall.mpr (by decide), hnone "node5" (by decide)⟩

/-- A path through a node that is named like the root of a tree loses it. -/
theorem not_always_branched : ¬ ∀ (b : Book) (g : Graph) (new : NodeId) (placement : Placement),
    (∀ s ∈ b.sessions, startId ∉ s.path) → new ≠ startId →
    ∀ path u, (startId :: path, u) ∈ (b.tree g).ways →
      (b.tree g).branchPath? u.id new placement = some (branched placement path new) := by
  intro h
  have hbranch := h ⟨[idleSession "s" [rootId, "x"]], none⟩ .empty "new" .after (by decide)
    (by decide) [rootId, "x"] ⟨"node3", "x", "x", []⟩ (.tail _ (.tail _ (.head _)))
  revert hbranch
  decide

end Book

end Runbook
