import Runbook.Proofs.Highlights

/-!
# First ways

Whatever is looked for in a tree is looked for in depth-first order, and the first that is found is
taken. A way down is told by the places of the children that it goes through, and of two ways the
one comes first whose places do, read like words: so a node comes before all that is below it, and
what is below one child before what is below the next.

* `Tree.down?`: the way through the children at some places
* `Tree.IsFirst`: of the ways that are wanted, the one that comes first
* `Tree.match?_isFirst`: the first way along given steps is found
* `Tree.rows_eq`: the rows of a tree are its nodes in this order
* `Tree.pathTo?_isFirst`: the first way to a name is found, and in a tree of paths it tells the
  beginning of a path
-/

namespace Runbook

namespace Tree

/-! ## Places -/

/-- The way down from a node through the children at the given places, counted from zero. -/
def down? (t : Tree) : List Nat → Option (List Tree)
  | [] => some []
  | i :: places => do
    let c ← t.children[i]?
    return c :: (← c.down? places)

/-- Of the ways down that are wanted, the first: the places of every other come later, as words do
in a dictionary. -/
def IsFirst (t : Tree) (wanted : List Tree → Prop) (way : List Tree) : Prop :=
  ∃ places, t.down? places = some way ∧ wanted way ∧
    ∀ others other, t.down? others = some other → wanted other →
      others = places ∨ List.Lex (· < ·) places others

theorem down?_cons_eq_some {t : Tree} {i : Nat} {places : List Nat} {way : List Tree} :
    t.down? (i :: places) = some way ↔
      ∃ c rest, t.children[i]? = some c ∧ c.down? places = some rest ∧ way = c :: rest := by
  simp only [down?, Option.bind_eq_bind, Option.bind_eq_some_iff, Option.pure_def,
    Option.some.injEq]
  grind

/-- The ways down are those through the children at some places. -/
theorem leads_iff_down? {t : Tree} {way : List Tree} :
    t.Leads way ↔ ∃ places, t.down? places = some way := by
  constructor
  · intro h
    induction h with
    | nil => exact ⟨[], rfl⟩
    | cons hc _ ih =>
      obtain ⟨places, hrest⟩ := ih
      obtain ⟨i, hi⟩ := List.getElem?_of_mem hc
      exact ⟨i :: places, down?_cons_eq_some.mpr ⟨_, _, hi, hrest, rfl⟩⟩
  · rintro ⟨places, h⟩
    induction places generalizing t way with
    | nil =>
      obtain rfl : [] = way := Option.some_inj.mp h
      exact .nil
    | cons i places ih =>
      obtain ⟨c, rest, hc, hrest, rfl⟩ := down?_cons_eq_some.mp h
      exact .cons (List.mem_of_getElem? hc) (ih hrest)

namespace IsFirst

variable {t : Tree} {wanted : List Tree → Prop} {way : List Tree}

theorem leads (h : t.IsFirst wanted way) : t.Leads way := by
  obtain ⟨places, hway, -⟩ := h
  exact leads_iff_down?.mpr ⟨places, hway⟩

theorem wants (h : t.IsFirst wanted way) : wanted way := by
  obtain ⟨_, _, hwanted, _⟩ := h
  exact hwanted

/-- There is only one first way. -/
theorem unique {other : List Tree} (h : t.IsFirst wanted way) (h' : t.IsFirst wanted other) :
    way = other := by
  obtain ⟨places, hway, hwanted, hleast⟩ := h
  obtain ⟨others, hother, hwanted', hleast'⟩ := h'
  have hplaces : others = places := by
    rcases hleast others other hother hwanted' with heq | hlt
    · exact heq
    rcases hleast' places way hway hwanted with heq | hlt'
    · exact heq.symm
    · exact absurd hlt' (List.lex_asymm (fun h h' => Nat.lt_asymm h h') hlt)
  exact Option.some_inj.mp (hway.symm.trans (hplaces ▸ hother))

/-- If not going anywhere will do, no way comes before that. -/
theorem here (h : wanted []) : t.IsFirst wanted [] := by
  refine ⟨[], rfl, h, fun others _ _ _ => ?_⟩
  cases others with
  | nil => exact .inl rfl
  | cons i others => exact .inr .nil

/-- If going nowhere will not do, the first way goes to the first child below which there is a
wanted one, and on from there by the first. -/
theorem below {c : Tree} {before after rest : List Tree} (hnil : ¬ wanted [])
    (hchildren : t.children = before ++ c :: after)
    (hbefore : ∀ d ∈ before, ∀ w, d.Leads w → ¬ wanted (d :: w))
    (hrest : c.IsFirst (fun w => wanted (c :: w)) rest) : t.IsFirst wanted (c :: rest) := by
  obtain ⟨places, hway, hwanted, hleast⟩ := hrest
  have hc : t.children[before.length]? = some c := by
    rw [hchildren, List.getElem?_append_right (Nat.le_refl _), Nat.sub_self]
    rfl
  refine ⟨before.length :: places, down?_cons_eq_some.mpr ⟨c, rest, hc, hway, rfl⟩, hwanted,
    fun others other hother hwanted' => ?_⟩
  cases others with
  | nil =>
    obtain rfl : [] = other := Option.some_inj.mp hother
    exact absurd hwanted' hnil
  | cons i others =>
    obtain ⟨d, w, hd, hw, rfl⟩ := down?_cons_eq_some.mp hother
    rcases Nat.lt_trichotomy i before.length with hi | rfl | hi
    · rw [hchildren, List.getElem?_append_left hi] at hd
      exact absurd hwanted' (hbefore d (List.mem_of_getElem? hd) w (leads_iff_down?.mpr ⟨_, hw⟩))
    · obtain rfl : c = d := Option.some_inj.mp (hc.symm.trans hd)
      rcases hleast others w hw hwanted' with rfl | hlt
      · exact .inl rfl
      · exact .inr (.cons hlt)
    · exact .inr (.rel hi)

end IsFirst

/-! ## Along steps -/

/-- The step that goes to a node. -/
def step (t : Tree) : Step := ⟨t.node, t.label⟩

theorem isStep_iff_step_eq {s : Step} {t : Tree} : isStep s t = true ↔ t.step = s := by
  rw [isStep_iff, step]
  cases s
  rw [Step.mk.injEq]

theorem along_iff {steps : List Step} {way : List Tree} :
    Along steps way ↔ way.map step = steps := by
  induction steps generalizing way with
  | nil => rw [Along, List.forall₂_nil_left_iff, List.map_eq_nil_iff]
  | cons s steps ih =>
    cases way with
    | nil => constructor <;> rintro ⟨⟩
    | cons u way =>
      rw [Along, List.forall₂_cons, ← Along, ih, isStep_iff_step_eq, List.map_cons,
        List.cons.injEq]

theorem isFirst_of_match? {steps : List Step} : ∀ {t : Tree} {way : List Tree},
    t.match? steps = some way → t.IsFirst (fun way => way.map step = steps) way := by
  induction steps with
  | nil =>
    rintro t _ ⟨⟩
    exact .here rfl
  | cons s steps ih =>
    intro t way h
    rw [match?, List.findSome?_eq_some_iff] at h
    obtain ⟨before, c, after, hchildren, hfound, hnone⟩ := h
    obtain ⟨hs, hfound⟩ := Option.ite_none_right_eq_some.mp hfound
    obtain ⟨rest, hrest, rfl⟩ := Option.map_eq_some_iff.mp hfound
    refine .below (by simp) hchildren (fun d hd w hleads hsteps => ?_) ?_
    · -- what is there below an earlier child would have been found
      rw [List.map_cons, List.cons.injEq, ← isStep_iff_step_eq, ← along_iff] at hsteps
      obtain ⟨found, hmatch⟩ := exists_match?_of_leads hleads hsteps.2
      have hd := hnone d hd
      rw [if_pos hsteps.1, hmatch] at hd
      cases hd
    · simpa only [List.map_cons, isStep_iff_step_eq.mp hs, List.cons.injEq, true_and]
        using ih hrest

/-- **The first way along given steps is found.** A way down along some steps is found exactly if
there is one, in whatever tree. Among all there are it is the first, by the places of its nodes
among their siblings; it has a node for each step, and none for no steps. -/
theorem match?_isFirst (t : Tree) (steps : List Step) :
    ((∃ way, t.match? steps = some way) ↔ ∃ way, t.Leads way ∧ way.map step = steps) ∧
    (∀ way, t.match? steps = some way ↔ t.IsFirst (fun way => way.map step = steps) way) ∧
    (∀ way, t.match? steps = some way → way.length = steps.length) ∧
    t.match? [] = some [] := by
  have hexists : (∃ way, t.match? steps = some way) ↔
      ∃ way, t.Leads way ∧ way.map step = steps := by
    simp only [exists_match?_iff, along_iff]
  refine ⟨hexists, fun way => ⟨isFirst_of_match?, fun h => ?_⟩, fun way h => ?_, rfl⟩
  · obtain ⟨found, hfound⟩ := hexists.mpr ⟨way, h.leads, h.wants⟩
    rw [hfound, (isFirst_of_match? hfound).unique h]
  · rw [← (isFirst_of_match? h).wants, List.length_map]

/-- Below the root there are three nodes that look alike, and only below the last two is there
another. -/
def lookalikes : Tree :=
  ⟨rootId, rootId, rootId, [⟨"1", "a", "A", []⟩, ⟨"2", "a", "A", [⟨"3", "b", "B", []⟩]⟩,
    ⟨"4", "a", "A", [⟨"5", "b", "B", []⟩]⟩]⟩

/-- The first of them leads nowhere, so the second is taken. -/
theorem match?_isFirst_lookalikes :
    (∃ way, lookalikes.match? [⟨"a", "A"⟩, ⟨"b", "B"⟩] = some way ∧ way.length = 2) ∧
    lookalikes.IsFirst (fun way => way.map step = [⟨"a", "A"⟩, ⟨"b", "B"⟩])
      [⟨"2", "a", "A", [⟨"3", "b", "B", []⟩]⟩, ⟨"3", "b", "B", []⟩] := by
  obtain ⟨-, hfirst, hlength, -⟩ := match?_isFirst lookalikes [⟨"a", "A"⟩, ⟨"b", "B"⟩]
  have hfound : lookalikes.match? [⟨"a", "A"⟩, ⟨"b", "B"⟩] =
    some [⟨"2", "a", "A", [⟨"3", "b", "B", []⟩]⟩, ⟨"3", "b", "B", []⟩] := rfl
  exact ⟨⟨_, hfound, hlength _ hfound⟩, (hfirst _).mp hfound⟩

/-! ## To a name -/

/-- The way leads to a node of this name. -/
def EndsAt (target : String) (way : List Tree) : Prop := way.getLast?.map Tree.id = some target

theorem not_endsAt_nil (target : String) : ¬ EndsAt target [] := nofun

theorem endsAt_singleton {target : String} {c : Tree} : EndsAt target [c] ↔ c.id = target :=
  Option.some_inj

theorem endsAt_cons {target : String} {c : Tree} {way : List Tree} (h : way ≠ []) :
    EndsAt target (c :: way) ↔ EndsAt target way := by
  rw [EndsAt, List.getLast?_cons_of_ne_nil h, EndsAt]

theorem pathAmong?_eq_findSome? (target : String) (ts : List Tree) : pathAmong? target ts =
    ts.findSome? fun c => if c.id = target then some [c] else (c.pathTo? target).map (c :: ·) := by
  induction ts with
  | nil => rfl
  | cons c rest ih =>
    rw [pathAmong?, List.findSome?_cons, ih]
    by_cases hid : c.id = target
    · rw [if_pos hid, if_pos hid]
    · rw [if_neg hid, if_neg hid]
      cases c.pathTo? target <;> rfl

/-- The children are tried in order, each before what is below it. -/
theorem pathTo?_eq_findSome? (target : String) (t : Tree) : t.pathTo? target =
    t.children.findSome? fun c =>
      if c.id = target then some [c] else (c.pathTo? target).map (c :: ·) := by
  cases t
  rw [pathTo?, pathAmong?_eq_findSome?]

theorem exists_pathTo?_of_leads {target : String} {t : Tree} {way : List Tree}
    (hleads : t.Leads way) (hway : EndsAt target way) : ∃ found, t.pathTo? target = some found := by
  induction hleads with
  | nil => exact absurd hway (not_endsAt_nil target)
  | @cons _ c rest hc _ ih =>
    rw [pathTo?_eq_findSome?, ← Option.isSome_iff_exists, List.findSome?_isSome_iff]
    refine ⟨c, hc, ?_⟩
    by_cases hid : c.id = target
    · rw [if_pos hid]
      rfl
    · have hne : rest ≠ [] := by
        rintro rfl
        exact hid (endsAt_singleton.mp hway)
      obtain ⟨found, hfound⟩ := ih ((endsAt_cons hne).mp hway)
      rw [if_neg hid, hfound]
      rfl

theorem isFirst_of_pathTo? {target : String} {way : List Tree} : ∀ {t : Tree},
    t.pathTo? target = some way → t.IsFirst (EndsAt target) way := by
  induction way with
  | nil =>
    intro t h
    rw [pathTo?_eq_findSome?] at h
    obtain ⟨c, -, hfound⟩ := List.exists_of_findSome?_eq_some h
    split at hfound
    · cases hfound
    · obtain ⟨_, _, hway⟩ := Option.map_eq_some_iff.mp hfound
      cases hway
  | cons c rest ih =>
    intro t h
    rw [pathTo?_eq_findSome?, List.findSome?_eq_some_iff] at h
    obtain ⟨before, c', after, hchildren, hfound, hnone⟩ := h
    have hbefore : ∀ d ∈ before, ∀ w, d.Leads w → ¬ EndsAt target (d :: w) := by
      intro d hd w hleads hends
      have hd := hnone d hd
      split at hd
      · cases hd
      · rename_i hid
        have hne : w ≠ [] := by
          rintro rfl
          exact hid (endsAt_singleton.mp hends)
        obtain ⟨found, hfound⟩ := exists_pathTo?_of_leads hleads ((endsAt_cons hne).mp hends)
        rw [hfound] at hd
        cases hd
    split at hfound
    · rename_i hid
      cases hfound
      exact .below (not_endsAt_nil target) hchildren hbefore (.here (endsAt_singleton.mpr hid))
    · rename_i hid
      obtain ⟨_, hrest, hway⟩ := Option.map_eq_some_iff.mp hfound
      cases hway
      refine .below (not_endsAt_nil target) hchildren hbefore ?_
      have hwanted : (fun w => EndsAt target (c :: w)) = EndsAt target := by
        funext w
        rcases eq_or_ne w [] with rfl | hw
        · exact propext ⟨fun h => absurd (endsAt_singleton.mp h) hid,
            fun h => absurd h (not_endsAt_nil target)⟩
        · exact propext (endsAt_cons hw)
      rw [hwanted]
      exact ih hrest

/-! ## Rows -/

mutual

/-- The rows of a tree are the nodes below the top in depth-first order, each as deep as there are
nodes above it. -/
theorem rows_eq (depth : Nat) : ∀ t : Tree,
    t.rows depth = t.descents.map fun d => (depth + d.1.length, d.2)
  | ⟨_, _, _, children⟩ => rowsAmong_eq depth children

theorem rowsAmong_eq (depth : Nat) : ∀ ts : List Tree,
    rowsAmong depth ts = (descentsAmong ts).map fun d => (depth + d.1.length, d.2)
  | [] => rfl
  | t :: rest => by
    rw [rowsAmong, descentsAmong, rows_eq (depth + 1) t, rowsAmong_eq depth rest,
      List.cons_append, List.map_cons, List.map_append, List.map_map]
    simp only [Function.comp_def, List.length_cons, Nat.add_assoc, Nat.add_comm 1]
    rfl

end

/-- The way to a name leads to the first row of that name. -/
theorem find?_rows (t : Tree) (target : String) :
    (t.rows 1).find? (fun row => row.2.id = target) =
      (t.pathTo? target).bind fun way => way.getLast?.map (way.length, ·) := by
  rw [rows_eq, List.find?_map, pathTo?_eq]
  simp only [Function.comp_def]
  cases t.descents.find? fun d => d.2.id = target with
  | none => rfl
  | some d =>
    simp only [Option.map_some, Option.bind_some, List.getLast?_concat, List.length_append,
      List.length_singleton, Nat.add_comm 1]

/-! ## Trees of paths -/

/-- The beginnings of paths have the numbers in which they come up. -/
theorem exists_mem_ways_of_firstSeen (labelOf : NodeId → String) {paths : List (List NodeId)}
    {k : Nat} {way : List NodeId} (h : (firstSeen paths)[k]? = some way) :
    ∃ u, (way, u) ∈ (build labelOf paths).ways ∧ u.id = "node" ++ toString (k + 1) := by
  have hnew : newMark labelOf (way, k + 1) ∈ (build labelOf paths).marks := by
    rw [(marks_build_perm labelOf paths).mem_iff, Nat.add_comm]
    exact List.mem_map_of_mem (List.mk_add_mem_zipIdx_iff_getElem?.mpr h)
  obtain ⟨⟨_, u⟩, hu, hmark⟩ := List.mem_map.mp hnew
  obtain ⟨rfl, hid, -⟩ := Mark.mk.inj hmark
  exact ⟨u, hu, hid⟩

theorem size_build (labelOf : NodeId → String) (paths : List (List NodeId)) :
    (build labelOf paths).size = (firstSeen paths).length + 1 := by
  rw [size_eq, ← (ways_build_perm labelOf paths).length_eq, List.length_map]

/-- In a tree of paths, ways through the same graph nodes end at one name. -/
theorem endsAt_inj {labelOf : NodeId → String} {paths : List (List NodeId)}
    {target target' : String} {way way' : List Tree}
    (h : (build labelOf paths).Leads way) (h' : (build labelOf paths).Leads way')
    (hends : EndsAt target way) (hends' : EndsAt target' way')
    (hnodes : way.map Tree.node = way'.map Tree.node) : target = target' := by
  have hlast : ∀ {way : List Tree} {target : String}, (build labelOf paths).Leads way →
      EndsAt target way → ∃ u, (way.map Tree.node, u) ∈ (build labelOf paths).ways ∧
        u.id = target := by
    intro way target h hends
    obtain ⟨u, hu, hid⟩ := Option.map_eq_some_iff.mp hends
    obtain ⟨init, rfl⟩ := List.getLast?_eq_some_iff.mp hu
    have hmem := h.mem_ways (i := init.length) (by simp)
    rw [List.take_of_length_le (by simp), List.getElem_concat_length rfl] at hmem
    exact ⟨u, hmem, hid⟩
  obtain ⟨u, hu, rfl⟩ := hlast h hends
  obtain ⟨u', hu', rfl⟩ := hlast h' hends'
  have hways := (ways_build_perm labelOf paths).nodup_iff.mpr (nodup_firstSeen paths)
  have hsame := List.inj_on_of_nodup_map hways hu hu' hnodes
  rw [(Prod.mk.inj hsame).2]

/-- **Every node can be traced back.** A way to a name is found exactly if a node below the top has
it, in whatever tree; it is the first that leads to the name, and so it leads to the first row of
that name. In a tree of paths the ways to the names tell the beginnings of the paths, in the order
in which these come up, and each name another one. -/
theorem pathTo?_isFirst :
    (∀ (t : Tree) (target : String),
      ((∃ way, t.pathTo? target = some way) ↔ ∃ row ∈ t.rows 1, row.2.id = target) ∧
      (∀ way, t.pathTo? target = some way ↔ t.IsFirst (EndsAt target) way) ∧
      (t.rows 1).find? (fun row => row.2.id = target) =
        (t.pathTo? target).bind fun way => way.getLast?.map (way.length, ·)) ∧
    ∀ (labelOf : NodeId → String) (paths : List (List NodeId)),
      (∀ k : Nat, 1 ≤ k → k < (build labelOf paths).size → ∃ way,
        (build labelOf paths).pathTo? ("node" ++ toString k) = some way ∧
        EndsAt ("node" ++ toString k) way ∧ (∃ path ∈ paths, way.map Tree.node <+: path) ∧
        (firstSeen paths)[k - 1]? = some (way.map Tree.node)) ∧
      ∀ (k l : Nat) (way way' : List Tree),
        (build labelOf paths).pathTo? ("node" ++ toString k) = some way →
        (build labelOf paths).pathTo? ("node" ++ toString l) = some way' →
        way.map Tree.node = way'.map Tree.node → k = l := by
  refine ⟨fun t target => ⟨?_, fun way => ⟨isFirst_of_pathTo?, fun h => ?_⟩,
    find?_rows t target⟩, fun labelOf paths => ⟨fun k hpos hk => ?_, fun k l way way' h h' => ?_⟩⟩
  · rw [rows_eq, pathTo?_eq]
    simp only [Option.map_eq_some_iff, List.mem_map, exists_exists_and_eq_and]
    have hsome : (∃ d, t.descents.find? (fun d => d.2.id = target) = some d) ↔
        ∃ d ∈ t.descents, d.2.id = target := by
      rw [← Option.isSome_iff_exists, List.find?_isSome]
      simp only [decide_eq_true_eq]
    rw [← hsome]
    grind
  · obtain ⟨found, hfound⟩ := exists_pathTo?_of_leads h.leads h.wants
    rw [hfound, (isFirst_of_pathTo? hfound).unique h]
  · rw [size_build] at hk
    have hseen : (firstSeen paths)[k - 1]? = some (firstSeen paths)[k - 1] :=
      List.getElem?_eq_getElem (by omega)
    obtain ⟨u, hu, hid⟩ := exists_mem_ways_of_firstSeen labelOf hseen
    rw [Nat.sub_add_cancel hpos] at hid
    obtain ⟨way, hway, hnodes⟩ := pathTo?_of_mem (nodup_ids labelOf paths) hu
    rw [hid] at hway
    refine ⟨way, hway, (isFirst_of_pathTo? hway).wants, ?_, hnodes ▸ hseen⟩
    rw [hnodes]
    exact (exists_prefix_of_mem_ways hu).2
  · intro hnodes
    have hfirst := isFirst_of_pathTo? h
    have hfirst' := isFirst_of_pathTo? h'
    exact nodeName_inj (endsAt_inj hfirst.leads hfirst'.leads hfirst.wants hfirst'.wants hnodes)

/-- The fourth node of the tree of two paths is on the second path. -/
theorem pathTo?_isFirst_forked :
    1 ≤ 4 ∧ 4 < (build (fun id => id) [["s", "a", "b"], ["s", "c"]]).size ∧
    ∃ way, (build (fun id => id) [["s", "a", "b"], ["s", "c"]]).pathTo? "node4" = some way ∧
      EndsAt "node4" way ∧ way.map Tree.node = ["s", "c"] := by
  have hsize : 4 < (build (fun id => id) [["s", "a", "b"], ["s", "c"]]).size := by decide
  obtain ⟨hfound, -⟩ := pathTo?_isFirst.2 (fun id => id) [["s", "a", "b"], ["s", "c"]]
  obtain ⟨way, hway, hends, -, hseen⟩ := hfound 4 (by decide) hsize
  have hfourth : (firstSeen [["s", "a", "b"], ["s", "c"]])[3]? = some ["s", "c"] := by decide
  exact ⟨by decide, hsize, way, hway, hends, Option.some_inj.mp (hseen.symm.trans hfourth)⟩

end Tree

end Runbook
