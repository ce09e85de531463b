import Runbook.Proofs.DerivedEdges
import Runbook.Proofs.EdgeNames

/-!
# The names of derived edges

The name of a derived edge is put together from the word for its kind, the names of its two ends
and, unless it is a dependency, the name on its label, with an arrow and a colon between them. The
names of nodes and classes may have arrows and colons of their own, and then two edges can have one
name. That is the only way in which they can.

* `Text.IsMark`, `Text.append_mark_eq_iff`: in how many ways a text can be parted at a mark
* `Edge.MistakenFor`: one edge's name can be read as another's
* `Relations.id_eq_iff`: two derived edges have one name exactly if one is mistaken for the other
* `Relations.nodup_ids_infer_iff`: when all derived edges have names of their own
-/

namespace Runbook

/-! ## Texts parted by a mark -/

namespace Text

/-- No end of the mark is a beginning of it, so one mark cannot overlap with the next. -/
def IsMark (mark : String) : Prop :=
  ∀ front behind : List Char, mark.toList = front ++ behind → behind <+: mark.toList →
    front = [] ∨ behind = []

theorem isMark_arrow : IsMark "->" := by
  intro front behind hsplit hbegins
  rcases List.cons_eq_append_iff.mp hsplit with ⟨rfl, -⟩ | ⟨front, rfl, hrest⟩
  · exact .inl rfl
  · rcases List.cons_eq_append_iff.mp hrest with ⟨rfl, rfl⟩ | ⟨front, rfl, hnil⟩
    · exact absurd hbegins (by decide)
    · exact .inr (List.append_eq_nil_iff.mp hnil.symm).2

theorem isMark_colon : IsMark ":" := by
  intro front behind hsplit _
  rcases List.cons_eq_append_iff.mp hsplit with ⟨rfl, -⟩ | ⟨front, rfl, hnil⟩
  · exact .inl rfl
  · exact .inr (List.append_eq_nil_iff.mp hnil.symm).2

variable {mark : String} {a b a' b' : String}

/-- What comes before a mark is either nothing or has a mark at its beginning itself. -/
theorem eq_append_of_mark (hmark : IsMark mark) {front behind behind' : List Char}
    (h : mark.toList ++ behind = front ++ (mark.toList ++ behind')) :
    front = [] ∧ behind = behind' ∨
      ∃ mid, front = mark.toList ++ mid ∧ behind = mid ++ (mark.toList ++ behind') := by
  rcases List.append_eq_append_iff.mp h with ⟨mid, hfront, hbehind⟩ | ⟨lap, hsplit, hover⟩
  · exact .inr ⟨mid, hfront, hbehind⟩
  · -- the mark that is read and the one that was written overlap
    have hwhole : lap <+: mark.toList ++ behind' := hover ▸ List.prefix_append ..
    have hlength : lap.length ≤ mark.toList.length := by
      rw [hsplit, List.length_append]
      omega
    have hbegins : lap <+: mark.toList :=
      List.prefix_of_prefix_length_le hwhole (List.prefix_append ..) hlength
    rcases hmark front lap hsplit hbegins with rfl | rfl
    · rw [List.nil_append] at hsplit
      rw [← hsplit] at hover
      exact .inl ⟨rfl, (List.append_cancel_left hover).symm⟩
    · rw [List.append_nil] at hsplit
      exact .inr ⟨[], by rw [hsplit, List.append_nil], hover.symm⟩

/-- Two texts with a mark between them read like two others exactly if they are the same, or the
mark of one pair is within a text of the other. -/
theorem append_mark_eq_iff (hmark : IsMark mark) : a ++ mark ++ b = a' ++ mark ++ b' ↔
    a = a' ∧ b = b' ∨ (∃ mid, a' = a ++ mark ++ mid ∧ b = mid ++ mark ++ b') ∨
      ∃ mid, a = a' ++ mark ++ mid ∧ b' = mid ++ mark ++ b := by
  constructor
  · intro h
    have hlist := congrArg String.toList h
    simp only [String.toList_append, List.append_assoc] at hlist
    rcases List.append_eq_append_iff.mp hlist with ⟨lap, ha, hb⟩ | ⟨lap, ha, hb⟩
    · rcases eq_append_of_mark hmark hb with ⟨rfl, hbehind⟩ | ⟨mid, rfl, hbehind⟩
      · exact .inl ⟨String.toList_inj.mp (by simpa using ha.symm), String.toList_inj.mp hbehind⟩
      · exact .inr (.inl ⟨.ofList mid, String.toList_inj.mp (by simpa using ha),
          String.toList_inj.mp (by simpa using hbehind)⟩)
    · rcases eq_append_of_mark hmark hb with ⟨rfl, hbehind⟩ | ⟨mid, rfl, hbehind⟩
      · exact .inl ⟨String.toList_inj.mp (by simpa using ha),
          String.toList_inj.mp hbehind.symm⟩
      · exact .inr (.inr ⟨.ofList mid, String.toList_inj.mp (by simpa using ha),
          String.toList_inj.mp (by simpa using hbehind)⟩)
  · rintro (⟨rfl, rfl⟩ | ⟨mid, rfl, rfl⟩ | ⟨mid, rfl, rfl⟩)
    · rfl
    · simp only [String.append_assoc]
    · simp only [String.append_assoc]

end Text

/-! ## Edges that are mistaken for each other -/

namespace Edge

/-- What stands behind the arrow in the name of a derived edge. -/
def behindArrow (e : Edge) : String :=
  if e.kind = .dependency then e.target else e.target ++ ":" ++ e.label.getD ""

/-- The name of a derived edge can be read as that of another edge of its kind: an arrow or a colon
that is within a name is taken for the one between two names. -/
inductive MistakenFor (d e : Edge) : Prop where
  /-- the source of the second edge has the arrow of the first -/
  | arrow (mid : String) (kind : d.kind = e.kind) (source : e.source = d.source ++ "->" ++ mid)
    (behind : d.behindArrow = mid ++ "->" ++ e.behindArrow)
  /-- the target of the second edge has the colon of the first -/
  | colon (mid : String) (kind : d.kind = e.kind) (named : d.kind ≠ .dependency)
    (source : d.source = e.source) (target : e.target = d.target ++ ":" ++ mid)
    (label : d.label.getD "" = mid ++ ":" ++ e.label.getD "")

theorem ne_append_arrow (a mark mid : String) (h : mark ≠ "") : a ≠ a ++ mark ++ mid := by
  intro heq
  have hlength := congrArg String.length heq
  simp only [String.length_append] at hlength
  have hpos : mark.length ≠ 0 := fun hzero => h (String.length_eq_zero_iff.mp hzero)
  omega

theorem not_mistakenFor_self (e : Edge) : ¬ e.MistakenFor e
  | .arrow mid _ source _ => ne_append_arrow _ _ mid (by decide) source
  | .colon mid _ _ _ target _ => ne_append_arrow _ _ mid (by decide) target

end Edge

namespace Relations

variable {nodes : List Node} {existing : List Edge} {d e : Edge}

/-- A derived edge stands for all that two nodes share, or for a row. -/
theorem mem_infer_cases (h : e ∈ infer nodes existing) :
    (∃ source target names, IsShared nodes source target names ∧
      e = dependencyEdge source target names) ∨
    ∃ kind r, (kind = .inheritance ∨ kind = .overrides) ∧ e = edgeOf kind r := by
  simp only [infer, List.mem_append, mem_dependencies, inheritance, overrides, List.mem_map] at h
  rcases h with (⟨source, target, names, -, hnames, rfl⟩ | ⟨r, -, rfl⟩) | ⟨r, -, rfl⟩
  · exact .inl ⟨source, target, names, hnames, rfl⟩
  · exact .inr ⟨_, r, .inl rfl, rfl⟩
  · exact .inr ⟨_, r, .inr rfl, rfl⟩

/-- How the name of a derived edge is put together. -/
theorem id_of_mem_infer (h : e ∈ infer nodes existing) :
    e.id = e.kind.word ++ (":" ++ (e.source ++ "->" ++ e.behindArrow)) := by
  rcases mem_infer_cases h with ⟨source, target, names, -, rfl⟩ | ⟨kind, r, hkind, rfl⟩
  · simp only [dependencyEdge, Edge.behindArrow, if_pos, Edge.Kind.word, ← String.append_assoc]
    rfl
  · have hne : (edgeOf kind r).kind ≠ .dependency := by
      rcases hkind with rfl | rfl <;> exact Edge.Kind.noConfusion
    simp only [Edge.behindArrow, if_neg hne]
    simp only [edgeOf, Option.getD_some, String.append_assoc]

/-- The words for the three kinds begin with different letters. -/
theorem kind_eq_of_id_eq (hd : d ∈ infer nodes existing) (he : e ∈ infer nodes existing)
    (h : d.id = e.id) : d.kind = e.kind := by
  have hlist := congrArg String.toList h
  rw [id_of_mem_infer hd, id_of_mem_infer he, String.toList_append, String.toList_append] at hlist
  rcases (kind_of_mem_infer hd).1 with hk | hk | hk <;>
    rcases (kind_of_mem_infer he).1 with hk' | hk' | hk' <;> rw [hk, hk'] at hlist ⊢ <;>
    simp [Edge.Kind.word] at hlist

/-- A derived edge is determined by its kind, its ends, and the name on its label unless it is a
dependency. -/
theorem eq_of_mem_infer (hd : d ∈ infer nodes existing) (he : e ∈ infer nodes existing)
    (hkind : d.kind = e.kind) (hsource : d.source = e.source) (htarget : d.target = e.target)
    (hlabel : d.kind ≠ .dependency → d.label.getD "" = e.label.getD "") : d = e := by
  rcases mem_infer_cases hd with ⟨source, target, names, hnames, rfl⟩ | ⟨kind, r, hk, rfl⟩ <;>
    rcases mem_infer_cases he with ⟨source', target', names', hnames', rfl⟩ | ⟨kind', r', hk', rfl⟩
  · obtain rfl : source = source' := hsource
    obtain rfl : target = target' := htarget
    rw [hnames.unique hnames']
  · rcases hk' with rfl | rfl <;> cases hkind
  · rcases hk with rfl | rfl <;> cases hkind
  · obtain ⟨source, target, name⟩ := r
    obtain ⟨source', target', name'⟩ := r'
    obtain rfl : source = source' := hsource
    obtain rfl : target = target' := htarget
    obtain rfl : kind = kind' := hkind
    obtain rfl : name = name' :=
      hlabel (by rcases hk with rfl | rfl <;> exact Edge.Kind.noConfusion)
    rfl

theorem id_eq_of_mistakenFor (hd : d ∈ infer nodes existing) (he : e ∈ infer nodes existing)
    (h : d.MistakenFor e) : d.id = e.id := by
  rw [id_of_mem_infer hd, id_of_mem_infer he]
  cases h with
  | arrow mid kind source behind =>
    rw [kind, source, behind]
    simp only [String.append_assoc]
  | colon mid kind named source target label =>
    rw [Edge.behindArrow, Edge.behindArrow, if_neg named, if_neg (kind ▸ named), kind, source,
      target, label]
    simp only [String.append_assoc]

/-- Two derived edges have one name exactly if they are the same or one is mistaken for the
other. -/
theorem id_eq_iff (hd : d ∈ infer nodes existing) (he : e ∈ infer nodes existing) :
    d.id = e.id ↔ d = e ∨ d.MistakenFor e ∨ e.MistakenFor d := by
  constructor
  · intro h
    have hkind := kind_eq_of_id_eq hd he h
    rw [id_of_mem_infer hd, id_of_mem_infer he, hkind, String.append_right_inj,
      String.append_right_inj, Text.append_mark_eq_iff Text.isMark_arrow] at h
    rcases h with ⟨hsource, hbehind⟩ | ⟨mid, hsource, hbehind⟩ | ⟨mid, hsource, hbehind⟩
    · by_cases hdep : e.kind = .dependency
      · have hdep' : d.kind = .dependency := hkind.trans hdep
        rw [Edge.behindArrow, Edge.behindArrow, if_pos hdep, if_pos hdep'] at hbehind
        exact .inl (eq_of_mem_infer hd he hkind hsource hbehind fun h => absurd hdep' h)
      · have hdep' : d.kind ≠ .dependency := hkind ▸ hdep
        rw [Edge.behindArrow, Edge.behindArrow, if_neg hdep, if_neg hdep',
          Text.append_mark_eq_iff Text.isMark_colon] at hbehind
        rcases hbehind with ⟨htarget, hlabel⟩ | ⟨mid, htarget, hlabel⟩ | ⟨mid, htarget, hlabel⟩
        · exact .inl (eq_of_mem_infer hd he hkind hsource htarget fun _ => hlabel)
        · exact .inr (.inl (.colon mid hkind hdep' hsource htarget hlabel))
        · exact .inr (.inr (.colon mid hkind.symm hdep hsource.symm htarget hlabel))
    · exact .inr (.inl (.arrow mid hkind hsource hbehind))
    · exact .inr (.inr (.arrow mid hkind.symm hsource hbehind))
  · rintro (rfl | h | h)
    · rfl
    · exact id_eq_of_mistakenFor hd he h
    · exact (id_eq_of_mistakenFor he hd h).symm

/-- No derived edge is found twice. -/
theorem nodup_infer (nodes : List Node) (existing : List Edge) : (infer nodes existing).Nodup := by
  have hrows (kind : Edge.Kind) (rows : List Row) : ((Row.sorted rows).map (edgeOf kind)).Nodup :=
    (Row.pairwise_sorted rows).nodup.map (edgeOf_injective kind)
  refine List.nodup_append.mpr ⟨List.nodup_append.mpr ⟨(pairwise_dependencies nodes).nodup,
    hrows _ _, ?_⟩, hrows _ _, ?_⟩
  · intro d hd e he heq
    obtain ⟨_, _, _, -, -, rfl⟩ := mem_dependencies.mp hd
    obtain ⟨r, -, rfl⟩ := List.mem_map.mp he
    exact Edge.Kind.noConfusion (congrArg Edge.kind heq)
  · intro d hd e he heq
    obtain ⟨r, -, rfl⟩ := List.mem_map.mp he
    rcases List.mem_append.mp hd with hd | hd
    · obtain ⟨_, _, _, -, -, rfl⟩ := mem_dependencies.mp hd
      exact Edge.Kind.noConfusion (congrArg Edge.kind heq)
    · obtain ⟨r, -, rfl⟩ := List.mem_map.mp hd
      exact Edge.Kind.noConfusion (congrArg Edge.kind heq)

/-- Derived edges lead from node to node. -/
theorem ends_of_mem_infer (h : (nodes.map Node.id).Nodup) (he : e ∈ infer nodes existing) :
    e.source ∈ nodes.map Node.id ∧ e.target ∈ nodes.map Node.id := by
  simp only [infer, List.mem_append, mem_dependencies, inheritance, overrides, List.mem_map,
    Row.mem_sorted] at he
  rcases he with (⟨s, t, _, ⟨_, ⟨m, hm, hs, -⟩, n, hn, ht, -⟩, -, rfl⟩ | ⟨r, hr, rfl⟩) |
    ⟨r, hr, rfl⟩
  · exact ⟨hs ▸ List.mem_map_of_mem hm, ht ▸ List.mem_map_of_mem hn⟩
  · obtain ⟨m, hm, n, hn, -, hs, ht⟩ := (mem_inheritedNames_dependencies h).mp hr
    exact ⟨List.mem_map.mpr ⟨m, hm, hs.symm⟩, List.mem_map.mpr ⟨n, hn, ht.symm⟩⟩
  · obtain ⟨m, hm, n, hn, -, -, -, -, -, hs, ht⟩ := (mem_overriddenNames h).mp hr
    exact ⟨List.mem_map.mpr ⟨m, hm, hs.symm⟩, List.mem_map.mpr ⟨n, hn, ht.symm⟩⟩

/-- A name without arrows and colons. -/
def IsPlain (id : NodeId) : Prop := ¬ "->".toList <:+: id.toList ∧ ':' ∉ id.toList

/-- Edges between nodes with plain names are not mistaken for each other. -/
theorem not_mistakenFor_of_isPlain (hsource : IsPlain e.source) (htarget : IsPlain e.target) :
    ¬ d.MistakenFor e := by
  intro h
  cases h with
  | arrow mid kind source behind =>
    refine hsource.1 ?_
    rw [source, String.toList_append, String.toList_append]
    exact List.infix_append ..
  | colon mid kind named source target label =>
    refine htarget.2 ?_
    rw [target, String.toList_append, String.toList_append]
    simp

/-- **Derived edges have names of their own exactly if none is mistaken for another.** None is if
the names of the nodes have neither arrows nor colons, whatever names they define. -/
theorem nodup_ids_infer_iff (nodes : List Node) (existing : List Edge) :
    (((infer nodes existing).map Edge.id).Nodup ↔
      ∀ d ∈ infer nodes existing, ∀ e ∈ infer nodes existing, ¬ d.MistakenFor e) ∧
    ((nodes.map Node.id).Nodup → (∀ n ∈ nodes, IsPlain n.id) →
      ((infer nodes existing).map Edge.id).Nodup) := by
  have hiff : ((infer nodes existing).map Edge.id).Nodup ↔
      ∀ d ∈ infer nodes existing, ∀ e ∈ infer nodes existing, ¬ d.MistakenFor e := by
    constructor
    · intro hids d hd e he hmistaken
      have heq := List.inj_on_of_nodup_map hids hd he (id_eq_of_mistakenFor hd he hmistaken)
      exact e.not_mistakenFor_self (heq ▸ hmistaken)
    · intro h
      refine (nodup_infer nodes existing).map_on fun d hd e he hid => ?_
      rcases (id_eq_iff hd he).mp hid with heq | hmistaken | hmistaken
      · exact heq
      · exact absurd hmistaken (h d hd e he)
      · exact absurd hmistaken (h e he d hd)
  refine ⟨hiff, fun hnodes hplain => hiff.mpr fun d _ e he => ?_⟩
  obtain ⟨hsource, htarget⟩ := ends_of_mem_infer hnodes he
  obtain ⟨m, hm, hms⟩ := List.mem_map.mp hsource
  obtain ⟨n, hn, hnt⟩ := List.mem_map.mp htarget
  exact not_mistakenFor_of_isPlain (hms ▸ hplain m hm) (hnt ▸ hplain n hn)

/-- The names in `lineage` are plain, so its edges have names of their own. -/
theorem nodup_ids_infer_iff_lineage :
    (lineage.map Node.id).Nodup ∧ (∀ n ∈ lineage, IsPlain n.id) ∧
      ((infer lineage []).map Edge.id).Nodup ∧
      ¬ ∃ d ∈ infer lineage [], ∃ e ∈ infer lineage [], d.MistakenFor e := by
  have hnodes : (lineage.map Node.id).Nodup := by decide +kernel
  have hplain : ∀ n ∈ lineage, IsPlain n.id := by
    intro n hn
    have hids : n.id ∈ ["base", "child", "mixin", "copy"] := by
      have hmem := List.mem_map_of_mem (f := Node.id) hn
      exact hmem
    simp only [List.mem_cons, List.not_mem_nil, or_false] at hids
    rcases hids with h | h | h | h <;> rw [h] <;> exact ⟨by decide, by decide⟩
  have hids := (nodup_ids_infer_iff lineage []).2 hnodes hplain
  refine ⟨hnodes, hplain, hids, ?_⟩
  rintro ⟨d, hd, e, he, h⟩
  exact (nodup_ids_infer_iff lineage []).1.mp hids d hd e he h

/-- Two nodes that use a name each and two that define one each. Read with an arrow in between, the
names of the first two and of the last two are alike. -/
def crossedArrows : List Node :=
  [{ Node.new "a" .fragment with dependencies := ⟨.ofList ["x"], .empty, .empty, .empty⟩ },
    { Node.new "b->c" .fragment with definitions := ⟨.ofList ["x"], .empty, .empty⟩ },
    { Node.new "a->b" .fragment with dependencies := ⟨.ofList ["y"], .empty, .empty, .empty⟩ },
    { Node.new "c" .fragment with definitions := ⟨.ofList ["y"], .empty, .empty⟩ }]

/-- That nodes have names of their own does not make the derived edges have such: two edges
between different nodes are both called `dependency:a->b->c`. -/
theorem not_always_nodup_ids : ¬ ∀ (nodes : List Node) (existing : List Edge),
    (nodes.map Node.id).Nodup → ((infer nodes existing).map Edge.id).Nodup := by
  intro h
  exact absurd (h crossedArrows [] (by decide +kernel)) (by decide +kernel)

end Relations

end Runbook
