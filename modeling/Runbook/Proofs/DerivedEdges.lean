import Mathlib.Data.List.TakeWhile
import Runbook.Proofs.Inference

/-!
# Which derived edges there are

Each kind of derived edge is found among the edges of the kind before it. That neither loses nor
adds anything: what there is can be read off the nodes and the method edges alone.

* `IsMethodName`, `Definitions.mem_qualifiedMethods`: which bare names of methods a node defines
* `Relations.Shares`, `Relations.dependencies_iff_shares`: the dependency edges, each once and in
  order, with all names that its ends share
* `Relations.RefersTo`, `Relations.mem_inheritedNames_dependencies`: the search among the
  dependencies of a class misses no class that it refers to
* `Relations.inheritance_of_infer`: the inheritance edges, each once and in order
* `Relations.IsOverride`, `Relations.overrides_of_infer`: the override edges, each once and in
  order
-/

namespace Runbook

/-! ## Names of methods -/

/-- Whether a function is defined as a method of this name: the name stands behind the first dot,
and either nothing or another dot follows it. -/
def IsMethodName (function name : String) : Prop :=
  '.' ∉ name.toList ∧ ∃ className : String, '.' ∉ className.toList ∧
    (function = className ++ "." ++ name ∨ ∃ more, function = className ++ "." ++ name ++ "." ++ more)

namespace Text

variable {c : Char} {front : List Char}

theorem takeWhile_ne (h : c ∉ front) : front.takeWhile (· ≠ c) = front :=
  List.takeWhile_eq_self_iff.mpr fun _ hx => decide_eq_true fun heq => h (heq ▸ hx)

theorem takeWhile_ne_append (h : c ∉ front) (behind : List Char) :
    (front ++ c :: behind).takeWhile (· ≠ c) = front := by
  have hall : ∀ x ∈ front, decide (x ≠ c) = true := fun x hx =>
    decide_eq_true fun heq => h (heq ▸ hx)
  rw [List.takeWhile_append_of_pos hall]
  simp

theorem dropWhile_ne_append (h : c ∉ front) (behind : List Char) :
    (front ++ c :: behind).dropWhile (· ≠ c) = c :: behind := by
  have hall : ∀ x ∈ front, decide (x ≠ c) = true := fun x hx =>
    decide_eq_true fun heq => h (heq ▸ hx)
  rw [List.dropWhile_append_of_pos hall]
  simp

/-- A text is broken where a character stands for the first time. -/
theorem breakAt_eq_some {cs before behind : List Char} :
    breakAt c cs = some (before, behind) ↔ c ∉ before ∧ cs = before ++ c :: behind := by
  constructor
  · intro h
    by_cases hmem : c ∈ cs
    · obtain ⟨front, rest, rfl, hfront⟩ := List.eq_append_cons_of_mem hmem
      rw [breakAt, dropWhile_ne_append hfront, takeWhile_ne_append hfront] at h
      obtain ⟨rfl, rfl⟩ : front = before ∧ rest = behind := by simpa using h
      exact ⟨hfront, rfl⟩
    · have hdrop : cs.dropWhile (· ≠ c) = [] :=
        List.dropWhile_eq_nil_iff.mpr fun x hx => decide_eq_true fun heq => hmem (heq ▸ hx)
      rw [breakAt, hdrop] at h
      cases h
  · rintro ⟨hbefore, rfl⟩
    rw [breakAt, dropWhile_ne_append hbefore, takeWhile_ne_append hbefore]

end Text

theorem methodName?_eq_some {function name : String} :
    methodName? function = some name ↔ IsMethodName function name := by
  simp only [methodName?, Option.map_eq_some_iff, Prod.exists, Text.breakAt_eq_some]
  constructor
  · rintro ⟨before, method, ⟨hbefore, hfunction⟩, rfl⟩
    by_cases hmem : '.' ∈ method
    · -- the class of the method is itself within something, and the method ends at a dot
      obtain ⟨front, rest, rfl, hfront⟩ := List.eq_append_cons_of_mem hmem
      rw [Text.takeWhile_ne_append hfront]
      refine ⟨by simpa using hfront, .ofList before, by simpa using hbefore, .inr
        ⟨.ofList rest, String.toList_inj.mp ?_⟩⟩
      simp [hfunction]
    · rw [Text.takeWhile_ne hmem]
      refine ⟨by simpa using hmem, .ofList before, by simpa using hbefore, .inl
        (String.toList_inj.mp ?_)⟩
      simp [hfunction]
  · rintro ⟨hname, className, hclass, rfl | ⟨more, rfl⟩⟩
    · refine ⟨className.toList, name.toList, ⟨hclass, by simp⟩, ?_⟩
      rw [Text.takeWhile_ne hname, String.ofList_toList]
    · refine ⟨className.toList, name.toList ++ '.' :: more.toList, ⟨hclass, by simp⟩, ?_⟩
      rw [Text.takeWhile_ne_append hname, String.ofList_toList]

/-- The bare names of methods that some definitions give. -/
theorem Definitions.mem_qualifiedMethods {d : Definitions} {name : String} :
    name ∈ d.qualifiedMethods ↔ ∃ function ∈ d.functions.names, IsMethodName function name := by
  simp only [qualifiedMethods, List.mem_filterMap, methodName?_eq_some]

theorem Node.Kind.isCode_of_isClass {k : Kind} : k.isClass = true → k.isCode = true := by
  cases k <;> decide

/-! ## Names that nodes share -/

/-- A node with code uses a name, as that of a variable, a function, a class or a module. -/
def Node.Uses (n : Node) (name : String) : Prop :=
  n.kind.isCode = true ∧ (name ∈ n.dependencies.vars.names ∨
    name ∈ n.dependencies.functions.names ∨ name ∈ n.dependencies.classes.names ∨
    name ∈ n.dependencies.modules.names)

/-- A node with code defines a name, as that of a variable, a function or a class. -/
def Node.Defines (n : Node) (name : String) : Prop :=
  n.kind.isCode = true ∧ (name ∈ n.definitions.vars.names ∨
    name ∈ n.definitions.functions.names ∨ name ∈ n.definitions.classes.names)

/-- The order of edges by their ends: by source, then by target. -/
def Edge.EndsBefore (a b : Edge) : Prop :=
  a.source < b.source ∨ a.source = b.source ∧ a.target < b.target

instance : Std.Irrefl Edge.EndsBefore := ⟨fun a => by simp [Edge.EndsBefore]⟩

instance : Std.Antisymm Edge.EndsBefore := ⟨fun a b hab hba => by grind [Edge.EndsBefore]⟩

namespace Relations

variable {nodes : List Node}

/-- A node of the first name uses a name that a node of the second defines. -/
def Shares (nodes : List Node) (source target : NodeId) (name : String) : Prop :=
  (∃ s ∈ nodes, s.id = source ∧ s.Uses name) ∧ ∃ t ∈ nodes, t.id = target ∧ t.Defines name

/-- All names that two nodes share, each once and in order. -/
def IsShared (nodes : List Node) (source target : NodeId) (names : List String) : Prop :=
  names.Pairwise (· < ·) ∧ ∀ name, name ∈ names ↔ Shares nodes source target name

theorem IsShared.unique {source target : NodeId} {names names' : List String}
    (h : IsShared nodes source target names) (h' : IsShared nodes source target names') :
    names = names' :=
  h.1.eq_of_mem_iff h'.1 fun name => (h.2 name).trans (h'.2 name).symm

theorem mem_sharedNames_iff {r : Row} :
    r ∈ sharedNames nodes ↔ Shares nodes r.source r.target r.name := by
  simp only [mem_sharedNames, Shares, Node.Uses, Node.Defines, Dependencies.names,
    Definitions.names, List.mem_append]
  grind

/-! ## Cells -/

/-- The rows of two nodes are joined in one cell. -/
theorem exists_mem_cells {source target : NodeId} {rows : List Row} :
    (∃ names, (source, target, names) ∈ cells rows) ↔
      ∃ r ∈ rows, r.source = source ∧ r.target = target := by
  induction rows with
  | nil => simp [cells]
  | cons r rest ih =>
    rw [cells]
    cases hrest : cells rest with
    | nil =>
      rw [hrest] at ih
      grind
    | cons cell more =>
      obtain ⟨s, t, names⟩ := cell
      rw [hrest] at ih
      grind

/-- The rows that a cell joins. -/
def rowsOf (cell : NodeId × NodeId × List String) : List Row :=
  cell.2.2.map fun name => ⟨cell.1, cell.2.1, name⟩

theorem mem_rowsOf {cell : NodeId × NodeId × List String} {r : Row} :
    r ∈ rowsOf cell ↔ r.source = cell.1 ∧ r.target = cell.2.1 ∧ r.name ∈ cell.2.2 := by
  obtain ⟨source, target, name⟩ := r
  simp only [rowsOf, List.mem_map, Row.mk.injEq]
  grind

/-- Joining rows loses none of them and keeps their order. -/
theorem flatMap_rowsOf (rows : List Row) : (cells rows).flatMap rowsOf = rows := by
  induction rows with
  | nil => rfl
  | cons r rest ih =>
    rw [cells]
    cases hrest : cells rest with
    | nil =>
      rw [hrest] at ih
      rw [← ih]
      rfl
    | cons cell more =>
      obtain ⟨source, target, names⟩ := cell
      rw [hrest] at ih
      rw [← ih]
      dsimp only
      split
      · rename_i hends
        obtain ⟨rfl, rfl⟩ := hends
        rfl
      · rfl

section Sorted

variable {rows : List Row} (h : rows.Pairwise (·.before ·))

include h

/-- Rows in order give cells in the order of their ends. -/
theorem pairwise_cells :
    (cells rows).Pairwise fun a b => a.1 < b.1 ∨ a.1 = b.1 ∧ a.2.1 < b.2.1 := by
  induction rows with
  | nil => exact .nil
  | cons r rest ih =>
    obtain ⟨hr, hrest⟩ := List.pairwise_cons.mp h
    have ih := ih hrest
    rw [cells]
    cases hcells : cells rest with
    | nil => exact List.pairwise_singleton ..
    | cons cell more =>
      obtain ⟨source, target, names⟩ := cell
      rw [hcells] at ih
      dsimp only
      split
      · -- the cell grows by a name, and its ends stay
        exact List.pairwise_cons.mpr (List.pairwise_cons.mp ih)
      · refine List.pairwise_cons.mpr ⟨fun c hc => ?_, ih⟩
        -- the row comes before one with the ends of the next cell, which are other ends
        obtain ⟨x, hx, hsource, htarget⟩ := exists_mem_cells.mp
          ⟨names, hcells ▸ List.mem_cons_self⟩
        have hfirst := hr x hx
        simp only [Row.before, Bool.or_eq_true, Bool.and_eq_true, decide_eq_true_eq] at hfirst
        have hnext := (List.pairwise_cons.mp ih).1 c
        grind

variable {source target : NodeId} {names : List String}
  (hcell : (source, target, names) ∈ cells rows)

include hcell

theorem pairwise_names : names.Pairwise (· < ·) := by
  rw [← flatMap_rowsOf rows, List.pairwise_flatMap] at h
  refine (List.pairwise_map.mp (h.1 _ hcell)).imp fun {a b} hab => ?_
  simpa [Row.before] using hab

/-- A cell has all the names that join its ends. -/
theorem mem_names_iff {name : String} : name ∈ names ↔ ⟨source, target, name⟩ ∈ rows := by
  constructor
  · intro hname
    rw [← flatMap_rowsOf rows]
    exact List.mem_flatMap.mpr ⟨_, hcell, mem_rowsOf.mpr ⟨rfl, rfl, hname⟩⟩
  · intro hrow
    rw [← flatMap_rowsOf rows] at hrow
    obtain ⟨⟨s, t, others⟩, hother, hmem⟩ := List.mem_flatMap.mp hrow
    obtain ⟨hsource, htarget, hname⟩ := mem_rowsOf.mp hmem
    -- no other cell has these ends
    have hends : ((cells rows).map fun c => (c.1, c.2.1)).Nodup :=
      List.pairwise_map.mpr ((pairwise_cells h).imp fun {a b} hab heq => by
        obtain ⟨hsource, htarget⟩ := Prod.mk.inj heq
        grind)
    have hsame := List.inj_on_of_nodup_map hends hcell hother (Prod.ext hsource htarget)
    rw [Prod.mk.injEq, Prod.mk.injEq] at hsame
    rwa [hsame.2.2]

end Sorted

/-! ## Dependencies -/

/-- There is a cell wherever anything is shared. -/
theorem exists_mem_cells_sharedNames {source target : NodeId} :
    (∃ names, (source, target, names) ∈ cells (Row.sorted (sharedNames nodes))) ↔
      ∃ name, Shares nodes source target name := by
  simp only [exists_mem_cells, Row.mem_sorted, mem_sharedNames_iff]
  constructor
  · rintro ⟨r, hr, rfl, rfl⟩
    exact ⟨r.name, hr⟩
  · rintro ⟨name, hname⟩
    exact ⟨⟨source, target, name⟩, hname, rfl, rfl⟩

/-- A cell holds all that its ends share. -/
theorem isShared_of_mem_cells {source target : NodeId} {names : List String}
    (h : (source, target, names) ∈ cells (Row.sorted (sharedNames nodes))) :
    IsShared nodes source target names :=
  ⟨pairwise_names (Row.pairwise_sorted _) h, fun _ => by
    rw [mem_names_iff (Row.pairwise_sorted _) h, Row.mem_sorted, mem_sharedNames_iff]⟩

/-- The edge that stands for all names that two nodes share. -/
def dependencyEdge (source target : NodeId) (names : List String) : Edge where
  id := "dependency:" ++ source ++ "->" ++ target
  source
  target
  kind := .dependency
  label := some (", ".intercalate names)

theorem dependencies_eq (nodes : List Node) :
    dependencies nodes = (cells (Row.sorted (sharedNames nodes))).map
      fun c => dependencyEdge c.1 c.2.1 c.2.2 := rfl

theorem mem_dependencies {e : Edge} : e ∈ dependencies nodes ↔
    ∃ source target names, (∃ name, Shares nodes source target name) ∧
      IsShared nodes source target names ∧ e = dependencyEdge source target names := by
  rw [dependencies_eq, List.mem_map]
  constructor
  · rintro ⟨⟨source, target, names⟩, hcell, rfl⟩
    exact ⟨source, target, names, exists_mem_cells_sharedNames.mp ⟨names, hcell⟩,
      isShared_of_mem_cells hcell, rfl⟩
  · rintro ⟨source, target, names, hshares, hnames, rfl⟩
    obtain ⟨others, hcell⟩ := exists_mem_cells_sharedNames.mpr hshares
    rw [hnames.unique (isShared_of_mem_cells hcell)]
    exact ⟨_, hcell, rfl⟩

theorem pairwise_dependencies (nodes : List Node) :
    (dependencies nodes).Pairwise Edge.EndsBefore := by
  rw [dependencies_eq, List.pairwise_map]
  exact pairwise_cells (Row.pairwise_sorted _)

/-- One node depends on another exactly if it uses a name that the other defines. -/
theorem leads_dependencies {source target : NodeId} :
    Wiring.Leads (dependencies nodes) .dependency source target ↔
      ∃ name, Shares nodes source target name := by
  rw [← exists_mem_cells_sharedNames]
  simp only [Wiring.Leads, dependencies_eq, List.mem_map]
  constructor
  · rintro ⟨e, ⟨⟨s, t, names⟩, hcell, rfl⟩, -, rfl, rfl⟩
    exact ⟨names, hcell⟩
  · rintro ⟨names, hcell⟩
    exact ⟨_, ⟨(source, target, names), hcell, rfl⟩, rfl, rfl, rfl⟩

/-- Wherever a node of one name uses what a node of another defines, there is one dependency edge,
and there are no others. They are sorted by their ends, and each says all the names that its ends
share, each name once and in order. -/
theorem dependencies_iff_shares (nodes : List Node) :
    (dependencies nodes).Pairwise Edge.EndsBefore ∧
    (∀ source target, (∃ name, Shares nodes source target name) ↔
      ∃! e, e ∈ dependencies nodes ∧ e.source = source ∧ e.target = target) ∧
    ∀ e ∈ dependencies nodes, ∃ names, IsShared nodes e.source e.target names ∧
      e = dependencyEdge e.source e.target names := by
  refine ⟨pairwise_dependencies nodes, fun source target => ⟨fun hshares => ?_, ?_⟩, ?_⟩
  · obtain ⟨e, he, -, hends⟩ := leads_dependencies.mpr hshares
    refine ⟨e, ⟨he, hends⟩, ?_⟩
    rintro d ⟨hd, hsource, htarget⟩
    obtain ⟨s, t, names, -, hnames, rfl⟩ := mem_dependencies.mp he
    obtain ⟨s', t', names', -, hnames', rfl⟩ := mem_dependencies.mp hd
    obtain ⟨rfl, rfl⟩ : s = s' ∧ t = t' := ⟨hends.1.trans hsource.symm, hends.2.trans htarget.symm⟩
    rw [hnames.unique hnames']
  · rintro ⟨e, ⟨he, rfl, rfl⟩, -⟩
    obtain ⟨s, t, names, hshares, -, rfl⟩ := mem_dependencies.mp he
    exact hshares
  · intro e he
    obtain ⟨s, t, names, -, hnames, rfl⟩ := mem_dependencies.mp he
    exact ⟨names, hnames, rfl⟩

/-! ## One kind of many -/

theorem filter_dependencies {kind : Edge.Kind} (h : kind ≠ .dependency) (nodes : List Node) :
    (dependencies nodes).filter (fun e => e.kind = kind) = [] := by
  refine List.filter_eq_nil_iff.mpr fun e he => ?_
  obtain ⟨cell, -, rfl⟩ := List.mem_map.mp he
  simpa using h.symm

theorem filter_edgeOf (kind kind' : Edge.Kind) (rows : List Row) :
    (rows.map (edgeOf kind)).filter (fun e => e.kind = kind') =
      if kind = kind' then rows.map (edgeOf kind) else [] := by
  split
  · rename_i heq
    refine List.filter_eq_self.mpr fun e he => ?_
    obtain ⟨r, -, rfl⟩ := List.mem_map.mp he
    exact decide_eq_true heq
  · rename_i hne
    refine List.filter_eq_nil_iff.mpr fun e he => ?_
    obtain ⟨r, -, rfl⟩ := List.mem_map.mp he
    exact fun heq => hne (of_decide_eq_true heq)

/-- Each kind of derived edge is found by itself. -/
theorem filter_infer (nodes : List Node) (existing : List Edge) (kind : Edge.Kind) :
    (infer nodes existing).filter (fun e => e.kind = kind) =
      (if .dependency = kind then dependencies nodes else []) ++
      (if .inheritance = kind then inheritance nodes (dependencies nodes) else []) ++
      if .overrides = kind then
        overrides nodes existing (inheritance nodes (dependencies nodes)) else [] := by
  have hdependencies : (dependencies nodes).filter (fun e => e.kind = kind) =
      if .dependency = kind then dependencies nodes else [] := by
    split
    · rename_i heq
      refine List.filter_eq_self.mpr fun e he => ?_
      obtain ⟨s, t, names, -, -, rfl⟩ := mem_dependencies.mp he
      exact decide_eq_true heq
    · rename_i hne
      exact filter_dependencies (Ne.symm hne) nodes
  rw [infer, List.filter_append, List.filter_append, hdependencies, inheritance, filter_edgeOf,
    overrides, filter_edgeOf]

/-! ## Inheritance -/

/-- A class uses a variable that is named like a class and that another class defines. -/
def RefersTo (child parent : Node) (name : String) : Prop :=
  child.kind.isClass ∧ parent.kind.isClass ∧ isTypeName name = true ∧
    name ∈ child.dependencies.vars.names ∧ name ∈ parent.definitions.classes.names

/-- A class shares the names by which it refers to others with them. -/
theorem RefersTo.shares {child parent : Node} {name : String} (h : RefersTo child parent name)
    (hchild : child ∈ nodes) (hparent : parent ∈ nodes) :
    Shares nodes child.id parent.id name := by
  obtain ⟨hc, hp, -, hvar, hdef⟩ := h
  exact ⟨⟨child, hchild, rfl, Node.Kind.isCode_of_isClass hc, .inl hvar⟩,
    parent, hparent, rfl, Node.Kind.isCode_of_isClass hp, .inr (.inr hdef)⟩

/-- A class that refers to another depends on it, so the search among the dependencies of a class
misses none. -/
theorem mem_inheritedNames_dependencies (h : (nodes.map Node.id).Nodup) {r : Row} :
    r ∈ inheritedNames nodes (dependencies nodes) ↔ ∃ child ∈ nodes, ∃ parent ∈ nodes,
      RefersTo child parent r.name ∧ r.source = child.id ∧ r.target = parent.id := by
  rw [mem_inheritedNames h]
  refine exists_congr fun child => and_congr_right fun hchild => exists_congr fun parent =>
    and_congr_right fun hparent => ?_
  simp only [Dependencies.typeReferences, List.mem_filter]
  constructor
  · rintro ⟨hc, hp, -, ⟨hvar, htype⟩, hdef, hrow⟩
    exact ⟨⟨hc, hp, htype, hvar, hdef⟩, hrow⟩
  · rintro ⟨href, hrow⟩
    have hleads := leads_dependencies.mpr ⟨r.name, href.shares hchild hparent⟩
    obtain ⟨hc, hp, htype, hvar, hdef⟩ := href
    exact ⟨hc, hp, hleads, ⟨hvar, htype⟩, hdef, hrow⟩

/-- Along inheritance edges, exactly the classes that refer to others lead to these. -/
theorem leads_inheritance (h : (nodes.map Node.id).Nodup) {child parent : Node}
    (hchild : child ∈ nodes) (hparent : parent ∈ nodes) :
    Wiring.Leads (inheritance nodes (dependencies nodes)) .inheritance child.id parent.id ↔
      ∃ name, RefersTo child parent name := by
  simp only [Wiring.Leads, inheritance, List.mem_map, Row.mem_sorted]
  constructor
  · rintro ⟨e, ⟨r, hr, rfl⟩, -, hsource, htarget⟩
    obtain ⟨c, hc, p, hp, href, hrow⟩ := (mem_inheritedNames_dependencies h).mp hr
    obtain rfl : c = child := List.inj_on_of_nodup_map h hc hchild (hrow.1.symm.trans hsource)
    obtain rfl : p = parent := List.inj_on_of_nodup_map h hp hparent (hrow.2.symm.trans htarget)
    exact ⟨r.name, href⟩
  · rintro ⟨name, href⟩
    exact ⟨_, ⟨⟨child.id, parent.id, name⟩, (mem_inheritedNames_dependencies h).mpr
      ⟨child, hchild, parent, hparent, href, rfl, rfl⟩, rfl⟩, rfl, rfl, rfl⟩

/-- Whatever the nodes and the edges there are, exactly those classes that refer to others are
joined to these by inheritance edges, one for each name by which they do so with the name on its
label, sorted by the two classes and the name. -/
theorem inheritance_of_infer (h : (nodes.map Node.id).Nodup) (existing : List Edge) :
    ∃ rows : List Row,
      (infer nodes existing).filter (fun e => e.kind = .inheritance) =
        rows.map (edgeOf .inheritance) ∧
      rows.Pairwise (·.before ·) ∧ ∀ r, r ∈ rows ↔ ∃ child ∈ nodes, ∃ parent ∈ nodes,
        RefersTo child parent r.name ∧ r.source = child.id ∧ r.target = parent.id := by
  refine ⟨Row.sorted (inheritedNames nodes (dependencies nodes)), ?_, Row.pairwise_sorted _,
    fun r => ?_⟩
  · rw [filter_infer, if_neg (by decide), if_pos rfl, if_neg (by decide), List.nil_append,
      List.append_nil, inheritance]
  · rw [Row.mem_sorted, mem_inheritedNames_dependencies h]

theorem edgeOf_injective (kind : Edge.Kind) : Function.Injective (edgeOf kind) := by
  rintro ⟨source, target, name⟩ ⟨source', target', name'⟩ h
  simp only [edgeOf, Edge.mk.injEq, Option.some.injEq] at h
  obtain ⟨-, rfl, rfl, -, rfl⟩ := h
  rfl

/-- A class that refers to two names of an abstract class and to itself. It uses a variable of the
abstract class, too, and the name of a class that is written small; a piece of code that is no
class defines one of the names as well. -/
def lineage : List Node :=
  [{ Node.new "base" .abstractClass with
      definitions := ⟨.ofList ["count"], .empty, .ofList ["Base", "Root"]⟩ },
    { Node.new "child" .concreteClass with
      dependencies :=
        ⟨.ofList ["Base", "Child", "Root", "count", "mixin"], .empty, .ofList ["Mixin"], .empty⟩
      definitions := ⟨.empty, .empty, .ofList ["Child"]⟩ },
    { Node.new "mixin" .concreteClass with
      definitions := ⟨.empty, .empty, .ofList ["Mixin", "mixin"]⟩ },
    { Node.new "copy" .fragment with definitions := ⟨.empty, .empty, .ofList ["Base"]⟩ }]

/-- The class inherits from the abstract class by both names, and from itself. -/
theorem inheritance_of_infer_lineage :
    (lineage.map Node.id).Nodup ∧
      ∀ r : Row, (∃ child ∈ lineage, ∃ parent ∈ lineage,
        RefersTo child parent r.name ∧ r.source = child.id ∧ r.target = parent.id) ↔
      r ∈ [⟨"child", "base", "Base"⟩, ⟨"child", "base", "Root"⟩, ⟨"child", "child", "Child"⟩] := by
  have hnames : (lineage.map Node.id).Nodup := by decide +kernel
  refine ⟨hnames, ?_⟩
  obtain ⟨rows, hfound, -, hrows⟩ := inheritance_of_infer hnames []
  have hedges : (infer lineage []).filter (fun e => e.kind = .inheritance) =
      [⟨"child", "base", "Base"⟩, ⟨"child", "base", "Root"⟩, ⟨"child", "child", "Child"⟩].map
        (edgeOf .inheritance) := by decide +kernel
  have heq := (edgeOf_injective .inheritance).list_map (hfound.symm.trans hedges)
  exact fun r => (hrows r).symm.trans (by rw [heq])

/-! ## Overrides -/

/-- Two methods define a bare name, the first in a class that refers to a class of the second. The
edges only tell which methods belong to which classes. -/
def IsOverride (nodes : List Node) (existing : List Edge) (r : Row) : Prop :=
  ∃ m ∈ nodes, ∃ o ∈ nodes, m.id = r.source ∧ o.id = r.target ∧
    m.kind = .method ∧ o.kind = .method ∧
    (∃ child ∈ nodes, ∃ parent ∈ nodes, Wiring.Leads existing .method m.id child.id ∧
      Wiring.Leads existing .method o.id parent.id ∧ ∃ name, RefersTo child parent name) ∧
    (∃ function ∈ m.definitions.functions.names, IsMethodName function r.name) ∧
    ∃ function ∈ o.definitions.functions.names, IsMethodName function r.name

theorem mem_overriddenNames_inheritance (h : (nodes.map Node.id).Nodup) {existing : List Edge}
    {r : Row} : r ∈ overriddenNames nodes existing (inheritance nodes (dependencies nodes)) ↔
      IsOverride nodes existing r := by
  rw [mem_overriddenNames h]
  refine exists_congr fun m => and_congr_right fun _ => exists_congr fun o =>
    and_congr_right fun _ => ?_
  have hclasses : (∃ c ∈ nodes, ∃ p ∈ nodes, Wiring.Leads existing .method m.id c.id ∧
        Wiring.Leads (inheritance nodes (dependencies nodes)) .inheritance c.id p.id ∧
        Wiring.Leads existing .method o.id p.id) ↔
      ∃ c ∈ nodes, ∃ p ∈ nodes, Wiring.Leads existing .method m.id c.id ∧
        Wiring.Leads existing .method o.id p.id ∧ ∃ name, RefersTo c p name := by
    refine exists_congr fun c => and_congr_right fun hc => exists_congr fun p =>
      and_congr_right fun hp => ?_
    rw [leads_inheritance h hc hp, and_comm (a := ∃ name, _)]
  rw [hclasses, Definitions.mem_qualifiedMethods, Definitions.mem_qualifiedMethods]
  grind

/-- Whatever the nodes and the edges there are, exactly the overrides are drawn, each by one edge
with the two methods as its ends and the name on its label, sorted by these three. -/
theorem overrides_of_infer (h : (nodes.map Node.id).Nodup) (existing : List Edge) :
    ∃ rows : List Row,
      (infer nodes existing).filter (fun e => e.kind = .overrides) =
        rows.map (edgeOf .overrides) ∧
      rows.Pairwise (·.before ·) ∧ ∀ r, r ∈ rows ↔ IsOverride nodes existing r := by
  refine ⟨Row.sorted (overriddenNames nodes existing (inheritance nodes (dependencies nodes))), ?_,
    Row.pairwise_sorted _, fun r => ?_⟩
  · rw [infer, List.filter_append, List.filter_append, filter_dependencies (by decide), inheritance,
      filter_edgeOf, if_neg (by decide), overrides, filter_edgeOf, if_pos rfl, ← inheritance]
    rfl
  · rw [Row.mem_sorted, mem_overriddenNames_inheritance h]

/-- In a family of two classes the child's method overrides that of its parent, and no other: the
name `run` is the only one both define. -/
theorem overrides_of_infer_family :
    (family.map Node.id).Nodup ∧
      ∀ r, IsOverride family familyEdges r ↔ r = ⟨"child.run", "base.run", "run"⟩ := by
  have hnames : (family.map Node.id).Nodup := by decide +kernel
  refine ⟨hnames, ?_⟩
  obtain ⟨rows, hfound, -, hrows⟩ := overrides_of_infer hnames familyEdges
  have hedges : (infer family familyEdges).filter (fun e => e.kind = .overrides) =
      [edgeOf .overrides ⟨"child.run", "base.run", "run"⟩] := by decide +kernel
  obtain ⟨row, rfl, hrow⟩ := List.map_eq_singleton_iff.mp (hfound.symm.trans hedges)
  obtain rfl : row = ⟨"child.run", "base.run", "run"⟩ := by
    obtain ⟨source, target, name⟩ := row
    simp only [edgeOf, Edge.mk.injEq, Option.some.injEq] at hrow
    obtain ⟨-, rfl, rfl, -, rfl⟩ := hrow
    rfl
  exact fun r => (hrows r).symm.trans List.mem_singleton

end Relations

end Runbook
