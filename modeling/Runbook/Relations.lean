import Runbook.Graph

/-!
# Derived edges

Three kinds of edges follow from what is known about the nodes' code. Each kind is found with
the help of the one before it:

* `dependencies`: the source uses names that the target defines
* `inheritance`: the source class uses the name of a class that the target class defines
* `overrides`: along `method → class → parent ← method`, two methods share a bare name

`infer` finds all of them, and `Graph.refresh` puts them in the place of the derived edges a
graph has. Every kind comes sorted by source, target and name, so neither the order of the
nodes nor of the edges shows.
-/

namespace Runbook

namespace Relations

/-! ## Rows -/

/-- A name that joins two nodes. -/
structure Row where
  /-- the node that uses the name -/
  source : NodeId
  /-- the node that defines it -/
  target : NodeId
  /-- the name -/
  name : String
  deriving DecidableEq, Repr

/-- The order of rows: by source, then by target, then by name. -/
def Row.before (a b : Row) : Bool :=
  a.source < b.source || (a.source = b.source &&
    (a.target < b.target || (a.target = b.target && a.name < b.name)))

/-- Puts a row in its place unless it is there. -/
def Row.insert (r : Row) : List Row → List Row
  | [] => [r]
  | a :: rest =>
    if r.before a then r :: a :: rest
    else if r = a then a :: rest
    else a :: insert r rest

/-- The rows in order, each once. -/
def Row.sorted (rows : List Row) : List Row := rows.foldr Row.insert []

theorem Row.mem_insert {r x : Row} : ∀ {rows : List Row}, x ∈ r.insert rows ↔ x = r ∨ x ∈ rows
  | [] => by simp [Row.insert]
  | a :: rest => by
    rw [Row.insert]
    split
    · simp
    · split
      · rename_i h
        subst h
        simp
      · rw [List.mem_cons, List.mem_cons, mem_insert]
        constructor
        · rintro (h | h | h) <;> simp [h]
        · rintro (h | h | h) <;> simp [h]

theorem Row.mem_sorted {x : Row} {rows : List Row} : x ∈ Row.sorted rows ↔ x ∈ rows := by
  induction rows with
  | nil => simp [Row.sorted]
  | cons r rest ih =>
    rw [Row.sorted, List.foldr_cons, Row.mem_insert, List.mem_cons]
    exact or_congr_right ih

/-! ## Dependencies -/

/-- Every use of a name by one node with code and its definition by another, or by itself. -/
def sharedNames (nodes : List Node) : List Row :=
  let coded := nodes.filter fun n => n.kind.isCode
  coded.flatMap fun s =>
    coded.flatMap fun t =>
      (s.dependencies.names.filter fun name => t.definitions.names.contains name).map fun name =>
        ⟨s.id, t.id, name⟩

/-- Joins sorted rows with the same two nodes: the nodes, and their names in order. -/
def cells : List Row → List (NodeId × NodeId × List String)
  | [] => []
  | r :: rest =>
    match cells rest with
    | (source, target, names) :: more =>
      if r.source = source ∧ r.target = target then (source, target, r.name :: names) :: more
      else (r.source, r.target, [r.name]) :: (source, target, names) :: more
    | [] => [(r.source, r.target, [r.name])]

/-- One edge for every two nodes of which the first uses names that the second defines. -/
def dependencies (nodes : List Node) : List Edge :=
  (cells (Row.sorted (sharedNames nodes))).map fun (source, target, names) =>
    { id := "dependency:" ++ source ++ "->" ++ target, source, target, kind := .dependency,
      label := some (", ".intercalate names) }

/-! ## Inheritance -/

/-- The edge of a kind for a row. -/
def edgeOf (kind : Edge.Kind) (r : Row) : Edge :=
  { id := kind.word ++ ":" ++ r.source ++ "->" ++ r.target ++ ":" ++ r.name, source := r.source,
    target := r.target, kind, label := some r.name }

/-- The last node of this name. -/
def lastNode? (nodes : List Node) (id : NodeId) : Option Node :=
  (nodes.filter fun n => n.id = id).getLast?

/-- Every class, with a class it depends on and a class name it uses that the other defines. -/
def inheritedNames (nodes : List Node) (dependency : List Edge) : List Row :=
  (nodes.filter fun n => n.kind.isClass).flatMap fun n =>
    let targets := (dependency.filter fun e => e.kind = .dependency ∧ e.source = n.id).filterMap
      fun e => (lastNode? nodes e.target).filter fun t => t.kind.isClass
    n.dependencies.typeReferences.flatMap fun name =>
      (targets.filter fun t => t.definitions.classes.contains name).map fun t =>
        ⟨n.id, t.id, name⟩

/-- One edge for every class name by which a class refers to one it depends on. -/
def inheritance (nodes : List Node) (dependency : List Edge) : List Edge :=
  (Row.sorted (inheritedNames nodes dependency)).map (edgeOf .inheritance)

/-! ## Overrides -/

/-- Every method, with a method of a parent of its class and a bare name both define. -/
def overriddenNames (nodes : List Node) (existing inherited : List Edge) : List Row :=
  let w := Wiring.of nodes
    ((existing.filter fun e => e.kind = .method) ++
      inherited.filter fun e => e.kind = .inheritance)
  (nodes.filter fun n => n.kind = .method).flatMap fun m =>
    let names := m.definitions.qualifiedMethods
    match Wiring.lastPlace? nodes m.id with
    | none => []
    | some place =>
      let others := ((((w.next .method place).flatMap (w.next .inheritance)).flatMap
        (w.previous .method)).filterMap fun p => w.nodes[p]?).filter fun n => n.kind = .method
      others.flatMap fun o =>
        (o.definitions.qualifiedMethods.filter names.contains).map fun name => ⟨m.id, o.id, name⟩

/-- One edge for every bare name a method shares with a method of a parent of its class. -/
def overrides (nodes : List Node) (existing inherited : List Edge) : List Edge :=
  (Row.sorted (overriddenNames nodes existing inherited)).map (edgeOf .overrides)

/-! ## All of them -/

/-- Every derived edge. Of the edges there are already, only method edges count. -/
def infer (nodes : List Node) (existing : List Edge) : List Edge :=
  let dependency := dependencies nodes
  let inherited := inheritance nodes dependency
  dependency ++ inherited ++ overrides nodes existing inherited

/-- How many edges of each derived kind there are. -/
structure Summary where
  /-- dependency edges -/
  dependency : Nat
  /-- inheritance edges -/
  inheritance : Nat
  /-- overrides edges -/
  overrides : Nat
  deriving DecidableEq, Repr

/-- The number of derived edges. -/
def Summary.total (s : Summary) : Nat := s.dependency + s.inheritance + s.overrides

/-- The counts of a list of edges. -/
def Summary.of (edges : List Edge) : Summary where
  dependency := edges.countP fun e => e.kind = .dependency
  inheritance := edges.countP fun e => e.kind = .inheritance
  overrides := edges.countP fun e => e.kind = .overrides

end Relations

/-- The graph with its derived edges found anew; they come after the authored ones. -/
def Graph.refresh (g : Graph) : Graph :=
  { g with edges := g.authored ++ Relations.infer g.nodes g.edges }

/-- How many derived edges `Graph.refresh` finds. -/
def Graph.refreshSummary (g : Graph) : Relations.Summary :=
  .of (Relations.infer g.nodes g.edges)

end Runbook
