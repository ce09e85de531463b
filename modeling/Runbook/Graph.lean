import Runbook.Edge

/-!
# Graphs

The nodes and edges of one file.

* `Graph`: nodes in the order they came, edges in the order they were drawn, and notes
* `Graph.upsertNode`, `Graph.takeNode?`: the node list as a table that keeps its order
* `Graph.freshEdgeId`, `Graph.connect`: edges under names of their own
* `Wiring`: nodes and edges by place, for walking along edges
-/

namespace Runbook

/-- The nodes and edges of one file. -/
structure Graph where
  /-- the nodes in the order they came -/
  nodes : List Node
  /-- the edges in the order they were drawn -/
  edges : List Edge
  /-- notes about the file -/
  metadata : Table String
  deriving DecidableEq

namespace Graph

/-- The graph with nothing in it. -/
def empty : Graph := ⟨[], [], .empty⟩

instance : Inhabited Graph := ⟨empty⟩

/-! ## Nodes -/

/-- The first node of a list with this name. -/
def findNode? (nodes : List Node) (id : NodeId) : Option Node := nodes.find? fun n => n.id = id

/-- The node of this name. -/
def node? (g : Graph) (id : NodeId) : Option Node := findNode? g.nodes id

/-- Whether there is a node of this name. -/
def hasNode (g : Graph) (id : NodeId) : Bool := (g.node? id).isSome

/-- Changes the first node of this name. -/
def modifyFirst (id : NodeId) (f : Node → Node) : List Node → List Node
  | [] => []
  | n :: rest => if n.id = id then f n :: rest else n :: modifyFirst id f rest

/-- Puts a node in the place of the first one of its name, or at the end. -/
def upsert (node : Node) (nodes : List Node) : List Node :=
  if (findNode? nodes node.id).isSome then modifyFirst node.id (fun _ => node) nodes
  else nodes ++ [node]

/-- The graph with a node put in the place of one of its name, or added at the end. -/
def upsertNode (g : Graph) (node : Node) : Graph := { g with nodes := upsert node g.nodes }

/-- The graph with the node of this name changed. -/
def modifyNode (g : Graph) (id : NodeId) (f : Node → Node) : Graph :=
  { g with nodes := modifyFirst id f g.nodes }

/-- The graph without the first node of this name. Its edges stay. -/
def dropNode (g : Graph) (id : NodeId) : Graph :=
  { g with nodes := g.nodes.eraseP fun n => n.id = id }

/-- Takes out the node of this name, if there is one. -/
def takeNode? (g : Graph) (id : NodeId) : Option Node × Graph := (g.node? id, g.dropNode id)

/-! ## Edges -/

/-- The first edge of a list with this name. -/
def findEdge? (edges : List Edge) (id : EdgeId) : Option Edge := edges.find? fun e => e.id = id

/-- The edge of this name. -/
def edge? (g : Graph) (id : EdgeId) : Option Edge := findEdge? g.edges id

/-- The graph with an edge added. -/
def addEdge (g : Graph) (e : Edge) : Graph := { g with edges := g.edges ++ [e] }

/-- The graph with only the edges of some sort. -/
def keepEdges (g : Graph) (p : Edge → Bool) : Graph := { g with edges := g.edges.filter p }

/-- The edges at a node. -/
def edgesTouching (g : Graph) (node : NodeId) : List Edge := g.edges.filter (Edge.touches node)

/-- The edges that do not come from analysis. -/
def authored (g : Graph) : List Edge := g.edges.filter fun e => !e.isDerived

/-- The edges that come from analysis. -/
def derived (g : Graph) : List Edge := g.edges.filter Edge.isDerived

/-- The first name of the form `base-i`, counting from `i`, that no edge has. Among any
`fuel` numbers one is free if there are fewer edges than that. -/
def freeSuffix (edges : List Edge) (base : String) : Nat → Nat → EdgeId
  | 0, i => base ++ "-" ++ toString i
  | fuel + 1, i =>
    let id := base ++ "-" ++ toString i
    if (findEdge? edges id).isNone then id else freeSuffix edges base fuel (i + 1)

/-- A name that no edge has: the names of the ends joined by a dash, with a number behind if
that is taken. -/
def freshEdgeId (g : Graph) (source target : NodeId) : EdgeId :=
  let base := source ++ "-" ++ target
  if (g.edge? base).isNone then base else freeSuffix g.edges base g.edges.length 1

/-- Joins two nodes by an edge under a fresh name. -/
def connect (g : Graph) (source target : NodeId) (kind : Edge.Kind) : EdgeId × Graph :=
  let id := g.freshEdgeId source target
  (id, g.addEdge { id, source, target, kind, label := none })

/-! ## Documents -/

/-- The notes that a document holds; of two with one name the later one counts. -/
def notes? : Document → Option (Table String)
  | .obj fields => (fields.mapM fun f => (Document.str? f.2).map (f.1, ·)).map Table.ofList
  | _ => none

/-- The graph that a document holds. -/
def ofDocument? (doc : Document) : Option Graph := do
  match ← doc.record? ["nodes", "edges", "metadata"] with
  | [nodes, edges, metadata] =>
    return {
      nodes := ← Document.required? (Document.list? Node.ofDocument?) nodes
      edges := ← Document.required? (Document.list? Edge.ofDocument?) edges
      metadata := ← Document.defaulted? .empty notes? metadata }
  | _ => none

/-- The graph as a value. -/
def toJson (g : Graph) : Json := .obj [
  ("nodes", .arr (g.nodes.map Node.toJson)), ("edges", .arr (g.edges.map Edge.toJson)),
  ("metadata", .obj (g.metadata.entries.map fun (key, note) => (key, .str note)))]

end Graph

/-! ## Walking along edges -/

/-- Nodes by place, and the edges whose ends are both among them. -/
structure Wiring where
  /-- the nodes -/
  nodes : List Node
  /-- the edges, with the places of their ends -/
  links : List (Nat × Nat × Edge)

namespace Wiring

/-- The place of the last node of this name. -/
def lastPlace? (nodes : List Node) (id : NodeId) : Option Nat :=
  ((nodes.zipIdx.filter fun (n, _) => n.id = id).getLast?).map Prod.snd

/-- The wiring of some nodes and edges. Edges with an end elsewhere are left out. -/
def of (nodes : List Node) (edges : List Edge) : Wiring where
  nodes
  links := edges.filterMap fun e => do
    return (← lastPlace? nodes e.source, ← lastPlace? nodes e.target, e)

/-- The places reached along edges of one kind. -/
def next (w : Wiring) (kind : Edge.Kind) (place : Nat) : List Nat :=
  (w.links.filter fun (source, _, e) => source = place && e.kind = kind).map fun l => l.2.1

/-- The places from which edges of one kind lead here. -/
def previous (w : Wiring) (kind : Edge.Kind) (place : Nat) : List Nat :=
  (w.links.filter fun (_, target, e) => target = place && e.kind = kind).map fun l => l.1

end Wiring

end Runbook
