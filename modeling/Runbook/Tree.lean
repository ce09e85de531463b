import Runbook.Book
import Runbook.Graph

/-!
# Execution trees

All session paths of a file, merged into one tree. Paths share nodes only along an unbroken
common beginning:

```text
s1: start A B C        root
s2: start A B D         └─ start
s3: start A X B             └─ A
                                ├─ B ─┬─ C
                                │     └─ D
                                └─ X ── B
```

* `Tree`: a node of the tree with everything below it
* `Tree.build`: the tree of some paths
* `Tree.pathTo?`, `Tree.match?`: the way to a node, and the way along given steps
* `Tree.branchPath?`: the path of a session that branches off at a node
* `Book.tree`, `Tree.highlight`: the tree of a file, and a session's place in it
-/

namespace Runbook

/-- A node of an execution tree and what is below it. -/
structure Tree where
  /-- its own name, one of a kind within a tree -/
  id : String
  /-- the graph node it stands for -/
  node : NodeId
  /-- what is shown for it -/
  label : String
  /-- the nodes right below it -/
  children : List Tree
  deriving Repr

namespace Tree

/-- The name of the root, which is never shown. -/
def rootId : String := "root"

/-- The tree with nothing but the root. -/
def root : Tree := ⟨rootId, rootId, rootId, []⟩

instance : Inhabited Tree := ⟨root⟩

mutual

/-- The number of nodes, the top one included. -/
def size : Tree → Nat
  | ⟨_, _, _, children⟩ => 1 + sizes children

/-- The number of nodes of several trees. -/
def sizes : List Tree → Nat
  | [] => 0
  | t :: rest => size t + sizes rest

end

/-- The number of nodes that are shown. -/
def length (t : Tree) : Nat := t.size - 1

/-! ## Building -/

/-- A chain of new nodes, numbered from `count + 1`. -/
def chain (labelOf : NodeId → String) (count : Nat) : List NodeId → List Tree
  | [] => []
  | id :: rest =>
    [⟨"node" ++ toString (count + 1), id, labelOf id, chain labelOf (count + 1) rest⟩]

/-- Puts a tree in the place of the first one that stands for a graph node. -/
def replaceFirst (id : NodeId) (child : Tree) : List Tree → List Tree
  | [] => []
  | t :: rest => if t.node = id then child :: rest else t :: replaceFirst id child rest

/-- Merges a path into the tree, whose nodes are numbered up to `count`; gives the new count. As
long as the path goes on to a node that is there, it follows; the rest becomes a chain of new
nodes. -/
def addPath (labelOf : NodeId → String) : List NodeId → Nat → Tree → Nat × Tree
  | [], count, t => (count, t)
  | id :: rest, count, t =>
    match t.children.find? fun c => c.node = id with
    | some child =>
      let (count, child) := addPath labelOf rest count child
      (count, { t with children := replaceFirst id child t.children })
    | none =>
      (count + rest.length + 1,
        { t with children := t.children ++ chain labelOf count (id :: rest) })

/-- The tree of some paths. -/
def build (labelOf : NodeId → String) (paths : List (List NodeId)) : Tree :=
  (paths.foldl (fun (count, t) path => addPath labelOf path count t) (0, root)).2

/-! ## Finding -/

mutual

/-- The way from below a node to the first node of this name, in depth-first order. -/
def pathTo? (target : String) : Tree → Option (List Tree)
  | ⟨_, _, _, children⟩ => pathAmong? target children

/-- The way from some nodes to the first one of this name. -/
def pathAmong? (target : String) : List Tree → Option (List Tree)
  | [] => none
  | t :: rest =>
    if t.id = target then some [t]
    else
      match pathTo? target t with
      | some way => some (t :: way)
      | none => pathAmong? target rest

end

/-- A step to look for: a graph node and what is shown for it. -/
structure Step where
  /-- the graph node -/
  node : NodeId
  /-- what is shown for it -/
  label : String
  deriving DecidableEq, Repr

/-- Whether a node of the tree is such a step. -/
def isStep (s : Step) (t : Tree) : Bool := t.node = s.node && t.label = s.label

/-- The first way down from a node along the given steps, trying children in order and turning
back from dead ends. -/
def match? : List Step → Tree → Option (List Tree)
  | [], _ => some []
  | step :: rest, t => t.children.findSome? fun child =>
    if isStep step child then (match? rest child).map (child :: ·) else none

/-! ## Branching -/

/-- Where a new node goes, seen from the one it is put at. -/
inductive Placement where
  /-- right before -/
  | before
  /-- right after -/
  | after
  deriving DecidableEq, Repr

/-- The placement that a document holds. -/
def Placement.ofDocument? : Document → Option Placement :=
  Document.word? fun
    | "before" => some .before
    | "after" => some .after
    | _ => none

/-- Whether a graph node only marks a place in the tree. -/
def isMarker (id : NodeId) : Bool := id = startId || id = rootId || id = ""

/-- The path of a session that branches off at a node of the tree: the graph nodes on the way to
it, with a new one put before or after the last. Markers are left out. -/
def branchPath? (t : Tree) (target : String) (node : NodeId) (placement : Placement) :
    Option (List NodeId) :=
  (t.pathTo? target).map fun way =>
    let ids := way.map Tree.node
    let ids := match placement with
      | .before => ids.dropLast ++ node :: ids.getLast?.toList
      | .after => ids ++ [node]
    ids.filter fun id => !isMarker id

/-! ## Views -/

mutual

/-- The nodes below one with their depths, in depth-first order. -/
def rows (depth : Nat) : Tree → List (Nat × Tree)
  | ⟨_, _, _, children⟩ => rowsAmong depth children

/-- Some nodes and those below them, with their depths. -/
def rowsAmong (depth : Nat) : List Tree → List (Nat × Tree)
  | [] => []
  | t :: rest => (depth, t) :: (rows (depth + 1) t ++ rowsAmong depth rest)

end

mutual

/-- The links from parents to children below a node, in depth-first order; links that leave a
node named like the root are left out. -/
def links : Tree → List (String × String)
  | ⟨id, _, _, children⟩ => linksFrom id children

/-- The links from a parent to some children, and those below them. -/
def linksFrom (parent : String) : List Tree → List (String × String)
  | [] => []
  | t :: rest =>
    (if parent = rootId then [] else [(parent, t.id)]) ++ links t ++ linksFrom parent rest

end

/-! ## Documents -/

mutual

/-- The tree that a document holds. -/
def ofDocument? : Document → Option Tree
  | .obj fields => do
    let id ← Document.required? Document.str? (← Document.field? fields "id")
    let node ← Document.required? Document.str? (← Document.field? fields "original_id")
    let label ← Document.required? Document.str? (← Document.field? fields "label")
    let children ← childrenField? fields
    return ⟨id, node, label, children.getD []⟩
  | .arr [.str id, .str node, .str label] => some ⟨id, node, label, []⟩
  | .arr [.str id, .str node, .str label, .arr children] => do
    return ⟨id, node, label, ← ofDocuments? children⟩
  | _ => none

/-- The trees that documents hold. -/
def ofDocuments? : List Document → Option (List Tree)
  | [] => some []
  | doc :: rest => do return (← ofDocument? doc) :: (← ofDocuments? rest)

/-- The trees in the field of the children, if it is there; `none` when it is there twice. -/
def childrenField? : List (String × Document) → Option (Option (List Tree))
  | [] => some none
  | field :: rest => do
    match ← childrenOf? field, ← childrenField? rest with
    | some children, none => return some children
    | none, children => return children
    | some _, some _ => none

/-- The trees in a field, if it is the one of the children. -/
def childrenOf? : String × Document → Option (Option (List Tree))
  | (key, .arr items) =>
    if key = "children" then (ofDocuments? items).map some else some none
  | (key, _) => if key = "children" then none else some none

end

mutual

/-- The tree as a value. -/
def toJson : Tree → Json
  | ⟨id, node, label, children⟩ => .obj [
    ("id", .str id), ("original_id", .str node), ("label", .str label),
    ("children", .arr (toJsons children))]

/-- The trees as values. -/
def toJsons : List Tree → List Json
  | [] => []
  | t :: rest => toJson t :: toJsons rest

end

/-- The tree whose root is in the object that a document holds. -/
def ofWholeDocument? (doc : Document) : Option Tree := do
  match ← doc.record? ["root"] with
  | [root] => Document.required? ofDocument? root
  | _ => none

/-- The tree as a value: an object with the root in it. -/
def wholeToJson (t : Tree) : Json := .obj [("root", t.toJson)]

/-! ## The tree of a file -/

/-- What is shown for a graph node: its label with its name, or only the name if it is gone. -/
def stepLabel (g : Graph) (id : NodeId) : String :=
  match g.node? id with
  | some n => n.displayLabel
  | none => id

/-- A session's path from the start on. -/
def startPath (s : Session) : List NodeId := startId :: s.path

/-- The names of the tree nodes that a session's path runs through; none if the path is not in
the tree as the graph shows it now. -/
def highlight (t : Tree) (g : Graph) (s : Session) : NameSet :=
  match t.match? ((startPath s).map fun id => ⟨id, stepLabel g id⟩) with
  | some way => NameSet.ofList (way.map Tree.id)
  | none => .empty

end Tree

/-- The tree of all sessions of a book. -/
def Book.tree (b : Book) (g : Graph) : Tree :=
  Tree.build (Tree.stepLabel g) (b.sessions.map Tree.startPath)

end Runbook
