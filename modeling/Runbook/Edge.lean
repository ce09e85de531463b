import Runbook.Node
import Runbook.Text.Numeral

/-!
# Edges

* `Edge.Kind`: why two nodes are joined; three kinds are derived from the nodes' analysis, the
  rest are authored
* `Edge`: the edge itself
* `Edge.step?`, `Edge.executionPosition?`: which step of a session an execution edge stands for
-/

namespace Runbook

/-- The name of an edge. -/
abbrev EdgeId := String

/-- Why two nodes are joined. -/
inductive Edge.Kind where
  /-- the source uses a name that the target defines -/
  | dependency
  /-- the source class inherits from the target class -/
  | inheritance
  /-- the source method overrides the target method -/
  | overrides
  /-- the source is a method of the target class -/
  | method
  /-- a step of a session -/
  | execution (session : String)
  /-- the source is prose about the target -/
  | documentation
  /-- any other reason -/
  | base
  deriving DecidableEq, Repr

namespace Edge.Kind

/-- The word for a kind. -/
def word : Kind → String
  | dependency => "dependency"
  | inheritance => "inheritance"
  | overrides => "overrides"
  | method => "method"
  | execution _ => "execution"
  | documentation => "documentation"
  | base => "base"

/-- Whether edges of this kind come from the nodes' analysis. -/
def isDerived : Kind → Bool
  | dependency | inheritance | overrides => true
  | _ => false

/-- The session whose step the edge is. -/
def session? : Kind → Option String
  | execution session => some session
  | _ => none

/-- Whether the edge is a step of any session. -/
def isExecution (k : Kind) : Bool := k.session?.isSome

/-- Whether the edge is a step of this session. -/
def isExecutionOf (session : String) (k : Kind) : Bool := k = execution session

/-- The kind whose word this is and whose session, where it has one, is given. -/
def ofWord? (w : String) (session : Option String) : Option Kind :=
  if w = "execution" then session.map execution
  else [dependency, inheritance, overrides, method, documentation, base].find? fun k => k.word = w

/-- The kind that a document holds: an object with the word under `type`, or an array that
starts with the word. An object may have other fields as long as they stand for values. -/
def ofDocument? : Document → Option Kind
  | .obj fields => do
    let _ ← (Document.obj fields).value?
    let w ← Document.required? Document.str? (← Document.field? fields "type")
    if w = "execution" then
      ofWord? w (← Document.required? Document.str? (← Document.field? fields "session"))
    else ofWord? w none
  | .arr [.str w] => ofWord? w none
  | .arr [.str w, .str session] => if w = "execution" then ofWord? w (some session) else none
  | _ => none

/-- The kind as a value. -/
def toJson (k : Kind) : Json := .obj (
  ("type", .str k.word) :: Json.whenSome "session" (k.session?.map .str))

end Edge.Kind

/-- A reason why two nodes are joined. -/
structure Edge where
  /-- its name -/
  id : EdgeId
  /-- the node it leaves -/
  source : NodeId
  /-- the node it enters -/
  target : NodeId
  /-- the reason -/
  kind : Edge.Kind
  /-- a note: the position of an execution step, the shared names of a derived edge -/
  label : Option String
  deriving DecidableEq, Repr

namespace Edge

/-- Whether the edge leaves or enters a node. -/
def touches (node : NodeId) (e : Edge) : Bool := e.source = node || e.target = node

/-- Whether the edge comes from the nodes' analysis. -/
def isDerived (e : Edge) : Bool := e.kind.isDerived

/-- Whether the edge is a step of any session. -/
def isExecution (e : Edge) : Bool := e.kind.isExecution

/-- Whether the edge is a step of this session. -/
def isExecutionOf (session : String) (e : Edge) : Bool := e.kind.isExecutionOf session

/-- The step that an execution edge stands for: the numeral on its label, blanks aside. -/
def step? (e : Edge) : Option Nat :=
  if e.isExecution then
    e.label.bind fun label => Text.natural? (Text.trim label.toList)
  else none

/-- The same as a number of 64 bits, as positions are given out. -/
def executionPosition? (e : Edge) : Option Nat := e.step?.filter (· < UInt64.size)

/-- The edge that a document holds. -/
def ofDocument? (doc : Document) : Option Edge := do
  match ← doc.record? ["id", "source", "target", "kind", "label"] with
  | [id, source, target, kind, label] =>
    return {
      id := ← Document.required? Document.str? id
      source := ← Document.required? Document.str? source
      target := ← Document.required? Document.str? target
      kind := ← Document.required? Kind.ofDocument? kind
      label := ← Document.defaulted? none (Document.option? Document.str?) label }
  | _ => none

/-- The edge as a value. -/
def toJson (e : Edge) : Json := .obj (
  [("id", .str e.id), ("source", .str e.source), ("target", .str e.target),
    ("kind", e.kind.toJson)] ++ Json.whenSome "label" (e.label.map .str))

end Edge

end Runbook
