import Runbook.Json.Record
import Runbook.Text.Capital
import Runbook.Text.Lines
import Runbook.Text.Blank

/-!
# Nodes

A node is a piece of code, or something else that can stand in a file's graph.

* `Node.Kind`, `Node.Category`: what a node is
* `Dependencies`, `Definitions`, `Analysis`: the names a node uses and introduces
* `SessionRef`: the session a graph node runs
* `Node`: the node itself, with `Node.applyAnalysis`, `Node.executionCode`, `Node.displayLabel`
* `scopedCode`: a method's code, attached to its class
-/

namespace Runbook

/-- The name of a node. -/
abbrev NodeId := String

/-- The node that every path starts from. -/
def startId : NodeId := "start"

/-! ## Kinds -/

/-- What a node is. -/
inductive Node.Kind where
  /-- a free-standing piece of code -/
  | fragment
  /-- a class -/
  | concreteClass
  /-- a class that is only inherited from -/
  | abstractClass
  /-- an interface -/
  | interface
  /-- a method, tied to its class by a method edge -/
  | method
  /-- code that prepares libraries -/
  | library
  /-- import statements -/
  | imports
  /-- prose about other nodes -/
  | documentation
  /-- the start of every path -/
  | start
  /-- a step that runs a session's whole path -/
  | graph
  deriving DecidableEq, Repr

/-- The coarse sorts of nodes. -/
inductive Node.Category where
  /-- holds code -/
  | code
  /-- part of the scaffolding -/
  | structural
  /-- holds prose -/
  | documentation
  deriving DecidableEq, Repr

namespace Node

namespace Kind

/-- All kinds. -/
def all : List Kind :=
  [fragment, concreteClass, abstractClass, interface, method, library, imports, documentation,
    start, graph]

/-- The word for a kind. -/
def word : Kind → String
  | fragment => "code_fragment"
  | concreteClass => "class"
  | abstractClass => "abstract_class"
  | interface => "interface"
  | method => "method"
  | library => "library"
  | imports => "import"
  | documentation => "documentation"
  | start => "start"
  | graph => "graph"

/-- The kind a word stands for. -/
def ofWord? (w : String) : Option Kind := all.find? fun k => k.word = w

/-- The sort a kind belongs to. -/
def category : Kind → Category
  | start | graph => .structural
  | documentation => .documentation
  | _ => .code

/-- Whether nodes of this kind hold code. -/
def isCode (k : Kind) : Bool := k.category = .code

/-- Whether nodes of this kind can inherit and be inherited from. -/
def isClass (k : Kind) : Bool := k = concreteClass || k = abstractClass

theorem ofWord?_word (k : Kind) : ofWord? k.word = some k := by cases k <;> rfl

/-- The kind that a document holds. -/
def ofDocument? : Document → Option Kind := Document.word? ofWord?

/-- The kind as a value. -/
def toJson (k : Kind) : Json := .str k.word

end Kind

/-- The word for a category. -/
def Category.word : Category → String
  | code => "code"
  | structural => "structural"
  | documentation => "documentation"

end Node

/-! ## Analysis -/

/-- The names a node uses. -/
structure Dependencies where
  /-- variables -/
  vars : NameSet
  /-- functions -/
  functions : NameSet
  /-- classes -/
  classes : NameSet
  /-- modules -/
  modules : NameSet
  deriving DecidableEq, Inhabited

/-- The names a node introduces. -/
structure Definitions where
  /-- variables -/
  vars : NameSet
  /-- functions -/
  functions : NameSet
  /-- classes -/
  classes : NameSet
  deriving DecidableEq, Inhabited

/-- What is known about a node's code. -/
structure Analysis where
  /-- the names it uses -/
  dependencies : Dependencies
  /-- the names it introduces -/
  definitions : Definitions
  deriving DecidableEq, Inhabited

/-- Whether a name starts with a capital letter, as the names of classes do. -/
def isTypeName (name : String) : Bool :=
  match name.toList with
  | c :: _ => Text.isCapital c
  | [] => false

/-- The method in `Class.method`: what stands between the first dot and the next. -/
def methodName? (name : String) : Option String :=
  (Text.breakAt '.' name.toList).map fun (_, method) => String.ofList (method.takeWhile (· ≠ '.'))

namespace Dependencies

/-- All names, group by group. -/
def names (d : Dependencies) : List String :=
  d.vars.names ++ d.functions.names ++ d.classes.names ++ d.modules.names

/-- The variables that look like classes. -/
def typeReferences (d : Dependencies) : List String := d.vars.names.filter isTypeName

/-- The dependencies that a document holds. -/
def ofDocument? (doc : Document) : Option Dependencies := do
  match ← doc.record? ["variables", "functions", "classes", "modules"] with
  | [vars, functions, classes, modules] =>
    return {
      vars := ← Document.defaulted? .empty Document.nameSet? vars
      functions := ← Document.defaulted? .empty Document.nameSet? functions
      classes := ← Document.defaulted? .empty Document.nameSet? classes
      modules := ← Document.defaulted? .empty Document.nameSet? modules }
  | _ => none

/-- The dependencies as a value. -/
def toJson (d : Dependencies) : Json := .obj [
  ("variables", .strings d.vars.names), ("functions", .strings d.functions.names),
  ("classes", .strings d.classes.names), ("modules", .strings d.modules.names)]

end Dependencies

namespace Definitions

/-- All names, group by group. -/
def names (d : Definitions) : List String :=
  d.vars.names ++ d.functions.names ++ d.classes.names

/-- The bare names of the functions defined as `Class.method`. -/
def qualifiedMethods (d : Definitions) : List String := d.functions.names.filterMap methodName?

/-- The definitions that a document holds. -/
def ofDocument? (doc : Document) : Option Definitions := do
  match ← doc.record? ["variables", "functions", "classes"] with
  | [vars, functions, classes] =>
    return {
      vars := ← Document.defaulted? .empty Document.nameSet? vars
      functions := ← Document.defaulted? .empty Document.nameSet? functions
      classes := ← Document.defaulted? .empty Document.nameSet? classes }
  | _ => none

/-- The definitions as a value. -/
def toJson (d : Definitions) : Json := .obj [
  ("variables", .strings d.vars.names), ("functions", .strings d.functions.names),
  ("classes", .strings d.classes.names)]

end Definitions

namespace Analysis

/-- The analysis that a document holds. -/
def ofDocument? (doc : Document) : Option Analysis := do
  match ← doc.record? ["dependencies", "definitions"] with
  | [dependencies, definitions] =>
    return {
      dependencies := ← Document.defaulted? default Dependencies.ofDocument? dependencies
      definitions := ← Document.defaulted? default Definitions.ofDocument? definitions }
  | _ => none

/-- The analysis as a value. -/
def toJson (a : Analysis) : Json := .obj [
  ("dependencies", a.dependencies.toJson), ("definitions", a.definitions.toJson)]

end Analysis

/-! ## Methods and their classes -/

/-- A line of code one level deeper; tabs in its indentation become four blanks. -/
def indented (line : List Char) : List Char :=
  let indent := (line.takeWhile Text.isBlank).flatMap fun c =>
    if c = '\t' then [' ', ' ', ' ', ' '] else [c]
  [' ', ' ', ' ', ' '] ++ indent ++ line.dropWhile Text.isBlank

/-- Code that runs `code` inside a function and ties everything it defines to a class. -/
def scopedCode (code className : String) : String :=
  "def add_code_to_class(cls):\n" ++
  "    # START CODE INJECTION\n" ++
  String.ofList (Text.unlines ((Text.lines code.toList).map indented)) ++ "\n" ++
  "    # END CODE INJECTION\n" ++
  "    for key, value in locals().items():\n" ++
  "        if key != 'cls':\n" ++
  "            setattr(cls, key, value)\n" ++
  "\n" ++
  "add_code_to_class(" ++ className ++ ")\n" ++
  "\n" ++
  "del add_code_to_class"

/-- A function's name within a class; a name that has a class already keeps it. -/
def qualify (className name : String) : String :=
  if name.toList.contains '.' then name else className ++ "." ++ name

/-! ## Nodes -/

/-- The session of some file that a graph node runs. -/
structure SessionRef where
  /-- the file -/
  file : String
  /-- the session's name -/
  session : String
  deriving DecidableEq, Repr

/-- The reference that a document holds. -/
def SessionRef.ofDocument? (doc : Document) : Option SessionRef := do
  match ← doc.record? ["file", "session"] with
  | [file, session] =>
    return ⟨← Document.required? Document.str? file, ← Document.required? Document.str? session⟩
  | _ => none

/-- The reference as a value. -/
def SessionRef.toJson (r : SessionRef) : Json :=
  .obj [("file", .str r.file), ("session", .str r.session)]

/-- A node of a file's graph. -/
structure Node where
  /-- its name, one of a kind within the file -/
  id : NodeId
  /-- what it is -/
  kind : Node.Kind
  /-- what people call it -/
  label : String
  /-- its code -/
  code : Option String
  /-- the class around a method -/
  scope : Option String
  /-- the names it uses -/
  dependencies : Dependencies
  /-- the names it introduces -/
  definitions : Definitions
  /-- the session it runs -/
  graph : Option SessionRef
  deriving DecidableEq

namespace Node

/-- An empty node, called what it is named. -/
def new (id : NodeId) (kind : Kind) : Node :=
  { id, kind, label := id, code := none, scope := none, dependencies := default,
    definitions := default, graph := none }

/-- The start of every path. -/
def start : Node := new startId .start

/-- A node that runs a session. -/
def graphRef (id : NodeId) (ref : SessionRef) : Node := { new id .graph with graph := some ref }

/-- Whether the node is the start of every path. -/
def isStart (n : Node) : Bool := n.id = startId

/-- The class a method is attached to. -/
def methodScope? (n : Node) : Option String := if n.kind = .method then n.scope else none

/-- Takes over what is known about the code. A method with a class has the bare functions it
defines named within the class. -/
def applyAnalysis (n : Node) (a : Analysis) : Node :=
  let functions := match n.methodScope? with
    | some className => a.definitions.functions.map (qualify className)
    | none => a.definitions.functions
  { n with dependencies := a.dependencies, definitions := { a.definitions with functions } }

/-- The code to run for the node itself. -/
def executionCode (n : Node) : Option String :=
  n.code.map fun code =>
    match n.methodScope? with
    | some className => scopedCode code className
    | none => code

/-- The node's label with its name. -/
def displayLabel (n : Node) : String := n.label ++ " (" ++ n.id ++ ")"

/-- The node that a document holds. -/
def ofDocument? (doc : Document) : Option Node := do
  match ← doc.record?
    ["id", "kind", "label", "code", "scope", "dependencies", "definitions", "graph"] with
  | [id, kind, label, code, scope, dependencies, definitions, graph] =>
    return {
      id := ← Document.required? Document.str? id
      kind := ← Document.required? Kind.ofDocument? kind
      label := ← Document.defaulted? "" Document.str? label
      code := ← Document.defaulted? none (Document.option? Document.str?) code
      scope := ← Document.defaulted? none (Document.option? Document.str?) scope
      dependencies := ← Document.defaulted? default Dependencies.ofDocument? dependencies
      definitions := ← Document.defaulted? default Definitions.ofDocument? definitions
      graph := ← Document.defaulted? none (Document.option? SessionRef.ofDocument?) graph }
  | _ => none

/-- The node as a value. -/
def toJson (n : Node) : Json := .obj (
  [("id", .str n.id), ("kind", n.kind.toJson), ("label", .str n.label)] ++
  Json.whenSome "code" (n.code.map .str) ++ Json.whenSome "scope" (n.scope.map .str) ++
  [("dependencies", n.dependencies.toJson), ("definitions", n.definitions.toJson)] ++
  Json.whenSome "graph" (n.graph.map SessionRef.toJson))

end Node

end Runbook
