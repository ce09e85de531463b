import Runbook.Relations
import Runbook.Runner
import Runbook.Tree

/-!
# Workspaces

All files that are loaded, each with its graph and its sessions. Every update here is one
indivisible change.

* `FileState`, `Workspace`: one file, all files
* `Workspace.steps?`: the code that running a node means
* `FileState.commit?`, `FileState.commitReplay?`: recording what a run gave
* `FileState.removeNode`, `FileState.removeEdge`, `FileState.removeSession?`: deletions, which
  keep every session's chain of edges in step with its path
-/

namespace Runbook

/-! ## Files -/

/-- A file that is loaded. -/
structure FileState where
  /-- its nodes and edges -/
  graph : Graph
  /-- its sessions -/
  book : Book

instance : Inhabited FileState := ⟨⟨.empty, .empty⟩⟩

/-- What removing an edge took away. -/
inductive Removal where
  /-- a step of a session -/
  | execution (session : String) (execution : Execution)
  /-- an edge of another kind -/
  | plain (edge : Edge)

namespace FileState

/-- A file with its sessions as they were stored. The start node is added if it is missing, and
the sessions' chains are drawn anew. -/
def load (g : Graph) (b : Book) : FileState :=
  let g := if g.hasNode startId then g else g.upsertNode .start
  let others := g.edges.filter fun e => !e.isExecution
  { graph := { g with edges := b.sessions.foldl (fun es s => s.rebuildEdges es) others },
    book := b }

/-- The file with other edges. -/
def withEdges (f : FileState) (es : List Edge) : FileState :=
  { f with graph := { f.graph with edges := es } }

/-! ### Recording -/

/-- The state a run of a node in a session starts from, if both are there. -/
def prior? (f : FileState) (session : String) (node : NodeId) : Option Snapshot :=
  if f.graph.hasNode node then (f.book.get? session).map Session.overall else none

/-- Records what a run of a node gave as the next step of a session, which becomes primary, if
both are still there. Gives the execution and the session's new state. -/
def commit? (f : FileState) (session : String) (node : NodeId) (r : RunResult) (now : Instant) :
    Option (Execution × Snapshot × FileState) :=
  if f.graph.hasNode node then
    (f.book.get? session).map fun s =>
      let e := Execution.ofRun node r
      let s := s.push e now
      (e, s.overall, {
        graph := { f.graph with edges := s.appendEdge f.graph.edges }
        book := (f.book.replace session s).setPrimary session })
  else none

/-- Puts a session run anew in the place of the one of its name, which becomes primary, if that
and all its nodes are still there. -/
def commitReplay? (f : FileState) (scratch : Session) : Option FileState :=
  if scratch.path.all f.graph.hasNode && f.book.contains scratch.id then
    some {
      graph := { f.graph with edges := scratch.rebuildEdges f.graph.edges }
      book := (f.book.replace scratch.id scratch).setPrimary scratch.id }
  else none

/-! ### Deleting -/

/-- Takes a node out of every session that ran it. Gives the names of those sessions, the edges
with their chains redrawn, and all sessions. -/
def repairSessions (node : NodeId) (now : Instant) :
    List Session → List Edge → List String × List Edge × List Session
  | [], es => ([], es, [])
  | s :: rest, es =>
    if s.contains node then
      let (outcome, es, s) := s.removeNode node now es
      let (names, es, rest) := repairSessions node now rest es
      (match outcome with
        | .ok _ => s.id :: names
        | .error _ => names, es, s :: rest)
    else
      let (names, es, rest) := repairSessions node now rest es
      (names, es, s :: rest)

/-- Deletes a node: takes it out of the sessions, drops the edges at it, and finds the derived
edges anew. Gives the names of the sessions that ran it. The start and unknown nodes stay. -/
def removeNode (f : FileState) (node : NodeId) (now : Instant) : List String × FileState :=
  if node = startId || !f.graph.hasNode node then ([], f)
  else
    let (names, es, sessions) := repairSessions node now f.book.sessions f.graph.edges
    let g : Graph := { f.graph with edges := es.filter fun e => !e.touches node }
    (names, {
      graph := (g.dropNode node).refresh
      book := ({ f.book with sessions } : Book).refreshPrimary })

/-- Deletes an edge. An execution edge stands for a step, which is taken out of its session; one
whose session is gone is dropped without a word. -/
def removeEdge (f : FileState) (id : EdgeId) (now : Instant) : Option Removal × FileState :=
  let without := f.withEdges (f.graph.edges.filter fun e => e.id ≠ id)
  match f.graph.edge? id with
  | none => (none, f)
  | some e =>
    match e.kind.session? with
    | none => (some (.plain e), without)
    | some name =>
      match f.book.get? name with
      | none => (none, without)
      | some s =>
        match s.removeStep id now f.graph.edges with
        | (.ok (some x), es, s) =>
          (some (.execution name x), {
            graph := { f.graph with edges := es }
            book := (f.book.replace name s).refreshPrimary })
        | _ => (none, f)

/-- Deletes a session with its edges. -/
def removeSession? (f : FileState) (name : String) : Option (Session × FileState) :=
  (f.book.remove? name).map fun (s, book) =>
    (s, { graph := { f.graph with edges := Session.otherEdges name f.graph.edges }, book })

/-- The file with its derived edges found anew. -/
def refresh (f : FileState) : FileState := { f with graph := f.graph.refresh }

/-- The execution tree of the file's sessions. -/
def tree (f : FileState) : Tree := f.book.tree f.graph

end FileState

/-! ## All files -/

/-- The files that are loaded. -/
structure Workspace where
  /-- the files by name -/
  files : Table FileState

namespace Workspace

/-- Nothing loaded. -/
def empty : Workspace := ⟨.empty⟩

instance : Inhabited Workspace := ⟨empty⟩

/-- The file of this name. -/
def file? (w : Workspace) (file : String) : Option FileState := w.files.get? file

/-- A session of a file. -/
def session? (w : Workspace) (file session : String) : Option Session :=
  (w.file? file).bind fun f => f.book.get? session

/-- A node of a file. -/
def node? (w : Workspace) (file : String) (node : NodeId) : Option Node :=
  (w.file? file).bind fun f => f.graph.node? node

/-- The workspace with a file put under a name. -/
def setFile (w : Workspace) (file : String) (f : FileState) : Workspace :=
  ⟨w.files.insert file f⟩

/-- Loads a file with its sessions in the place of any of its name. -/
def insertFile (w : Workspace) (file : String) (g : Graph) (b : Book) : Workspace :=
  w.setFile file (.load g b)

/-- The workspace without a file. -/
def removeFile (w : Workspace) (file : String) : Workspace := ⟨w.files.erase file⟩

/-- Changes a file, if it is loaded, and gives something back; `default` if it is not. -/
def update {α : Type} (w : Workspace) (file : String) (default : α)
    (f : FileState → α × FileState) : α × Workspace :=
  match w.file? file with
  | some state => ((f state).1, w.setFile file (f state).2)
  | none => (default, w)

/-- Changes a file, if it is loaded and the change applies. -/
def update? {α : Type} (w : Workspace) (file : String)
    (f : FileState → Option (α × FileState)) : Option (α × Workspace) :=
  (w.file? file).bind fun state => (f state).map fun (a, state) => (a, w.setFile file state)

/-! ### Sessions -/

/-- Starts an empty session. -/
def startSession (w : Workspace) (file name : String) (now : Instant) :
    Except Fault (Session × Workspace) :=
  match w.file? file with
  | none => .error (.fileNotFound file)
  | some f => (f.book.start file name now).map fun (s, book) => (s, w.setFile file { f with book })

/-- Deletes a session with its edges. -/
def removeSession? (w : Workspace) (file name : String) : Option (Session × Workspace) :=
  w.update? file fun f => f.removeSession? name

/-- The state a run of a node in a session starts from. -/
def prior? (w : Workspace) (file session : String) (node : NodeId) : Option Snapshot :=
  (w.file? file).bind fun f => f.prior? session node

/-- Records what a run of a node gave. Gives the execution and the session's new state. -/
def commit? (w : Workspace) (file session : String) (node : NodeId) (r : RunResult)
    (now : Instant) : Option ((Execution × Snapshot) × Workspace) :=
  w.update? file fun f => (f.commit? session node r now).map fun (e, state, f) => ((e, state), f)

/-- Puts a session run anew in the place of the one of its name. -/
def commitReplay? (w : Workspace) (file : String) (scratch : Session) : Option Workspace :=
  (w.update? file fun f => (f.commitReplay? scratch).map ((), ·)).map Prod.snd

/-! ### Nodes and edges -/

/-- Deletes a node; gives the names of the sessions that ran it. -/
def removeNode (w : Workspace) (file : String) (node : NodeId) (now : Instant) :
    List String × Workspace :=
  w.update file [] fun f => f.removeNode node now

/-- Deletes an edge. -/
def removeEdge (w : Workspace) (file : String) (id : EdgeId) (now : Instant) :
    Option Removal × Workspace :=
  w.update file none fun f => f.removeEdge id now

/-- Finds the derived edges of a file anew; gives how many there are. -/
def refresh (w : Workspace) (file : String) : Option Relations.Summary × Workspace :=
  w.update file none fun f => (some f.graph.refreshSummary, f.refresh)

/-- The execution tree of a file. -/
def tree? (w : Workspace) (file : String) : Option Tree := (w.file? file).map FileState.tree

/-! ### The code of a node -/

/-- References to all sessions. -/
def refs (w : Workspace) : List SessionRef :=
  w.files.entries.flatMap fun (file, f) => f.book.names.map fun session => ⟨file, session⟩

theorem mem_refs_of_session? {w : Workspace} {r : SessionRef} {s : Session}
    (h : w.session? r.file r.session = some s) : r ∈ w.refs := by
  simp only [session?, file?, Table.get?, Fields.get?, Option.bind_eq_some_iff,
    Option.map_eq_some_iff] at h
  obtain ⟨f, ⟨entry, hentry, rfl⟩, hs⟩ := h
  have hmem := List.mem_of_find?_eq_some hentry
  have hfile := List.find?_some hentry
  have hsmem := List.mem_of_find?_eq_some hs
  have hname := List.find?_some hs
  simp only [decide_eq_true_eq] at hfile hname
  refine List.mem_flatMap.mpr ⟨entry, hmem, List.mem_map.mpr ⟨r.session, ?_, ?_⟩⟩
  · exact List.mem_map.mpr ⟨s, hsmem, hname⟩
  · rw [hfile]

/-- The references to sessions that are not open. -/
def unopened (w : Workspace) (opened : List SessionRef) : List SessionRef :=
  w.refs.filter fun r => !opened.contains r

theorem unopened_lt {w : Workspace} {opened : List SessionRef} {r : SessionRef} {s : Session}
    (hopen : opened.contains r = false) (h : w.session? r.file r.session = some s) :
    (w.unopened (r :: opened)).length < (w.unopened opened).length := by
  have hr : r ∈ w.unopened opened := List.mem_filter.mpr ⟨mem_refs_of_session? h, by simpa using hopen⟩
  have hsub : w.unopened (r :: opened) = (w.unopened opened).filter fun x => x ≠ r := by
    simp only [unopened, List.filter_filter]
    congr 1
    funext x
    by_cases hx : x = r <;> simp [hx]
  rw [hsub]
  exact List.length_filter_lt_length_iff_exists.mpr ⟨r, hr, by simp⟩

/-- The code that running a node means: its own, or for a graph node that of every step of the
session it refers to. References to a session that is open already, or to none, mean nothing. -/
def expand (w : Workspace) (opened : List SessionRef) (file : String) (node : NodeId) :
    List String :=
  match w.node? file node with
  | none => []
  | some n =>
    match n.graph with
    | none => n.executionCode.toList
    | some ref =>
      if _hopen : opened.contains ref then []
      else
        match _h : w.session? ref.file ref.session with
        | none => []
        | some s => s.path.flatMap fun step => expand w (ref :: opened) ref.file step
termination_by (w.unopened opened).length
decreasing_by exact unopened_lt (by simpa using _hopen) _h

/-- The code that running a node means, unless there is none. -/
def steps? (w : Workspace) (file : String) (node : NodeId) : Option (List String) :=
  match w.expand [] file node with
  | [] => none
  | codes => some codes

end Workspace

end Runbook
