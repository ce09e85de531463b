import Mathlib.Data.List.Find
import Runbook.Proofs.Expansion
import Runbook.Proofs.LiveRuns
import Runbook.Proofs.Presence
import Runbook.Proofs.SavedApart

/-!
# Worlds that are alike to a session

Whatever a call on a session reads of a file is the session, its steps, and the nodes. Two files
that have these in common answer such a call alike, and have them in common afterwards; and calls
on other sessions leave them. So for whole worlds, in which just the same is stored for the session.

* `FileState.InStep.removeEdge_edgeId`: what deleting a step does, told by the session alone
* `FileState.Alike`: two files that are alike to a session
* `FileState.Alike.onFile`, `FileState.Alike.onFile_left`: kept by an update that is about the
  session in both files, and by one that is not in the first
* `World.Stores`: what a call on certain sessions stores
* `World.Alike`: two worlds that are alike to a session
* `World.Alike.start`, `World.Alike.commit`, …: the same change gives the same in both
* `World.Alike.left`: what is done to other sessions in the first makes no difference
-/

namespace Runbook

/-! ## Steps by their names -/

/-- A step is to be looked for only among those of its session. -/
theorem InStep.find?_edgeId {sessions : List Session} {es : List Edge} (h : InStep sessions es)
    (name : String) (position : Nat) :
    es.find? (fun e => e.id = Session.edgeId name position) =
      (Session.stepsIn name es).find? fun e => e.id = Session.edgeId name position := by
  rw [Session.stepsIn, List.find?_filter]
  refine List.find?_congr fun e he => decide_eq_decide.mpr ⟨fun hid => ?_, fun hid => ?_⟩
  · exact ⟨(h.step_of_id_eq he hid).1, decide_eq_true hid⟩
  · exact of_decide_eq_true hid.2

/-- Whether an update is none that deletes a node. -/
def Update.KeepsNodes : Update → Prop
  | removeNode _ _ => False
  | _ => True

theorem Update.keepsNodes_of_not_isAbout {u : Update} {name : String} (hu : ¬ u.IsAbout name) :
    u.KeepsNodes := by
  cases u with
  | removeNode node now => exact hu trivial
  | _ => trivial

namespace FileState

variable {f : FileState}

/-- The steps of a session are its chain, and there are none without it. -/
theorem InStep.stepsIn_eq (h : f.InStep) (name : String) :
    Session.stepsIn name f.graph.edges =
      match f.book.get? name with
      | some s => s.edges
      | none => [] := by
  cases hs : f.book.get? name with
  | some s =>
    obtain ⟨rfl, -⟩ := Book.exists_split hs
    exact h.chains s (List.mem_of_find?_eq_some hs)
  | none =>
    refine List.filter_eq_nil_iff.mpr fun e he hown => ?_
    have hthere := Book.contains_iff.mpr (h.owned e he name hown)
    rw [Book.contains, hs] at hthere
    cases hthere

/-- A step that can be taken out of a session has its edge. -/
theorem InStep.edge?_ne_none (h : f.InStep) {s : Session} {position : Nat} {now : Instant}
    {p : Execution × Session} (hs : f.book.get? s.id = some s)
    (hat : s.removeAt? position now = some p) :
    f.graph.edge? (Session.edgeId s.id position) ≠ none := by
  obtain ⟨hpos, hx, -⟩ := Session.removeAt?_eq_some.mp hat
  have hlt : position - 1 < s.length := (List.getElem?_eq_some_iff.mp hx).1
  obtain ⟨e, he, hid⟩ := Session.exists_mem_edges hpos (s := s) (by omega)
  rw [← h.chains s (List.mem_of_find?_eq_some hs)] at he
  intro hnone
  rw [Graph.edge?, Graph.findEdge?, List.find?_eq_none] at hnone
  exact hnone e (Session.mem_stepsIn.mp he).1 (decide_eq_true hid)

/-- Deleting a step takes the execution at its position out of the session, if there is one. -/
theorem InStep.removeEdge_edgeId (h : f.InStep) (name : String) (position : Nat) (now : Instant) :
    (f.removeEdge (Session.edgeId name position) now).1 =
        ((f.book.get? name).bind fun s => s.removeAt? position now).map
          (fun p => .execution name p.1) ∧
      (f.removeEdge (Session.edgeId name position) now).2.book.get? name =
        (f.book.get? name).map fun s => ((s.removeAt? position now).map Prod.snd).getD s := by
  cases hedge : f.graph.edge? (Session.edgeId name position) with
  | none =>
    rw [FileState.removeEdge]
    simp only [hedge]
    cases hs : f.book.get? name with
    | none => exact ⟨rfl, rfl⟩
    | some s =>
      obtain ⟨rfl, -⟩ := Book.exists_split hs
      have hat : s.removeAt? position now = none := by
        cases hat : s.removeAt? position now with
        | none => rfl
        | some p => exact absurd hedge (h.edge?_ne_none hs hat)
      rw [Option.bind_some, Option.map_some, hat]
      exact ⟨rfl, rfl⟩
  | some e =>
    -- the edge is the step of that name, so the session is there
    have hmem : e ∈ f.graph.edges := List.mem_of_find?_eq_some hedge
    have hid : e.id = Session.edgeId name position := by simpa using List.find?_some hedge
    obtain ⟨hown, hstep⟩ := InStep.step_of_id_eq h hmem hid
    have hkind : e.kind.session? = some name := by
      rw [Session.isExecutionOf_iff.mp hown]
      rfl
    obtain ⟨s, hs⟩ := Option.isSome_iff_exists.mp
      (Book.contains_iff.mpr (h.owned e hmem name hown) : f.book.contains name = true)
    obtain ⟨rfl, -⟩ := Book.exists_split hs
    have hfind : f.graph.edges.find? (fun e => e.id = Session.edgeId s.id position) = some e :=
      hedge
    rw [FileState.removeEdge]
    simp only [hedge, hkind, hs, Option.bind_some, Option.map_some]
    cases hat : s.removeAt? position now with
    | none =>
      have hremove : s.removeStep (Session.edgeId s.id position) now f.graph.edges =
          (.ok none, f.graph.edges, s) := by
        rw [Session.removeStep, hfind]
        simp only [hown, if_true, hstep, Option.bind_some, hat]
      rw [hremove]
      exact ⟨rfl, hs⟩
    | some p =>
      have hremove := Session.removeStep_edgeId (h.addressed s) ⟨e, hmem, hid⟩ hat
      rw [hremove]
      refine ⟨rfl, ?_⟩
      rw [Book.get?_refreshPrimary]
      exact Book.get?_replace_self hs (Session.id_rest hat)

/-- An update that deletes no node leaves the nodes. -/
theorem nodes_onFile {u : Update} (hu : u.KeepsNodes) (file : String) (f : FileState) :
    (u.onFile file f).graph.nodes = f.graph.nodes := by
  cases u with
  | start name now =>
    rw [Update.onFile]
    split <;> rfl
  | commit session node r now =>
    rw [Update.onFile]
    cases hcommit : f.commit? session node r now with
    | none => rfl
    | some p =>
      obtain ⟨s, -, -, -, heq⟩ := commit?_eq_some hcommit
      rw [Option.map_some, Option.getD_some, heq]
  | commitReplay scratch =>
    rw [Update.onFile]
    cases hcommit : f.commitReplay? scratch with
    | none => rfl
    | some f' =>
      obtain ⟨-, -, rfl⟩ := commitReplay?_eq_some hcommit
      rfl
  | removeEdge id now =>
    rw [Update.onFile]
    rcases f.removeEdge_cases id now with heq | ⟨_, _, -, -, heq⟩ |
      ⟨_, _, _, _, rest, -, -, -, -, heq⟩
    · rw [heq]
    · rw [heq]
      rfl
    · rw [heq]
  | removeNode node now => exact hu.elim
  | removeSession name =>
    rw [Update.onFile]
    cases hremove : f.removeSession? name with
    | none => rfl
    | some p =>
      obtain ⟨q, -, rfl⟩ := Option.map_eq_some_iff.mp hremove
      rfl
  | refresh => rfl

/-- A file just loaded has the nodes of its graph, and the start. -/
theorem mem_nodes_load {g : Graph} {b : Book} {n : Node} (h : n ∈ (load g b).graph.nodes) :
    n ∈ g.nodes ∨ n = .start := by
  have hnodes : (load g b).graph.nodes =
      (if g.hasNode startId then g else g.upsertNode .start).nodes := rfl
  rw [hnodes] at h
  split at h
  · exact .inl h
  · have hnot : g.hasNode Node.start.id = false := Bool.eq_false_iff.mpr ‹_›
    rw [Graph.nodes_upsertNode_of_not hnot] at h
    exact (List.mem_append.mp h).imp_right List.mem_singleton.mp

/-! ## Files -/

/-- Two files have in common all that a call on a session reads. -/
structure Alike (name : String) (f f' : FileState) : Prop where
  /-- the edges of the first are in step with its sessions -/
  inStep : f.InStep
  /-- so are those of the second -/
  inStep' : f'.InStep
  /-- the session is the same -/
  get? : f'.book.get? name = f.book.get? name
  /-- the nodes are the same -/
  nodes : f'.graph.nodes = f.graph.nodes

namespace Alike

variable {name : String} {f' : FileState}

theorem hasNode (h : Alike name f f') (node : NodeId) :
    f'.graph.hasNode node = f.graph.hasNode node := by
  rw [Graph.hasNode, Graph.node?, h.nodes, Graph.hasNode, Graph.node?]

theorem stepsIn (h : Alike name f f') :
    Session.stepsIn name f'.graph.edges = Session.stepsIn name f.graph.edges := by
  rw [h.inStep.stepsIn_eq, h.inStep'.stepsIn_eq, h.get?]

/-- If an edge is named as a step of no other session, it is a step of the same session in both
files, or in neither of any. -/
theorem owner_eq (h : Alike name f f') {id : EdgeId}
    (hid : ∀ session position, id = Session.edgeId session position → session = name) :
    ((f'.graph.edge? id).bind fun e => e.kind.session?) =
      (f.graph.edge? id).bind fun e => e.kind.session? := by
  by_cases hnamed : ∃ position, id = Session.edgeId name position
  · obtain ⟨position, rfl⟩ := hnamed
    rw [Graph.edge?, Graph.findEdge?, InStep.find?_edgeId h.inStep', h.stepsIn,
      ← InStep.find?_edgeId h.inStep]
    rfl
  · have hnone : ∀ {f : FileState}, f.InStep →
        ((f.graph.edge? id).bind fun e => e.kind.session?) = none := by
      intro f hf
      rw [Option.bind_eq_none_iff]
      intro e hedge
      have hname : e.id = id := by simpa using List.find?_some hedge
      cases hkind : e.kind.session? with
      | none => rfl
      | some owner =>
        obtain ⟨s, -, rfl, hmem⟩ := hf.mem_edges_of_isExecutionOf
          (List.mem_of_find?_eq_some hedge) (Session.isExecutionOf_of_session? hkind)
        obtain ⟨i, source, target, -, -, -, -, rfl⟩ := Session.mem_edges hmem
        have hown : s.id = name := hid s.id i hname.symm
        exact absurd ⟨i, hown ▸ hname.symm⟩ hnamed
    rw [hnone h.inStep, hnone h.inStep']

theorem contains (h : Alike name f f') : f'.book.contains name = f.book.contains name := by
  rw [Book.contains, h.get?, Book.contains]

/-- The same update of both files keeps them alike, if it makes the same of the session. -/
theorem onFile (h : Alike name f f') {u : Update} (hu : u.KeepsNodes) (file : String)
    (hget : (u.onFile file f').book.get? name = (u.onFile file f).book.get? name) :
    Alike name (u.onFile file f) (u.onFile file f') where
  inStep := u.inStep_onFile file h.inStep
  inStep' := u.inStep_onFile file h.inStep'
  get? := hget
  nodes := by rw [nodes_onFile hu, nodes_onFile hu, h.nodes]

/-- An update of the first file alone keeps them alike, if it is not about the session. -/
theorem onFile_left (h : Alike name f f') {u : Update} (hu : ¬ u.IsAbout name) (file : String)
    (hdrawn : Session.Drawn f.graph.edges) : Alike name (u.onFile file f) f' where
  inStep := u.inStep_onFile file h.inStep
  inStep' := h.inStep'
  get? := by rw [Update.get?_onFile file (fun _ _ _ => hdrawn) hu, h.get?]
  nodes := by rw [nodes_onFile (Update.keepsNodes_of_not_isAbout hu), h.nodes]

/-! ### The same update of both -/

theorem start (h : Alike name f f') (file : String) (now : Instant) :
    Alike name ((Update.start name now).onFile file f)
      ((Update.start name now).onFile file f') := by
  refine h.onFile (u := .start name now) trivial file ?_
  rw [Update.onFile, Update.onFile, Book.start, Book.start, h.contains]
  by_cases htaken : f.book.contains name = true
  · rw [if_pos htaken, if_pos htaken]
    exact h.get?
  · have hfree : f.book.get? name = none := Option.not_isSome_iff_eq_none.mp htaken
    rw [if_neg htaken, if_neg htaken]
    exact (f'.get?_withSession (h.get?.trans hfree) now).trans (f.get?_withSession hfree now).symm

theorem commit (h : Alike name f f') (file : String) (node : NodeId) (r : RunResult)
    (now : Instant) : Alike name ((Update.commit name node r now).onFile file f)
      ((Update.commit name node r now).onFile file f') := by
  refine h.onFile (u := .commit name node r now) trivial file ?_
  rw [Update.onFile, Update.onFile]
  by_cases hnode : f.graph.hasNode node = true
  · have hnode' := (h.hasNode node).trans hnode
    cases hs : f.book.get? name with
    | none =>
      rw [commit?, commit?, if_pos hnode, if_pos hnode', h.get?, hs]
      exact h.get?
    | some s =>
      have hs' := h.get?.trans hs
      rw [commit?_eq hnode hs, commit?_eq hnode' hs']
      exact (get?_withStep hs' _ _).trans (get?_withStep hs _ _).symm
  · rw [commit?, commit?, if_neg hnode, if_neg (h.hasNode node ▸ hnode)]
    exact h.get?

theorem commitReplay (h : Alike name f f') (file : String) {scratch : Session}
    (hid : scratch.id = name) : Alike name ((Update.commitReplay scratch).onFile file f)
      ((Update.commitReplay scratch).onFile file f') := by
  subst hid
  refine h.onFile (u := .commitReplay scratch) trivial file ?_
  have hnodes : scratch.path.all f'.graph.hasNode = scratch.path.all f.graph.hasNode :=
    congrArg scratch.path.all (funext h.hasNode)
  rw [Update.onFile, Update.onFile, commitReplay?, commitReplay?, hnodes, h.contains]
  split
  · rename_i hall
    obtain ⟨s, hs⟩ := Option.isSome_iff_exists.mp (Bool.and_eq_true _ _ ▸ hall).2
    simp only [Option.getD_some, Book.get?_setPrimary]
    rw [Book.get?_replace_self hs rfl, Book.get?_replace_self (h.get?.trans hs) rfl]
  · exact h.get?

theorem removeEdge (h : Alike name f f') (file : String) (position : Nat) (now : Instant) :
    Alike name ((Update.removeEdge (Session.edgeId name position) now).onFile file f)
      ((Update.removeEdge (Session.edgeId name position) now).onFile file f') := by
  refine h.onFile (u := .removeEdge (Session.edgeId name position) now) trivial file ?_
  rw [Update.onFile, Update.onFile, (h.inStep.removeEdge_edgeId name position now).2,
    (h.inStep'.removeEdge_edgeId name position now).2, h.get?]

end Alike

end FileState

/-! ## Worlds -/

namespace World

variable {l : Ledger} {file : String} {w : World} {f : FileState}

theorem start_eq (l : Ledger) (name : String) (hf : w.workspace.file? file = some f) :
    w.start l file name =
      if f.book.contains name then (.error (.duplicateSession file name), w)
      else (.ok (.new name w.now), World.persist l file name .empty
        (w.withWorkspace (w.workspace.setFile file (f.withSession name w.now)))) := by
  rw [start, Workspace.startSession, hf]
  simp only [Book.start]
  by_cases htaken : f.book.contains name = true
  · rw [if_pos htaken, if_pos htaken]
    rfl
  · rw [if_neg htaken, if_neg htaken]
    rfl

theorem commit_eq_none (l : Ledger) {session : String} {node : NodeId} (r : RunResult)
    (hf : w.workspace.file? file = some f)
    (h : f.graph.hasNode node = true → f.book.get? session = none) :
    w.commit l file session node r = (none, w) := by
  rw [commit, Workspace.commit?, Workspace.update?, hf, Option.bind_some, FileState.commit?]
  by_cases hnode : f.graph.hasNode node = true
  · rw [if_pos hnode, h hnode]
    rfl
  · rw [if_neg hnode]
    rfl

theorem commitReplay_of_file (l : Ledger) (scratch : Session)
    (hf : w.workspace.file? file = some f) : w.commitReplay l file scratch =
      match f.commitReplay? scratch with
      | some f => (scratch.length, World.persist l file scratch.id scratch.overall
          { w with workspace := w.workspace.setFile file f })
      | none => (0, w) := by
  rw [commitReplay, Workspace.commitReplay?, Workspace.update?, hf, Option.bind_some]
  cases f.commitReplay? scratch <;> rfl

theorem removeEdge_of_file (id : EdgeId) (hf : w.workspace.file? file = some f) :
    (w.removeEdge file id).1 = (f.removeEdge id w.now).1 := by
  rw [removeEdge, Workspace.removeEdge, Workspace.update, hf]

/-! ### What is stored -/

/-- At most one state is stored, and for such a session of the file. -/
def Stores (file : String) (p : String → Prop) (w v : World) : Prop :=
  v.store = w.store ∨
    ∃ session state, p session ∧ v.store = (w.store.save file session state).2

variable {p : String → Prop} {session : String}

theorem stores_persist (l : Ledger) (file : String) (hp : p session) (state : Snapshot)
    (w : World) :
    w.Stores file p (w.persist l file session state) := by
  rw [Stores, store_persist]
  split
  · exact .inr ⟨session, state, hp, rfl⟩
  · exact .inl rfl

theorem stores_start (l : Ledger) (file : String) (hp : p session) (w : World) :
    w.Stores file p (w.start l file session).2 := by
  rw [start]
  split
  · exact stores_persist l file hp _ (w.withWorkspace _)
  · exact .inl rfl

theorem stores_commit (l : Ledger) (file : String) (hp : p session) (node : NodeId)
    (r : RunResult) (w : World) :
    w.Stores file p (w.commit l file session node r).2 := by
  rw [commit]
  split
  · exact stores_persist l file hp _ (w.withWorkspace _)
  · exact .inl rfl

theorem stores_commitReplay (l : Ledger) (file : String) {scratch : Session} (hp : p scratch.id)
    (w : World) :
    w.Stores file p (w.commitReplay l file scratch).2 := by
  rw [commitReplay]
  split
  · exact stores_persist l file hp _ { w with workspace := _ }
  · exact .inl rfl

theorem stores_removeEdge (id : EdgeId) (w : World) : w.Stores file p (w.removeEdge file id).2 :=
  .inl rfl

theorem stores_persistSession (l : Ledger) (file : String) (hp : p session) (w : World) :
    w.Stores file p (w.persistSession l file session) := by
  rw [persistSession]
  split
  · exact stores_persist l file hp _ w
  · exact .inl rfl

/-! ### Two worlds -/

/-- Two worlds have in common all that a call on a session of a file reads, and what is stored for
the session: in both, states were stored in an initial store, in the second those for the session
only. No node refers to another session. -/
structure Alike (file name : String) (st : Store) (w w' : World) : Prop where
  /-- the file is there in both, and is alike to the session -/
  there : ∃ f f', w.workspace.file? file = some f ∧ w'.workspace.file? file = some f' ∧
    FileState.Alike name f f' ∧ ∀ n ∈ f.graph.nodes, n.graph = none
  /-- what was stored -/
  saves : ∃ saves, w.store = st.saveAll saves ∧
    w'.store = st.saveAll (saves.filter fun save => save.1 = (file, name))

namespace Alike

variable {file name : String} {st : Store} {w w' : World}

/-- A world in which the file was just loaded is alike to itself, if no node of the file refers to
another session, no two of its sessions share a name and no edge of another kind is named like a
step. -/
theorem of_load {g : Graph} {b : Book} (hnames : b.names.Nodup)
    (hgraph : ∀ n ∈ g.nodes, n.graph = none)
    (hreserved : ∀ e ∈ g.edges, e.isExecution = false →
      ∀ session position, e.id ≠ Session.edgeId session position)
    (hf : w.workspace.file? file = some (.load g b)) (name : String) :
    Alike file name w.store w w where
  there := by
    have hstep : (FileState.load g b).InStep := FileState.inStep_load hnames hreserved
    refine ⟨_, _, hf, hf, ⟨hstep, hstep, rfl, rfl⟩, fun n hn => ?_⟩
    rcases FileState.mem_nodes_load hn with hmem | rfl
    · exact hgraph n hmem
    · rfl
  saves := ⟨[], rfl, rfl⟩

/-! ### Looks -/

theorem session? (h : Alike file name st w w') :
    w'.workspace.session? file name = w.workspace.session? file name := by
  obtain ⟨f, f', hf, hf', halike, -⟩ := h.there
  rw [Workspace.session?, Workspace.session?, hf, hf']
  exact halike.get?

theorem sessionOr (h : Alike file name st w w') :
    w'.sessionOr file name = w.sessionOr file name := by
  rw [World.sessionOr, World.sessionOr, h.session?]

theorem stepsOf (h : Alike file name st w w') :
    w'.workspace.stepsOf file name = w.workspace.stepsOf file name := by
  obtain ⟨f, f', hf, hf', halike, -⟩ := h.there
  rw [Workspace.stepsOf, Workspace.stepsOf, hf, hf']
  exact halike.stepsIn

theorem prior? (h : Alike file name st w w') (node : NodeId) :
    w'.workspace.prior? file name node = w.workspace.prior? file name node := by
  obtain ⟨f, f', hf, hf', halike, -⟩ := h.there
  rw [Workspace.prior?, Workspace.prior?, hf, hf', Option.bind_some, Option.bind_some,
    FileState.prior?, FileState.prior?, halike.hasNode, halike.get?]

/-- As no node refers to another session, each means its own code. -/
theorem steps? (h : Alike file name st w w') (node : NodeId) :
    w'.workspace.steps? file node = w.workspace.steps? file node := by
  obtain ⟨f, f', hf, hf', halike, hplain⟩ := h.there
  have hnode : w.workspace.node? file node = f.graph.node? node := by
    rw [Workspace.node?, hf, Option.bind_some]
  have hnode' : w'.workspace.node? file node = f.graph.node? node := by
    rw [Workspace.node?, hf', Option.bind_some, Graph.node?, halike.nodes, Graph.node?]
  rw [Workspace.steps?, Workspace.steps?]
  cases hn : f.graph.node? node with
  | none =>
    rw [Workspace.expand_of_none (hnode.trans hn), Workspace.expand_of_none (hnode'.trans hn)]
  | some n =>
    have hgraph := hplain n (List.mem_of_find?_eq_some hn)
    rw [Workspace.expand_of_code (hnode.trans hn) hgraph,
      Workspace.expand_of_code (hnode'.trans hn) hgraph]

theorem owner? (h : Alike file name st w w') {id : EdgeId}
    (hid : ∀ session position, id = Session.edgeId session position → session = name) :
    w'.owner? file id = w.owner? file id := by
  obtain ⟨f, f', hf, hf', halike, -⟩ := h.there
  rw [World.owner?, World.owner?, hf, hf', Option.bind_some, Option.bind_some, halike.owner_eq hid]

theorem load (h : Alike file name st w w') (htidy : st.Tidy) :
    w'.store.load file name = w.store.load file name := by
  obtain ⟨saves, hstore, hstore'⟩ := h.saves
  rw [hstore, hstore', Store.load_saveAll_filter htidy]

/-! ### Changes -/

/-- Only the workspace and the store count. -/
theorem congr (h : Alike file name st w w') {v v' : World} (hw : v.workspace = w.workspace)
    (hw' : v'.workspace = w'.workspace) (hst : v.store = w.store) (hst' : v'.store = w'.store) :
    Alike file name st v v' where
  there := by
    rw [hw, hw']
    exact h.there
  saves := by
    rw [hst, hst']
    exact h.saves

/-- The same update of both worlds, with nothing stored. -/
theorem update (h : Alike file name st w w') {u : Update} (hu : u.KeepsNodes)
    (hkeep : ∀ {f f' : FileState}, FileState.Alike name f f' →
      FileState.Alike name (u.onFile file f) (u.onFile file f'))
    {v v' : World} (hw : v.workspace = u.apply file w.workspace)
    (hw' : v'.workspace = u.apply file w'.workspace) (hst : v.store = w.store)
    (hst' : v'.store = w'.store) : Alike file name st v v' where
  there := by
    obtain ⟨f, f', hf, hf', halike, hplain⟩ := h.there
    refine ⟨u.onFile file f, u.onFile file f', ?_, ?_, hkeep halike, ?_⟩
    · rw [hw, Update.file?_apply, hf, Option.map_some]
    · rw [hw', Update.file?_apply, hf', Option.map_some]
    · rw [FileState.nodes_onFile hu]
      exact hplain
  saves := by
    rw [hst, hst']
    exact h.saves

theorem persist (h : Alike file name st w w') (l : Ledger) (state : Snapshot) :
    Alike file name st (w.persist l file name state) (w'.persist l file name state) where
  there := by
    rw [workspace_persist, workspace_persist]
    exact h.there
  saves := by
    obtain ⟨saves, hstore, hstore'⟩ := h.saves
    rw [store_persist, store_persist]
    split
    · refine ⟨saves ++ [((file, name), state)], ?_, ?_⟩
      · rw [hstore, Store.saveAll_concat]
      · rw [hstore', List.filter_append, List.filter_cons, if_pos (decide_eq_true rfl),
          List.filter_nil, Store.saveAll_concat]
    · exact h.saves

/-- The session is started in both worlds, or in neither. -/
theorem start (h : Alike file name st w w') (hnow : w'.now = w.now) (l : Ledger) :
    ∃ outcome v v', w.start l file name = (outcome, v) ∧ w'.start l file name = (outcome, v') ∧
      Alike file name st v v' := by
  obtain ⟨f, f', hf, hf', halike, -⟩ := h.there
  have hworkspace := workspace_start l file name w
  have hworkspace' := workspace_start l file name w'
  rw [start_eq l name hf] at hworkspace ⊢
  rw [start_eq l name hf', halike.contains, hnow] at hworkspace' ⊢
  by_cases htaken : f.book.contains name = true
  · rw [if_pos htaken, if_pos htaken]
    exact ⟨_, _, _, rfl, rfl, h⟩
  · rw [if_neg htaken, workspace_persist] at hworkspace hworkspace'
    rw [if_neg htaken, if_neg htaken]
    refine ⟨_, _, _, rfl, rfl, Alike.persist ?_ l _⟩
    exact Alike.update (u := .start name w.now) h trivial (fun halike => halike.start file _)
      hworkspace hworkspace' rfl rfl

/-- A step is recorded in both worlds, or in neither. -/
theorem commit (h : Alike file name st w w') (hnow : w'.now = w.now) (l : Ledger) (node : NodeId)
    (r : RunResult) : ∃ e v v', w.commit l file name node r = (e, v) ∧
      w'.commit l file name node r = (e, v') ∧ Alike file name st v v' := by
  obtain ⟨f, f', hf, hf', halike, -⟩ := h.there
  by_cases hthere : f.graph.hasNode node = true ∧ f.book.get? name ≠ none
  · obtain ⟨hnode, hsome⟩ := hthere
    obtain ⟨s, hs⟩ := Option.ne_none_iff_exists'.mp hsome
    have hworkspace := workspace_commit l file name node r w
    have hworkspace' := workspace_commit l file name node r w'
    have hcommit := commit_eq l hf hnode hs r
    have hcommit' := commit_eq l hf' ((halike.hasNode node).trans hnode) (halike.get?.trans hs) r
    rw [hcommit, workspace_persist] at hworkspace
    rw [hnow] at hcommit' hworkspace'
    rw [hcommit', workspace_persist] at hworkspace'
    refine ⟨_, _, _, hcommit, hcommit', Alike.persist ?_ l _⟩
    exact Alike.update (u := .commit name node r w.now) h trivial
      (fun halike => halike.commit file node r _) hworkspace hworkspace' rfl rfl
  · have hmissing : f.graph.hasNode node = true → f.book.get? name = none :=
      fun hnode => by_contra fun hs => hthere ⟨hnode, hs⟩
    refine ⟨_, _, _, commit_eq_none l r hf hmissing, commit_eq_none l r hf' fun hnode => ?_, h⟩
    exact halike.get?.trans (hmissing ((halike.hasNode node).symm.trans hnode))

/-- A session run anew is put in place in both worlds, or in neither. -/
theorem commitReplay (h : Alike file name st w w') (l : Ledger) {scratch : Session}
    (hid : scratch.id = name) : ∃ n v v', w.commitReplay l file scratch = (n, v) ∧
      w'.commitReplay l file scratch = (n, v') ∧ Alike file name st v v' := by
  obtain ⟨f, f', hf, hf', halike, -⟩ := h.there
  have hworkspace := workspace_commitReplay l file scratch w
  have hworkspace' := workspace_commitReplay l file scratch w'
  have hcond : (f'.commitReplay? scratch).isSome = (f.commitReplay? scratch).isSome := by
    have hnodes : scratch.path.all f'.graph.hasNode = scratch.path.all f.graph.hasNode :=
      congrArg scratch.path.all (funext halike.hasNode)
    rw [FileState.commitReplay?, FileState.commitReplay?, hnodes, hid, halike.contains]
    split <;> rfl
  rw [commitReplay_of_file l scratch hf] at hworkspace ⊢
  rw [commitReplay_of_file l scratch hf'] at hworkspace' ⊢
  cases hcommit : f.commitReplay? scratch with
  | none =>
    rw [hcommit, Option.isSome_none, Option.isSome_eq_false_iff, Option.isNone_iff_eq_none] at hcond
    rw [hcond]
    exact ⟨_, _, _, rfl, rfl, h⟩
  | some g =>
    rw [hcommit, Option.isSome_some] at hcond
    obtain ⟨g', hcommit'⟩ := Option.isSome_iff_exists.mp hcond
    rw [hcommit, workspace_persist] at hworkspace
    rw [hcommit', workspace_persist] at hworkspace'
    rw [hcommit']
    refine ⟨_, _, _, rfl, rfl, ?_⟩
    rw [hid]
    exact (Alike.update (u := .commitReplay scratch) h trivial
      (fun halike => halike.commitReplay file hid) hworkspace hworkspace' rfl rfl).persist l _

/-- The same step is taken out of the session in both worlds. -/
theorem removeEdge (h : Alike file name st w w') (hnow : w'.now = w.now) (position : Nat) :
    ∃ removal v v', w.removeEdge file (Session.edgeId name position) = (removal, v) ∧
      w'.removeEdge file (Session.edgeId name position) = (removal, v') ∧
      Alike file name st v v' := by
  obtain ⟨f, f', hf, hf', halike, -⟩ := h.there
  have hremoval : (w'.removeEdge file (Session.edgeId name position)).1 =
      (w.removeEdge file (Session.edgeId name position)).1 := by
    rw [removeEdge_of_file _ hf, removeEdge_of_file _ hf', hnow,
      (halike.inStep.removeEdge_edgeId ..).1, (halike.inStep'.removeEdge_edgeId ..).1, halike.get?]
  refine ⟨(w.removeEdge file (Session.edgeId name position)).1,
    (w.removeEdge file (Session.edgeId name position)).2,
    (w'.removeEdge file (Session.edgeId name position)).2, rfl, Prod.ext hremoval rfl, ?_⟩
  refine Alike.update (u := .removeEdge (Session.edgeId name position) w.now) h trivial
    (fun halike => halike.removeEdge file position _) rfl ?_ rfl rfl
  rw [workspace_removeEdge, hnow]

/-- The state of the session is stored in both worlds, or in neither. -/
theorem persistSession (h : Alike file name st w w') (l : Ledger) :
    Alike file name st (w.persistSession l file name) (w'.persistSession l file name) := by
  rw [World.persistSession, World.persistSession, h.session?]
  split
  · exact h.persist l _
  · exact h

/-- What is done to other sessions in the first world alone makes no difference. -/
theorem left (h : Alike file name st w w') {v : World} {other : String} {p : String → Prop}
    (hp : other = file → ¬ p name) (hdrawn : w.workspace.Drawn)
    (hw : v.workspace = w.workspace ∨ ∃ u : Update, (∀ session, u.IsAbout session → p session) ∧
      v.workspace = u.apply other w.workspace)
    (hst : w.Stores other p v) : Alike file name st v w' where
  there := by
    rcases hw with hsame | ⟨u, hu, happly⟩
    · rw [hsame]
      exact h.there
    · obtain ⟨f, f', hf, hf', halike, hplain⟩ := h.there
      by_cases hfile : other = file
      · subst hfile
        have habout : ¬ u.IsAbout name := fun habout => hp rfl (hu name habout)
        refine ⟨u.onFile other f, f', ?_, hf', halike.onFile_left habout other (hdrawn _ f hf), ?_⟩
        · rw [happly, Update.file?_apply, hf, Option.map_some]
        · rw [FileState.nodes_onFile (Update.keepsNodes_of_not_isAbout habout)]
          exact hplain
      · refine ⟨f, f', ?_, hf', halike, hplain⟩
        rw [happly, Update.file?_apply_of_ne u w.workspace (Ne.symm hfile), hf]
  saves := by
    rcases hst with hsame | ⟨session, state, hsession, hsave⟩
    · rw [hsame]
      exact h.saves
    · obtain ⟨saves, hstore, hstore'⟩ := h.saves
      have hne : (other, session) ≠ (file, name) := by
        rintro ⟨⟩
        exact hp rfl hsession
      refine ⟨saves ++ [((other, session), state)], ?_, ?_⟩
      · rw [hsave, hstore, Store.saveAll_concat]
      · rw [hstore', List.filter_append, List.filter_cons,
          if_neg fun heq => hne (of_decide_eq_true heq), List.filter_nil, List.append_nil]

end Alike

end World

end Runbook
