import Runbook.Proofs.PathInvariant

/-!
# Updates

The indivisible changes that calls make to a workspace, in any order, on any files. Calls under
way together do nothing else to it, whatever their steps come between.

* `FileState.commit?_eq_some`, `FileState.removeEdge_cases`, …: all that changes of a file can do
* `Update`, `Update.apply`: the changes, by the functions of the workspace
* `Update.onFile`: what a change makes of the file it is about
* `FileState.InStep`: the edges of a file are in step with its sessions
* `Update.inStep_onFile`: every change keeps them in step
* `Workspace.after`: what a sequence of changes makes of a workspace
* `Workspace.chains_after`: from a file just loaded on, the steps of every session are its chain
-/

namespace Runbook

/-! ## Books and files -/

/-- Where the session of a name stands in a book. -/
theorem Book.exists_split {b : Book} {name : String} {s : Session} (h : b.get? name = some s) :
    s.id = name ∧ ∃ pre post, b.sessions = pre ++ s :: post ∧ (∀ t ∈ pre, t.id ≠ name) ∧
      (∀ t, replaceFirst name t b.sessions = pre ++ t :: post) ∧
      b.sessions.eraseP (fun t => t.id = name) = pre ++ post := by
  obtain ⟨hid, pre, post, hsplit, hpre⟩ := List.find?_eq_some_iff_append.mp h
  rw [decide_eq_true_eq] at hid
  have hreplace : ∀ (t : Session) (pre : List Session), (∀ u ∈ pre, u.id ≠ name) →
      replaceFirst name t (pre ++ s :: post) = pre ++ t :: post := by
    intro t pre hne
    induction pre with
    | nil => rw [List.nil_append, replaceFirst, if_pos hid, List.nil_append]
    | cons u rest ih =>
      rw [List.cons_append, replaceFirst, if_neg (hne u (List.mem_cons_self ..)),
        ih fun v hv => hne v (List.mem_cons_of_mem _ hv), List.cons_append]
  have hne : ∀ u ∈ pre, u.id ≠ name := fun u hu => by simpa using hpre u hu
  refine ⟨hid, pre, post, hsplit, hne, fun t => hsplit ▸ hreplace t pre hne, ?_⟩
  rw [hsplit, List.eraseP_append_right _ (fun u hu => by simpa using hne u hu),
    List.eraseP_cons_of_pos (by simpa using hid)]

theorem Book.contains_iff {b : Book} {name : String} :
    b.contains name = true ↔ name ∈ b.sessions.map Session.id := by
  rw [Book.contains, Book.get?, List.find?_isSome, List.mem_map]
  simp only [decide_eq_true_eq]

@[simp] theorem Book.sessions_setPrimary (b : Book) (name : String) :
    (b.setPrimary name).sessions = b.sessions := by
  rw [Book.setPrimary]
  split <;> rfl

@[simp] theorem Book.sessions_refreshPrimary (b : Book) :
    b.refreshPrimary.sessions = b.sessions := by
  rw [Book.refreshPrimary]
  split
  · rfl
  · split <;> rfl

@[simp] theorem Workspace.file?_setFile_self (w : Workspace) (file : String) (f : FileState) :
    (w.setFile file f).file? file = some f := w.files.get?_insert_self file f

theorem Workspace.file?_setFile_of_ne (w : Workspace) {file other : String} (f : FileState)
    (h : other ≠ file) : (w.setFile file f).file? other = w.file? other :=
  w.files.get?_insert_of_ne f h

/-- Of two files put under one name the later one counts. -/
theorem Workspace.setFile_setFile (w : Workspace) (file : String) (f g : FileState) :
    (w.setFile file f).setFile file g = w.setFile file g :=
  congrArg Workspace.mk (w.files.insert_insert file f g)

/-! ## What changes of a file do -/

namespace FileState

theorem commit?_eq_some {f f' : FileState} {session : String} {node : NodeId} {r : RunResult}
    {now : Instant} {e : Execution} {state : Snapshot}
    (h : f.commit? session node r now = some (e, state, f')) :
    ∃ s, f.book.get? session = some s ∧ e = .ofRun node r ∧ state = (s.push e now).overall ∧
      f' = {
        graph := { f.graph with edges := (s.push e now).appendEdge f.graph.edges }
        book := (f.book.replace session (s.push e now)).setPrimary session } := by
  rw [commit?] at h
  split at h
  · obtain ⟨s, hs, heq⟩ := Option.map_eq_some_iff.mp h
    cases heq
    exact ⟨s, hs, rfl, rfl, rfl⟩
  · cases h

theorem commitReplay?_eq_some {f f' : FileState} {scratch : Session}
    (h : f.commitReplay? scratch = some f') : ∃ s, f.book.get? scratch.id = some s ∧
      f' = {
        graph := { f.graph with edges := scratch.rebuildEdges f.graph.edges }
        book := (f.book.replace scratch.id scratch).setPrimary scratch.id } := by
  rw [commitReplay?] at h
  split at h
  · rename_i hcond
    obtain ⟨s, hs⟩ := Option.isSome_iff_exists.mp (Bool.and_eq_true _ _ ▸ hcond).2
    cases h
    exact ⟨s, hs, rfl⟩
  · cases h

/-- All that deleting an edge can do: nothing, drop the edge, or take the step that it stands for
out of its session. -/
theorem removeEdge_cases (f : FileState) (id : EdgeId) (now : Instant) :
    f.removeEdge id now = (none, f) ∨
      (∃ e removal, f.graph.edge? id = some e ∧
        (∀ name, e.kind.session? = some name → f.book.get? name = none) ∧
        f.removeEdge id now =
          (removal, f.withEdges (f.graph.edges.filter fun e => e.id ≠ id))) ∨
      ∃ e s position x rest, f.graph.edge? id = some e ∧ e.kind.session? = some s.id ∧
        f.book.get? s.id = some s ∧ s.removeAt? position now = some (x, rest) ∧
        f.removeEdge id now = (some (.execution s.id x), {
          graph := { f.graph with edges := rest.rebuildEdges f.graph.edges }
          book := (f.book.replace s.id rest).refreshPrimary }) := by
  cases hfind : f.graph.edge? id with
  | none =>
    left
    rw [removeEdge]
    simp only [hfind]
  | some e =>
    cases hkind : e.kind.session? with
    | none =>
      refine .inr (.inl ⟨e, some (.plain e), rfl, fun name h => (nomatch hkind.symm.trans h), ?_⟩)
      rw [removeEdge]
      simp only [hfind, hkind]
    | some name =>
      cases hs : f.book.get? name with
      | none =>
        refine .inr (.inl ⟨e, none, rfl, fun other h => ?_, ?_⟩)
        · rw [← Option.some.inj (hkind.symm.trans h), hs]
        · rw [removeEdge]
          simp only [hfind, hkind, hs]
      | some s =>
        obtain rfl : s.id = name := (Book.exists_split hs).1
        rcases s.removeStep_cases id now f.graph.edges with ⟨-, heq⟩ | heq |
          ⟨_, position, x, rest, -, -, -, hat, heq⟩
        · left
          rw [removeEdge]
          simp only [hfind, hkind, hs, heq]
        · left
          rw [removeEdge]
          simp only [hfind, hkind, hs, heq]
        · refine .inr (.inr ⟨e, s, position, x, rest, rfl, hkind, hs, hat, ?_⟩)
          rw [removeEdge]
          simp only [hfind, hkind, hs, heq]

end FileState

/-! ## Files in step -/

namespace FileState

/-- The edges of the file are in step with its sessions. -/
abbrev InStep (f : FileState) : Prop := Runbook.InStep f.book.sessions f.graph.edges

/-- A file is in step when it was just loaded, if no two of its sessions share a name and no edge
of another kind is named like a step. -/
theorem inStep_load {g : Graph} {b : Book} (hnames : b.names.Nodup)
    (hreserved : ∀ e ∈ g.edges, e.isExecution = false →
      ∀ name position, e.id ≠ Session.edgeId name position) : (load g b).InStep := by
  have hedges : (if g.hasNode startId then g else g.upsertNode .start).edges = g.edges := by
    split <;> rfl
  have hplain : Runbook.InStep [] (g.edges.filter fun e => !e.isExecution) := by
    refine ⟨List.nodup_nil, fun s hs => absurd hs List.not_mem_nil, ?_, ?_⟩
    · intro e he name hown
      have hnot := (List.mem_filter.mp he).2
      rw [Session.isExecution_of_isExecutionOf hown] at hnot
      cases hnot
    · intro e he
      exact hreserved e (List.mem_filter.mp he).1
  have hall := Runbook.InStep.load b.sessions hplain hnames
  rw [← hedges] at hall
  exact hall

theorem InStep.commit? {f f' : FileState} {session : String} {node : NodeId} {r : RunResult}
    {now : Instant} {e : Execution} {state : Snapshot} (h : f.InStep)
    (hf : f.commit? session node r now = some (e, state, f')) : f'.InStep := by
  obtain ⟨s, hs, -, -, rfl⟩ := commit?_eq_some hf
  obtain ⟨-, pre, post, hsplit, -, hreplace, -⟩ := Book.exists_split hs
  rw [InStep, hsplit] at h
  have hpush := Runbook.InStep.push h e now
  simp only [InStep, Book.sessions_setPrimary, Book.replace, hreplace]
  exact hpush

theorem InStep.commitReplay? {f f' : FileState} {scratch : Session} (h : f.InStep)
    (hf : f.commitReplay? scratch = some f') : f'.InStep := by
  obtain ⟨s, hs, rfl⟩ := commitReplay?_eq_some hf
  obtain ⟨hid, pre, post, hsplit, -, hreplace, -⟩ := Book.exists_split hs
  rw [InStep, hsplit] at h
  have hredraw := Runbook.InStep.rebuild h (t := scratch) hid.symm
  simp only [InStep, Book.sessions_setPrimary, Book.replace, hreplace]
  exact hredraw

theorem InStep.removeEdge {f : FileState} (h : f.InStep) (id : EdgeId) (now : Instant) :
    (f.removeEdge id now).2.InStep := by
  rcases f.removeEdge_cases id now with heq | ⟨e, _, hfind, hgone, heq⟩ |
    ⟨_, s, position, x, rest, -, -, hget, hat, heq⟩
  · rw [heq]
    exact h
  · have hmem : e ∈ f.graph.edges := List.mem_of_find?_eq_some hfind
    have hid : e.id = id := by simpa using List.find?_some hfind
    -- a step has a session, so the edge is none, and an edge that is none shares its name with none
    have hplain : e.isExecution = false := by
      rw [Edge.isExecution, Edge.Kind.isExecution, Option.isSome_eq_false_iff,
        Option.isNone_iff_eq_none]
      cases hkind : e.kind.session? with
      | none => rfl
      | some name =>
        have hcontains := Book.contains_iff.mpr
          (h.owned e hmem name (Session.isExecutionOf_of_session? hkind))
        rw [Book.contains, hgone name hkind] at hcontains
        cases hcontains
    rw [heq]
    -- another edge than a step bears another name than any step, so the steps stay
    refine Runbook.InStep.filter h _ fun e' he' hexec => ?_
    obtain ⟨name, hown⟩ := Session.isExecution_iff.mp hexec
    obtain ⟨s, -, -, hedge⟩ := h.mem_edges_of_isExecutionOf he' hown
    obtain ⟨i, source, target, -, -, -, -, rfl⟩ := Session.mem_edges hedge
    rw [decide_eq_true_eq, ← hid]
    exact fun heq => h.reserved e hmem hplain s.id i heq.symm
  · obtain ⟨-, pre, post, hsplit, -, hreplace, -⟩ := Book.exists_split hget
    rw [InStep, hsplit] at h
    have hredraw := Runbook.InStep.rebuild h (Session.id_rest hat)
    simp only [heq, InStep, Book.sessions_refreshPrimary, Book.replace, hreplace]
    exact hredraw

theorem InStep.refresh {f : FileState} (h : f.InStep) : f.refresh.InStep := by
  refine Runbook.InStep.keep h ?_ ?_
  · -- no derived edge is a step, neither of those that go nor of those that come
    intro name
    have hderived : Session.stepsIn name (Relations.infer f.graph.nodes f.graph.edges) = [] :=
      List.filter_eq_nil_iff.mpr fun e he hown => by
        have hplain := Relations.not_isExecution_of_mem_infer he
        rw [Session.isExecution_of_isExecutionOf hown] at hplain
        cases hplain
    rw [FileState.refresh, Graph.refresh, Session.stepsIn_append, hderived, List.append_nil,
      Graph.authored, Session.stepsIn, List.filter_filter, Session.stepsIn]
    refine List.filter_congr fun e _ => ?_
    cases hown : e.isExecutionOf name with
    | false => rfl
    | true =>
      rw [Edge.isDerived, Session.isExecutionOf_iff.mp hown]
      rfl
  · intro e he hplain
    rcases List.mem_append.mp he with he | he
    · exact h.reserved e (List.mem_filter.mp he).1 hplain
    · exact Relations.id_ne_edgeId he

theorem InStep.removeNode {f : FileState} (h : f.InStep) (node : NodeId) (now : Instant) :
    (f.removeNode node now).2.InStep := by
  rw [FileState.removeNode]
  split
  · exact h
  · rename_i hcond
    have hstart : node ≠ startId := fun heq => hcond (by simp [heq])
    have hall : Runbook.InStep ([] ++ f.book.sessions) f.graph.edges := h
    obtain ⟨es', hrun, hstep⟩ := Runbook.InStep.repair node now f.book.sessions hall
    rw [List.nil_append] at hstep
    simp only [hrun]
    refine InStep.refresh (f := ⟨_, _⟩) ?_
    show Runbook.InStep (Book.refreshPrimary _).sessions (es'.filter fun e => !e.touches node)
    rw [Book.sessions_refreshPrimary]
    refine hstep.filter _ fun e he hexec => ?_
    -- what is left of a session has no step of the node, be it shortened or untouched
    have hgone : ∀ s ∈ f.book.sessions.map
        (fun s => if s.contains node then s.without node now else s), node ∉ s.path := by
      intro s hs
      obtain ⟨t, -, rfl⟩ := List.mem_map.mp hs
      split
      · exact Session.not_mem_path_without t node now
      · rename_i hnot
        simpa [Session.contains] using hnot
    -- the chains were redrawn without the node, so no step touches it any more
    rw [hstep.not_touches hstart hgone he hexec]
    rfl

theorem InStep.removeSession? {f f' : FileState} {name : String} {s : Session} (h : f.InStep)
    (hf : f.removeSession? name = some (s, f')) : f'.InStep := by
  obtain ⟨⟨t, book⟩, hremove, heq⟩ := Option.map_eq_some_iff.mp hf
  obtain ⟨u, hget, hbook⟩ := Option.map_eq_some_iff.mp hremove
  obtain ⟨hid, pre, post, hsplit, -, -, herase⟩ := Book.exists_split hget
  cases hbook
  cases heq
  rw [InStep, hsplit] at h
  have hdrop := Runbook.InStep.drop h
  simp only [InStep, herase]
  rw [← hid]
  exact hdrop

theorem InStep.start {f : FileState} {file name : String} {now : Instant} {s : Session}
    {book : Book} (h : f.InStep) (hstart : f.book.start file name now = .ok (s, book)) :
    FileState.InStep { f with book } := by
  rw [Book.start] at hstart
  split at hstart
  · cases hstart
  · rename_i hfree
    cases hstart
    refine Runbook.InStep.start h ?_ rfl
    rw [← Book.contains_iff]
    exact hfree

end FileState

/-! ## Updates -/

/-- An indivisible change of a file. -/
inductive Update where
  /-- starts a session -/
  | start (name : String) (now : Instant)
  /-- records what a run gave as the next step of a session -/
  | commit (session : String) (node : NodeId) (r : RunResult) (now : Instant)
  /-- puts a session run anew in the place of the one of its name -/
  | commitReplay (scratch : Session)
  /-- deletes an edge -/
  | removeEdge (id : EdgeId) (now : Instant)
  /-- deletes a node -/
  | removeNode (node : NodeId) (now : Instant)
  /-- deletes a session -/
  | removeSession (name : String)
  /-- finds the derived edges anew -/
  | refresh

namespace Update

/-- What a change of a file makes of a workspace. -/
def apply (u : Update) (file : String) (w : Workspace) : Workspace :=
  match u with
  | start name now =>
    match w.startSession file name now with
    | .ok (_, w) => w
    | .error _ => w
  | commit session node r now => ((w.commit? file session node r now).map Prod.snd).getD w
  | commitReplay scratch => (w.commitReplay? file scratch).getD w
  | removeEdge id now => (w.removeEdge file id now).2
  | removeNode node now => (w.removeNode file node now).2
  | removeSession name => ((w.removeSession? file name).map Prod.snd).getD w
  | refresh => (w.refresh file).2

/-- What a change makes of the file it is about, if that is loaded. -/
def onFile (u : Update) (file : String) (f : FileState) : FileState :=
  match u with
  | start name now =>
    match f.book.start file name now with
    | .ok (_, book) => { f with book }
    | .error _ => f
  | commit session node r now => ((f.commit? session node r now).map fun p => p.2.2).getD f
  | commitReplay scratch => (f.commitReplay? scratch).getD f
  | removeEdge id now => (f.removeEdge id now).2
  | removeNode node now => (f.removeNode node now).2
  | removeSession name => ((f.removeSession? name).map Prod.snd).getD f
  | refresh => f.refresh

/-- A change of a file that is not loaded changes nothing; of a loaded one it changes just that
file, as far as anything changes. -/
theorem apply_eq (u : Update) (file : String) (w : Workspace) :
    u.apply file w = w ∧ (w.file? file).map (u.onFile file) = w.file? file ∨
      ∃ f, w.file? file = some f ∧ u.apply file w = w.setFile file (u.onFile file f) := by
  cases hf : w.file? file with
  | none =>
    left
    refine ⟨?_, rfl⟩
    cases u <;> simp [apply, Workspace.startSession, Workspace.commit?, Workspace.commitReplay?,
      Workspace.removeEdge, Workspace.removeNode, Workspace.removeSession?, Workspace.refresh,
      Workspace.update, Workspace.update?, hf]
  | some f =>
    cases u with
    | start name now =>
      cases h : f.book.start file name now with
      | error fault =>
        exact .inl ⟨by simp [apply, Workspace.startSession, hf, h, Except.map], by simp [onFile, h]⟩
      | ok p =>
        exact .inr ⟨f, rfl, by simp [apply, Workspace.startSession, hf, h, Except.map, onFile]⟩
    | commit session node r now =>
      cases h : f.commit? session node r now with
      | none =>
        exact .inl ⟨by simp [apply, Workspace.commit?, Workspace.update?, hf, h],
          by simp [onFile, h]⟩
      | some p =>
        exact .inr ⟨f, rfl, by simp [apply, Workspace.commit?, Workspace.update?, hf, h, onFile]⟩
    | commitReplay scratch =>
      cases h : f.commitReplay? scratch with
      | none =>
        exact .inl ⟨by simp [apply, Workspace.commitReplay?, Workspace.update?, hf, h],
          by simp [onFile, h]⟩
      | some f' =>
        exact .inr ⟨f, rfl,
          by simp [apply, Workspace.commitReplay?, Workspace.update?, hf, h, onFile]⟩
    | removeEdge id now =>
      exact .inr ⟨f, rfl, by simp only [apply, onFile, Workspace.removeEdge, Workspace.update, hf]⟩
    | removeNode node now =>
      exact .inr ⟨f, rfl, by simp only [apply, onFile, Workspace.removeNode, Workspace.update, hf]⟩
    | removeSession name =>
      cases h : f.removeSession? name with
      | none =>
        exact .inl ⟨by simp [apply, Workspace.removeSession?, Workspace.update?, hf, h],
          by simp [onFile, h]⟩
      | some p =>
        exact .inr ⟨f, rfl,
          by simp [apply, Workspace.removeSession?, Workspace.update?, hf, h, onFile]⟩
    | refresh =>
      exact .inr ⟨f, rfl, by simp only [apply, onFile, Workspace.refresh, Workspace.update, hf]⟩

theorem file?_apply (u : Update) (file : String) (w : Workspace) :
    (u.apply file w).file? file = (w.file? file).map (u.onFile file) := by
  rcases u.apply_eq file w with ⟨heq, hsame⟩ | ⟨f, hf, heq⟩
  · rw [heq, hsame]
  · rw [heq, hf, Workspace.file?_setFile_self, Option.map_some]

theorem file?_apply_of_ne (u : Update) {file other : String} (w : Workspace) (h : other ≠ file) :
    (u.apply file w).file? other = w.file? other := by
  rcases u.apply_eq file w with ⟨heq, -⟩ | ⟨f, -, heq⟩
  · rw [heq]
  · rw [heq, Workspace.file?_setFile_of_ne w _ h]

/-- What every change of a file preserves is preserved by a change of any file. -/
theorem exists_file?_apply {P : FileState → Prop} {file : String}
    (hstep : ∀ (u : Update) (f : FileState), P f → P (u.onFile file f)) (u : Update)
    (other : String) {w : Workspace} (h : ∃ f, w.file? file = some f ∧ P f) :
    ∃ f, (u.apply other w).file? file = some f ∧ P f := by
  obtain ⟨f, hf, h⟩ := h
  by_cases hfile : file = other
  · subst hfile
    exact ⟨u.onFile file f, by rw [file?_apply, hf, Option.map_some], hstep u f h⟩
  · exact ⟨f, by rw [file?_apply_of_ne _ _ hfile, hf], h⟩

/-- Every change keeps the edges of its file in step with the sessions. -/
theorem inStep_onFile (u : Update) (file : String) {f : FileState} (h : f.InStep) :
    (u.onFile file f).InStep := by
  cases u with
  | start name now =>
    rw [onFile]
    cases hstart : f.book.start file name now with
    | error fault => exact h
    | ok p => exact h.start hstart
  | commit session node r now =>
    rw [onFile]
    cases hcommit : f.commit? session node r now with
    | none => exact h
    | some p => exact h.commit? hcommit
  | commitReplay scratch =>
    rw [onFile]
    cases hcommit : f.commitReplay? scratch with
    | none => exact h
    | some f' => exact h.commitReplay? hcommit
  | removeEdge id now => exact h.removeEdge id now
  | removeNode node now => exact h.removeNode node now
  | removeSession name =>
    rw [onFile]
    cases hremove : f.removeSession? name with
    | none => exact h
    | some p => exact h.removeSession? hremove
  | refresh => exact h.refresh

end Update

/-! ## Sequences of updates -/

namespace Workspace

/-- What changes of files, one after another, make of a workspace. -/
def after (w : Workspace) (us : List (String × Update)) : Workspace :=
  us.foldl (fun w u => u.2.apply u.1 w) w

/-- What every change of a file preserves is preserved by all changes of any files. -/
theorem exists_file?_after {P : FileState → Prop} {file : String}
    (hstep : ∀ (u : Update) (f : FileState), P f → P (u.onFile file f))
    (us : List (String × Update)) : ∀ {w : Workspace} {f : FileState}, w.file? file = some f →
      P f → ∃ f', (w.after us).file? file = some f' ∧ P f' := by
  induction us with
  | nil => exact fun {_ f} hf h => ⟨f, hf, h⟩
  | cons u rest ih =>
    intro w f hf h
    obtain ⟨f', hf', h'⟩ := u.2.exists_file?_apply hstep u.1 ⟨f, hf, h⟩
    exact ih hf' h'

/-- **The path invariant.** From a file that was just loaded on, whatever its graph and its
sessions, as long as these have different names and no edge of another kind is named like a step:
after any changes of any files the steps of every session are, in the order of the edges, exactly
its chain, and no step belongs to a session that is not in the book. -/
theorem chains_after (w : Workspace) (file : String) (g : Graph) (b : Book)
    (hnames : b.names.Nodup)
    (hreserved : ∀ e ∈ g.edges, e.isExecution = false →
      ∀ name position, e.id ≠ Session.edgeId name position)
    (us : List (String × Update)) :
    ∃ f, ((w.insertFile file g b).after us).file? file = some f ∧
      (∀ s ∈ f.book.sessions,
        f.graph.edges.filter (fun e => e.kind = .execution s.id) = s.edges ∧
        s.edges.map Edge.id = (List.range' 1 s.length).map (Session.edgeId s.id) ∧
        s.edges.map Edge.label = (List.range' 1 s.length).map (fun i => some (toString i)) ∧
        s.edges.map Edge.source = (startId :: s.path).dropLast ∧
        s.edges.map Edge.target = s.path) ∧
      ∀ e ∈ f.graph.edges, ∀ name, e.kind = .execution name → f.book.contains name = true := by
  have hload : (FileState.load g b).InStep := FileState.inStep_load hnames hreserved
  obtain ⟨f, hf, h⟩ := exists_file?_after (fun u f => u.inStep_onFile file) us
    (file?_setFile_self w file _) hload
  refine ⟨f, hf, fun s hs => ⟨h.chains s hs, s.columns_edges⟩, ?_⟩
  intro e he name hkind
  exact Book.contains_iff.mpr (h.owned e he name (Session.isExecutionOf_iff.mpr hkind))

/-- A graph of two nodes that are joined by hand. -/
def joinedPair : Graph :=
  { nodes := [.new "a" .fragment, .new "b" .fragment]
    edges := [{ id := "a-b", source := "a", target := "b", kind := .base, label := none }]
    metadata := .empty }

/-- A session that ran the nodes of a path without any effect. -/
def idleSession (name : String) (path : List NodeId) : Session :=
  { Session.new name (Clock.now ⟨0⟩) with
    executions := path.map fun node => .ofRun node (.start .empty) }

/-- Two sessions run both nodes; one node is deleted, the other runs once more in a new session. -/
theorem chains_after_joinedPair :
    (Book.names ⟨[idleSession "s" ["a", "b", "a"], idleSession "s:1" ["a"]], none⟩).Nodup ∧
    (∀ e ∈ joinedPair.edges, e.isExecution = false →
      ∀ name position, e.id ≠ Session.edgeId name position) ∧
    ∃ f, ((Workspace.empty.insertFile "f" joinedPair
          ⟨[idleSession "s" ["a", "b", "a"], idleSession "s:1" ["a"]], none⟩).after
        [("f", .removeNode "a" (Clock.now ⟨1⟩)), ("f", .start "t" (Clock.now ⟨2⟩)),
          ("f", .commit "t" "b" (.start .empty) (Clock.now ⟨3⟩))]).file? "f" = some f ∧
      (∀ s ∈ f.book.sessions,
        f.graph.edges.filter (fun e => e.kind = .execution s.id) = s.edges ∧
        s.edges.map Edge.id = (List.range' 1 s.length).map (Session.edgeId s.id) ∧
        s.edges.map Edge.label = (List.range' 1 s.length).map (fun i => some (toString i)) ∧
        s.edges.map Edge.source = (startId :: s.path).dropLast ∧
        s.edges.map Edge.target = s.path) ∧
      ∀ e ∈ f.graph.edges, ∀ name, e.kind = .execution name → f.book.contains name = true := by
  have hnames :
      (Book.names ⟨[idleSession "s" ["a", "b", "a"], idleSession "s:1" ["a"]], none⟩).Nodup := by
    decide
  have hreserved : ∀ e ∈ joinedPair.edges, e.isExecution = false →
      ∀ name position, e.id ≠ Session.edgeId name position := by
    intro e he _
    rw [joinedPair, List.mem_singleton] at he
    rw [he]
    exact Session.ne_edgeId (by decide)
  exact ⟨hnames, hreserved, chains_after _ _ _ _ hnames hreserved _⟩

end Workspace

end Runbook
