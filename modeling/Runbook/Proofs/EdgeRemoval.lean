import Runbook.Proofs.StepRemoval

/-!
# What is gone when an edge is deleted

Deleting an edge gives what was taken away: the edge itself, or the execution that it stood for, or
nothing. Where it gives something, just that is gone, and the chain of a session that lost a step is
drawn anew. Where it gives nothing, nothing is gone, but for one kind of edges: those that are steps
of sessions that are gone themselves are dropped without a word.

* `FileState.Deletes`, `FileState.deletes_removeEdge`: all that deleting an edge can do to a file
* `FileState.IsStray`: an edge is a step of a session that there is not
* `Workspace.Tells`: what is gone is what is given
* `Workspace.removeEdge_tells_iff`: this is so exactly for edges that are not stray
-/

namespace Runbook

open Session

/-! ## Edges with names of their own -/

section Distinct

variable {pre post : List Edge} {e : Edge}

/-- Where names differ, an edge is the only one of its name. -/
theorem ne_id_of_nodup (h : ((pre ++ e :: post).map Edge.id).Nodup) :
    ∀ d ∈ pre ++ post, d.id ≠ e.id := by
  rw [List.map_append, List.map_cons, List.nodup_middle, ← List.map_append] at h
  intro d hd heq
  exact (List.nodup_cons.mp h).1 (heq ▸ List.mem_map_of_mem hd)

theorem findEdge?_of_nodup (h : ((pre ++ e :: post).map Edge.id).Nodup) :
    (pre ++ e :: post).find? (fun d => d.id = e.id) = some e :=
  find?_id_eq_some.mpr ⟨pre, post, rfl,
    fun d hd => ne_id_of_nodup h d (List.mem_append_left _ hd), rfl⟩

/-- Where names differ, to drop all edges of a name is to drop one. -/
theorem filter_id_ne_of_nodup (h : ((pre ++ e :: post).map Edge.id).Nodup) :
    (pre ++ e :: post).filter (fun d => d.id ≠ e.id) = pre ++ post := by
  have hkeep : (pre ++ post).filter (fun d => d.id ≠ e.id) = pre ++ post :=
    List.filter_eq_self.mpr fun d hd => by simpa using ne_id_of_nodup h d hd
  rw [List.filter_append, List.filter_cons_of_neg (by simp), ← List.filter_append, hkeep]

/-- Where names differ, a name stands for the step that its edge stands for. -/
theorem Session.namesStep_of_nodup {s : Session} {position : Nat}
    (h : ((pre ++ e :: post).map Edge.id).Nodup) :
    s.NamesStep (pre ++ e :: post) e.id position ↔
      e.StandsFor s.id position ∧ 1 ≤ position ∧ position ≤ s.length := by
  rw [namesStep_iff, findEdge?_of_nodup h]
  refine and_congr_left fun _ => ?_
  simp only [Option.some.injEq, exists_eq_left', standsFor_iff]

end Distinct

/-! ## Files -/

namespace FileState

/-- All that deleting an edge can give, and what it makes of a file whose edges have names of their
own. -/
inductive Deletes (f : FileState) (id : EdgeId) (now : Instant) :
    Option Removal → FileState → Prop
  /-- no edge has the name -/
  | unknown (h : ∀ e ∈ f.graph.edges, e.id ≠ id) : Deletes f id now none f
  /-- the edge is no step: it goes -/
  | plain {pre post : List Edge} {e : Edge} (hedges : f.graph.edges = pre ++ e :: post)
      (hid : e.id = id) (hkind : e.isExecution = false) :
      Deletes f id now (some (.plain e)) (f.withEdges (pre ++ post))
  /-- the edge is a step of a session that there is not: it goes without a word -/
  | stray {pre post : List Edge} {e : Edge} {name : String}
      (hedges : f.graph.edges = pre ++ e :: post) (hid : e.id = id)
      (hkind : e.kind = .execution name) (hgone : name ∉ f.book.names) :
      Deletes f id now none (f.withEdges (pre ++ post))
  /-- the edge is a step of a session, but stands for no execution of it -/
  | idle {e : Edge} {s : Session} (he : e ∈ f.graph.edges) (hid : e.id = id)
      (hs : s ∈ f.book.sessions) (hkind : e.kind = .execution s.id)
      (hidle : ∀ position, 1 ≤ position → position ≤ s.length → ¬e.StandsFor s.id position) :
      Deletes f id now none f
  /-- the edge stands for an execution, which goes; the chain of its session is drawn anew -/
  | step {e : Edge} {pre post : List Session} {s : Session} {before after : List Execution}
      {x : Execution} (he : e ∈ f.graph.edges) (hid : e.id = id)
      (hsessions : f.book.sessions = pre ++ s :: post)
      (hstands : e.StandsFor s.id (before.length + 1))
      (hsplit : s.executions = before ++ x :: after) :
      Deletes f id now (some (.execution s.id x)) {
        graph := { f.graph with
          edges := otherEdges s.id f.graph.edges ++ (s.keeping (before ++ after) now).edges }
        book := ({ f.book with
          sessions := pre ++ s.keeping (before ++ after) now :: post } : Book).refreshPrimary }

/-- An edge is a step of a session that there is not. -/
def IsStray (f : FileState) (id : EdgeId) : Prop :=
  ∃ e ∈ f.graph.edges, e.id = id ∧ ∃ name, e.kind = .execution name ∧ name ∉ f.book.names

theorem isStray_iff {f : FileState} (hids : (f.graph.edges.map Edge.id).Nodup) {e : Edge}
    (he : e ∈ f.graph.edges) :
    f.IsStray e.id ↔ ∃ name, e.kind = .execution name ∧ name ∉ f.book.names := by
  refine ⟨fun ⟨d, hd, hid, h⟩ => ?_, fun h => ⟨e, he, rfl, h⟩⟩
  rwa [List.inj_on_of_nodup_map hids hd he hid] at h

/-- What is no step, or is one of a session that there is, is not stray. -/
theorem not_isStray {f : FileState} (hids : (f.graph.edges.map Edge.id).Nodup) {e : Edge}
    (he : e ∈ f.graph.edges) (h : ∀ name, e.kind = .execution name → name ∈ f.book.names) :
    ¬f.IsStray e.id := by
  rw [isStray_iff hids he]
  exact fun ⟨name, hkind, hgone⟩ => hgone (h name hkind)

/-- Where the names of the edges differ, these are all cases there are. -/
theorem deletes_removeEdge {f : FileState} (hids : (f.graph.edges.map Edge.id).Nodup)
    (id : EdgeId) (now : Instant) :
    f.Deletes id now (f.removeEdge id now).1 (f.removeEdge id now).2 := by
  by_cases hunknown : ∀ e ∈ f.graph.edges, e.id ≠ id
  · have hnone : f.graph.edge? id = none :=
      List.find?_eq_none.mpr fun e he => by simpa using hunknown e he
    simp only [removeEdge, hnone]
    exact .unknown hunknown
  · obtain ⟨e, he, rfl⟩ : ∃ e ∈ f.graph.edges, e.id = id := by simpa using hunknown
    obtain ⟨pre, post, hedges⟩ := List.append_of_mem he
    rw [hedges] at hids
    have hfind : f.graph.edge? e.id = some e := by
      rw [Graph.edge?, Graph.findEdge?, hedges, findEdge?_of_nodup hids]
    have hwithout : f.graph.edges.filter (fun d => d.id ≠ e.id) = pre ++ post := by
      rw [hedges, filter_id_ne_of_nodup hids]
    cases hkind : e.kind.session? with
    | none =>
      simp only [removeEdge, hfind, hkind, hwithout]
      exact .plain hedges rfl (by simp [Edge.isExecution, Edge.Kind.isExecution, hkind])
    | some name =>
      have hexec : e.kind = .execution name :=
        isExecutionOf_iff.mp (isExecutionOf_of_session? hkind)
      cases hs : f.book.get? name with
      | none =>
        simp only [removeEdge, hfind, hkind, hs, hwithout]
        refine .stray hedges rfl hexec fun hmem => ?_
        have hthere := Book.contains_iff.mpr hmem
        rw [Book.contains, hs] at hthere
        cases hthere
      | some s =>
        obtain ⟨rfl, before, after, hsessions, -, hreplace, -⟩ := Book.exists_split hs
        have hnames : ∀ position, s.NamesStep f.graph.edges e.id position ↔
            e.StandsFor s.id position ∧ 1 ≤ position ∧ position ≤ s.length := by
          rw [hedges]
          exact fun position => namesStep_of_nodup hids
        by_cases hstep : ∃ position, s.NamesStep f.graph.edges e.id position
        · obtain ⟨position, hstep⟩ := hstep
          obtain ⟨_, x, _, hsplit, rfl⟩ := hstep.exists_split
          simp only [removeEdge, hfind, hkind, hs, removeStep_of_namesStep hsplit hstep, Book.replace,
            hreplace]
          exact .step he rfl hsessions ((hnames _).mp hstep).1 hsplit
        · have hidle := removeStep_of_not_namesStep ⟨e, he, rfl⟩ (not_exists.mp hstep) now
          simp only [removeEdge, hfind, hkind, hs, hidle]
          refine .idle he rfl (List.mem_of_find?_eq_some hs) hexec fun position hpos hle h => ?_
          exact hstep ⟨position, (hnames position).mpr ⟨h, hpos, hle⟩⟩

end FileState

/-! ## Workspaces -/

namespace Workspace

/-- A file put back as it is changes nothing. -/
theorem setFile_of_file? {w : Workspace} {file : String} {f : FileState}
    (h : w.file? file = some f) : w.setFile file f = w :=
  congrArg Workspace.mk (Table.insert_of_get? h)

/-- What is gone from a workspace is what is given. -/
inductive Tells (w : Workspace) (file : String) (id : EdgeId) (now : Instant) :
    Option Removal → Workspace → Prop
  /-- nothing is given, and nothing changed -/
  | nothing : Tells w file id now none w
  /-- an edge is given, and it alone is gone -/
  | plain {f : FileState} {pre post : List Edge} {e : Edge} (hfile : w.file? file = some f)
      (hedges : f.graph.edges = pre ++ e :: post) (hid : e.id = id) :
      Tells w file id now (some (.plain e)) (w.setFile file (f.withEdges (pre ++ post)))
  /-- an execution is given, and it alone is gone from its session; of the edges, only the steps of
  that session changed, and the primary session may be another one -/
  | execution {f : FileState} {e : Edge} {pre post : List Session} {s : Session}
      {before after : List Execution} {x : Execution} (hfile : w.file? file = some f)
      (he : e ∈ f.graph.edges) (hid : e.id = id)
      (hstands : e.StandsFor s.id (before.length + 1))
      (hsessions : f.book.sessions = pre ++ s :: post)
      (hsplit : s.executions = before ++ x :: after) :
      Tells w file id now (some (.execution s.id x)) (w.setFile file {
        graph := { f.graph with
          edges := otherEdges s.id f.graph.edges ++ (s.keeping (before ++ after) now).edges }
        book := ({ f.book with
          sessions := pre ++ s.keeping (before ++ after) now :: post } : Book).refreshPrimary })

theorem Tells.eq_of_none {w w' : Workspace} {file : String} {id : EdgeId} {now : Instant}
    (h : w.Tells file id now none w') : w' = w := by
  cases h
  rfl

/-- Of all that deleting an edge can do, only dropping a stray edge is not told. -/
theorem tells_iff_of_deletes {w : Workspace} {file : String} {f f' : FileState} {id : EdgeId}
    {now : Instant} {removal : Option Removal} (hfile : w.file? file = some f)
    (hids : (f.graph.edges.map Edge.id).Nodup) (h : f.Deletes id now removal f') :
    w.Tells file id now removal (w.setFile file f') ↔ ¬f.IsStray id := by
  cases h with
  | unknown h =>
    rw [setFile_of_file? hfile]
    exact iff_of_true .nothing fun ⟨e, he, hid, _⟩ => h e he hid
  | @plain pre post e hedges hid hkind =>
    subst hid
    refine iff_of_true (.plain hfile hedges rfl)
      (FileState.not_isStray hids (by simp [hedges]) fun name hname => ?_)
    rw [Edge.isExecution, hname] at hkind
    cases hkind
  | @stray pre post e name hedges hid hkind hgone =>
    refine iff_of_false (fun htells => ?_)
      (not_not.mpr ⟨e, by simp [hedges], hid, name, hkind, hgone⟩)
    -- the workspace would have lost no edge
    have hsame := congrArg (fun w => w.file? file) htells.eq_of_none
    simp only [file?_setFile_self, hfile, Option.some.injEq] at hsame
    have hlength := congrArg (fun f => f.graph.edges.length) hsame
    simp [FileState.withEdges, hedges] at hlength
  | @idle e s he hid hs hkind =>
    subst hid
    rw [setFile_of_file? hfile]
    refine iff_of_true .nothing (FileState.not_isStray hids he fun name hname => ?_)
    cases hkind.symm.trans hname
    exact List.mem_map_of_mem hs
  | @step e pre post s before after x he hid hsessions hstands hsplit =>
    subst hid
    refine iff_of_true (.execution hfile he rfl hstands hsessions hsplit)
      (FileState.not_isStray hids he fun name hname => ?_)
    cases hstands.1.symm.trans hname
    exact List.mem_map_of_mem (by simp [hsessions])

theorem removeEdge_of_file? {w : Workspace} {file : String} {f : FileState}
    (hfile : w.file? file = some f) (id : EdgeId) (now : Instant) :
    w.removeEdge file id now =
      ((f.removeEdge id now).1, w.setFile file (f.removeEdge id now).2) := by
  rw [removeEdge, update, hfile]

theorem tells_removeEdge {w : Workspace} {file : String} {f : FileState}
    (hfile : w.file? file = some f) (hids : (f.graph.edges.map Edge.id).Nodup) (id : EdgeId)
    (now : Instant) :
    w.Tells file id now (w.removeEdge file id now).1 (w.removeEdge file id now).2 ↔
      ¬f.IsStray id := by
  rw [removeEdge_of_file? hfile]
  exact tells_iff_of_deletes hfile hids (FileState.deletes_removeEdge hids id now)

/-- **Deleting an edge tells what is gone, but for stray edges.** On a file whose edges have names of
their own, it does what `FileState.Deletes` says; and what is gone is what is given, unless the
edge is a step of a session that there is not. On a file that is not loaded nothing happens. -/
theorem removeEdge_tells_iff {w : Workspace} {file : String}
    (hids : ∀ f, w.file? file = some f → (f.graph.edges.map Edge.id).Nodup) (id : EdgeId)
    (now : Instant) :
    (w.Tells file id now (w.removeEdge file id now).1 (w.removeEdge file id now).2 ↔
      ∀ f, w.file? file = some f → ¬f.IsStray id) ∧
    (∀ f, w.file? file = some f → ∃ f', f.Deletes id now (w.removeEdge file id now).1 f' ∧
      (w.removeEdge file id now).2 = w.setFile file f') ∧
    (w.file? file = none → w.removeEdge file id now = (none, w)) := by
  cases hfile : w.file? file with
  | none =>
    have heq : w.removeEdge file id now = (none, w) := by rw [removeEdge, update, hfile]
    rw [heq]
    exact ⟨iff_of_true .nothing (by rintro _ ⟨⟩), by rintro _ ⟨⟩, fun _ => rfl⟩
  | some f =>
    refine ⟨?_, ?_, by rintro ⟨⟩⟩
    · rw [tells_removeEdge hfile (hids f hfile)]
      simp only [Option.some.injEq, forall_eq']
    · rintro _ ⟨⟩
      rw [removeEdge_of_file? hfile]
      exact ⟨_, FileState.deletes_removeEdge (hids f hfile) id now, rfl⟩

/-- A file with a session that ran one node, and with the step of a session that was taken out of
the book without its edges. -/
def leftBehind : FileState where
  graph := {
    nodes := [.start, .new "a" .fragment]
    edges := [edge "s" 1 startId "a", edge "t" 1 startId "a"]
    metadata := .empty }
  book := ⟨[idleSession "s" ["a"]], some "s"⟩

theorem isStray_leftBehind : leftBehind.IsStray (edgeId "t" 1) :=
  ⟨edge "t" 1 startId "a", by simp [leftBehind], rfl, "t", rfl, by decide⟩

/-- The deletion of the session's own step is told, the one of the other step is not. -/
theorem removeEdge_tells_iff_leftBehind :
    (∀ f, (empty.setFile "f" leftBehind).file? "f" = some f →
      (f.graph.edges.map Edge.id).Nodup) ∧
    (empty.setFile "f" leftBehind).Tells "f" (edgeId "s" 1) (Clock.now ⟨1⟩)
      ((empty.setFile "f" leftBehind).removeEdge "f" (edgeId "s" 1) (Clock.now ⟨1⟩)).1
      ((empty.setFile "f" leftBehind).removeEdge "f" (edgeId "s" 1) (Clock.now ⟨1⟩)).2 ∧
    ¬(empty.setFile "f" leftBehind).Tells "f" (edgeId "t" 1) (Clock.now ⟨1⟩)
      ((empty.setFile "f" leftBehind).removeEdge "f" (edgeId "t" 1) (Clock.now ⟨1⟩)).1
      ((empty.setFile "f" leftBehind).removeEdge "f" (edgeId "t" 1) (Clock.now ⟨1⟩)).2 := by
  have hfile := file?_setFile_self empty "f" leftBehind
  have hids : (leftBehind.graph.edges.map Edge.id).Nodup := by decide
  have hall : ∀ f, (empty.setFile "f" leftBehind).file? "f" = some f →
      (f.graph.edges.map Edge.id).Nodup := by
    rw [hfile]
    rintro _ ⟨⟩
    exact hids
  refine ⟨hall, (removeEdge_tells_iff hall _ _).1.mpr fun f hf => ?_, fun h => ?_⟩
  · cases hfile.symm.trans hf
    refine FileState.not_isStray hids (e := edge "s" 1 startId "a") (List.mem_cons_self ..) ?_
    rintro _ ⟨⟩
    decide
  · exact (removeEdge_tells_iff hall _ _).1.mp h leftBehind hfile isStray_leftBehind

/-- The step of a session that is gone goes, although nothing is given. -/
theorem not_always_told : ¬∀ (w : Workspace) (file : String) (id : EdgeId) (now : Instant),
    (∀ f, w.file? file = some f → (f.graph.edges.map Edge.id).Nodup ∧ f.book.names.Nodup) →
    w.Tells file id now (w.removeEdge file id now).1 (w.removeEdge file id now).2 := by
  intro h
  have hfile := file?_setFile_self empty "f" leftBehind
  have hids : (leftBehind.graph.edges.map Edge.id).Nodup := by decide
  refine (tells_removeEdge hfile hids (edgeId "t" 1) (Clock.now ⟨0⟩)).mp (h _ _ _ _ ?_)
    isStray_leftBehind
  rw [hfile]
  rintro _ ⟨⟩
  exact ⟨hids, by decide⟩

end Workspace

end Runbook
