import Runbook.Proofs.Splices

/-!
# Whose steps there are

Loading a file draws the steps of its sessions and no others, and no change leaves a step behind
without its session. So there are no steps under a name that is free, and a session that is
started under it begins without any.

* `FileState.Owned`: every step is one of a session in the book
* `Update.owned_onFile`: kept by every update
* `Workspace.stepsOf`: the edges that are steps of a session
* `Workspace.stepsOf_after`: there are none under a free name
-/

namespace Runbook

namespace Session

/-- Cutting one step out of a session draws steps of that session only. -/
theorem mem_of_mem_removeStep {id : EdgeId} {now : Instant} {es : List Edge} {s : Session}
    {e : Edge} (he : e ∈ (s.removeStep id now es).2.1) : e ∈ es ∨ e.isExecutionOf s.id = true := by
  rcases s.removeStep_cases id now es with ⟨-, heq⟩ | heq | ⟨_, _, _, rest, -, -, -, hat, heq⟩
  · rw [heq] at he
    exact .inl he
  · rw [heq] at he
    exact .inl he
  · rw [heq] at he
    rcases mem_rebuildEdges.mp he with ⟨hold, -⟩ | hnew
    · exact .inl hold
    · exact .inr (id_rest hat ▸ isExecutionOf_of_mem_edges hnew)

theorem mem_of_mem_removePositions (now : Instant) (positions : List Nat) :
    ∀ {count : Nat} {es : List Edge} {s : Session} {e : Edge},
      e ∈ (s.removePositions now count es positions).2.1 →
        e ∈ es ∨ e.isExecutionOf s.id = true := by
  induction positions with
  | nil => exact .inl
  | cons position rest ih =>
    intro count es s e he
    have hredrawn : ∀ {e : Edge}, e ∈ (if es.any fun e => e.id = edgeId s.id position then es
        else s.rebuildEdges es) → e ∈ es ∨ e.isExecutionOf s.id = true := by
      intro e he
      split at he
      · exact .inl he
      · exact (mem_rebuildEdges.mp he).imp And.left isExecutionOf_of_mem_edges
    have hcut : ∀ {e : Edge}, e ∈ (s.removeStep (edgeId s.id position) now
        (if es.any fun e => e.id = edgeId s.id position then es else s.rebuildEdges es)).2.1 →
        e ∈ es ∨ e.isExecutionOf s.id = true := fun he =>
      (mem_of_mem_removeStep he).elim hredrawn .inr
    have hid := s.id_removeStep (edgeId s.id position) now
      (if es.any fun e => e.id = edgeId s.id position then es else s.rebuildEdges es)
    rw [removePositions] at he
    split at he
    · rename_i heq
      rw [heq] at hcut hid
      rcases ih he with hold | hnew
      · exact hcut hold
      · exact .inr (hid ▸ hnew)
    · rename_i heq
      rw [heq] at hcut
      exact hcut he

end Session

namespace FileState

/-- Taking a node out of sessions draws steps of these sessions only. -/
theorem mem_of_mem_repairSessions (node : NodeId) (now : Instant) (sessions : List Session) :
    ∀ {es : List Edge} {e : Edge}, e ∈ (repairSessions node now sessions es).2.1 →
      e ∈ es ∨ ∃ s ∈ sessions, e.isExecutionOf s.id = true := by
  induction sessions with
  | nil => exact .inl
  | cons s rest ih =>
    intro es e he
    rw [repairSessions] at he
    split at he
    · rcases ih he with hold | ⟨t, ht, hown⟩
      · rcases Session.mem_of_mem_removePositions now _ hold with hold | hown
        · exact .inl hold
        · exact .inr ⟨s, List.mem_cons_self, hown⟩
      · exact .inr ⟨t, List.mem_cons_of_mem _ ht, hown⟩
    · rcases ih he with hold | ⟨t, ht, hown⟩
      · exact .inl hold
      · exact .inr ⟨t, List.mem_cons_of_mem _ ht, hown⟩

/-- Every step is one of a session in the book. -/
def Owned (f : FileState) : Prop :=
  ∀ e ∈ f.graph.edges, ∀ name, e.isExecutionOf name = true → name ∈ f.book.names

theorem owned_load (g : Graph) (b : Book) : (load g b).Owned := by
  have hfold : ∀ (sessions : List Session) (es : List Edge) (e : Edge),
      e ∈ sessions.foldl (fun es s => s.rebuildEdges es) es →
        e ∈ es ∨ ∃ s ∈ sessions, e.isExecutionOf s.id = true := by
    intro sessions
    induction sessions with
    | nil => exact fun _ _ => .inl
    | cons s rest ih =>
      intro es e he
      rcases ih _ e he with he | ⟨t, ht, hown⟩
      · rcases Session.mem_rebuildEdges.mp he with ⟨hold, -⟩ | hnew
        · exact .inl hold
        · exact .inr ⟨s, List.mem_cons_self, Session.isExecutionOf_of_mem_edges hnew⟩
      · exact .inr ⟨t, List.mem_cons_of_mem _ ht, hown⟩
  intro e he name hown
  rcases hfold _ _ e he with hplain | ⟨s, hs, howns⟩
  · have hnot := (List.mem_filter.mp hplain).2
    rw [Session.isExecution_of_isExecutionOf hown] at hnot
    cases hnot
  · rw [Session.eq_of_isExecutionOf hown howns]
    exact List.mem_map_of_mem hs

end FileState

/-- What a change other than the deletion of a session draws are steps of sessions that were in the
book before. -/
theorem Update.mem_names_of_mem_onFile (u : Update) (file : String) {f : FileState} {e : Edge}
    {name : String} (he : e ∈ (u.onFile file f).graph.edges) (hown : e.isExecutionOf name = true) :
    e ∈ f.graph.edges ∨ name ∈ f.book.names := by
  have hnamed : ∀ {s : Session} {session : String}, f.book.get? session = some s →
      e.isExecutionOf s.id = true → name ∈ f.book.names := by
    intro s session hs howns
    rw [Session.eq_of_isExecutionOf hown howns]
    exact List.mem_map_of_mem (List.mem_of_find?_eq_some hs)
  cases u with
  | start session now =>
    rw [onFile] at he
    split at he <;> exact .inl he
  | commit session node r now =>
    rw [onFile] at he
    cases hcommit : f.commit? session node r now with
    | none => exact .inl (by rwa [hcommit] at he)
    | some p =>
      obtain ⟨s, hs, -, -, heq⟩ := FileState.commit?_eq_some hcommit
      rw [hcommit, Option.map_some, Option.getD_some, heq, Session.appendEdge_push] at he
      rcases List.mem_append.mp he with he | he
      · exact .inl he
      · refine .inr (hnamed hs ?_)
        rw [List.mem_singleton.mp he]
        exact Session.isExecutionOf_edge ..
  | commitReplay scratch =>
    rw [onFile] at he
    cases hcommit : f.commitReplay? scratch with
    | none => exact .inl (by rwa [hcommit] at he)
    | some f' =>
      obtain ⟨s, hs, rfl⟩ := FileState.commitReplay?_eq_some hcommit
      rw [hcommit, Option.getD_some] at he
      refine (Session.mem_rebuildEdges.mp he).imp And.left fun hnew => hnamed hs ?_
      rw [(Book.exists_split hs).1]
      exact Session.isExecutionOf_of_mem_edges hnew
  | removeEdge id now =>
    rw [onFile] at he
    rcases f.removeEdge_cases id now with heq | ⟨_, _, -, -, heq⟩ |
      ⟨_, s, _, _, rest, -, -, hs, hat, heq⟩
    · rw [heq] at he
      exact .inl he
    · rw [heq] at he
      exact .inl (List.mem_filter.mp he).1
    · rw [heq] at he
      refine (Session.mem_rebuildEdges.mp he).imp And.left fun hnew => hnamed hs ?_
      rw [← Session.id_rest hat]
      exact Session.isExecutionOf_of_mem_edges hnew
  | removeNode node now =>
    rw [onFile, FileState.removeNode] at he
    split at he
    · exact .inl he
    · rcases List.mem_append.mp he with he | he
      · have hrepaired := (List.mem_filter.mp (List.mem_filter.mp he).1).1
        refine (FileState.mem_of_mem_repairSessions node now _ hrepaired).imp_right ?_
        rintro ⟨s, hs, howns⟩
        rw [Session.eq_of_isExecutionOf hown howns]
        exact List.mem_map_of_mem hs
      · have hplain := Relations.not_isExecution_of_mem_infer he
        rw [Session.isExecution_of_isExecutionOf hown] at hplain
        cases hplain
  | removeSession session =>
    rw [onFile] at he
    cases hremove : f.removeSession? session with
    | none => exact .inl (by rwa [hremove] at he)
    | some p =>
      obtain ⟨q, -, rfl⟩ := Option.map_eq_some_iff.mp hremove
      rw [hremove] at he
      exact .inl (List.mem_filter.mp he).1
  | refresh =>
    rcases List.mem_append.mp he with he | he
    · exact .inl (List.mem_filter.mp he).1
    · have hplain := Relations.not_isExecution_of_mem_infer he
      rw [Session.isExecution_of_isExecutionOf hown] at hplain
      cases hplain

/-- No update leaves steps without their session. -/
theorem Update.owned_onFile (u : Update) (file : String) {f : FileState} (h : f.Owned) :
    (u.onFile file f).Owned := by
  intro e he name hown
  have hmem : name ∈ f.book.names :=
    (u.mem_names_of_mem_onFile file he hown).elim (fun hold => h e hold name hown) id
  rcases u.names_onFile file f with heq | ⟨_, -, heq⟩ | ⟨session, rfl, heq⟩
  · rw [heq]
    exact hmem
  · rw [heq]
    exact List.mem_append_left _ hmem
  · rw [heq]
    -- the steps of the session that goes are gone as well
    refine (List.mem_erase_of_ne ?_).mpr hmem
    rintro rfl
    rw [onFile] at he
    cases hremove : f.removeSession? name with
    | none =>
      have hthere := Book.contains_iff.mpr hmem
      obtain ⟨s, hs⟩ := Option.isSome_iff_exists.mp hthere
      rw [FileState.removeSession?, Book.remove?, hs] at hremove
      cases hremove
    | some p =>
      obtain ⟨q, -, rfl⟩ := Option.map_eq_some_iff.mp hremove
      rw [hremove] at he
      rw [(Session.mem_otherEdges.mp he).2] at hown
      cases hown

namespace Workspace

/-- The edges of a file that are steps of a session. -/
def stepsOf (w : Workspace) (file session : String) : List Edge :=
  match w.file? file with
  | some f => Session.stepsIn session f.graph.edges
  | none => []

/-- In a file that was loaded and changed since, there are no steps under a name that is free. -/
theorem stepsOf_after (w : Workspace) (file : String) (g : Graph) (b : Book)
    (us : List (String × Update)) {session : String}
    (hfree : ((w.insertFile file g b).after us).session? file session = none) :
    ((w.insertFile file g b).after us).stepsOf file session = [] := by
  have hloaded : (w.insertFile file g b).file? file = some (.load g b) :=
    file?_setFile_self w file _
  obtain ⟨f, hf, h⟩ := exists_file?_after (fun u f => u.owned_onFile file) us hloaded
    (FileState.owned_load g b)
  rw [session?, hf, Option.bind_some] at hfree
  rw [stepsOf, hf]
  refine List.filter_eq_nil_iff.mpr fun e he hown => ?_
  have hthere := Book.contains_iff.mpr (h e he session hown)
  rw [Book.contains, hfree] at hthere
  cases hthere

end Workspace

end Runbook
