import Runbook.Proofs.Updates

/-!
# What updates leave alone

An update is about one session, by name or by the name of one of its edges, and leaves the others
as they are. Deleting a node is the exception, which may change any session.

* `Book.find?_replaceFirst`: looking up a session after one was replaced
* `Session.keeps_repairSessions`: what redrawing chains keeps is kept when steps are taken out
* `Session.Drawn`: every step bears the name of a step of its own session
* `Update.drawn_onFile`: kept by every update
* `FileState.get?_removeEdge`: all that deleting an edge can do to the sessions
* `Update.IsAbout`, `Update.get?_onFile`: the sessions that an update may change, and the others
* `Workspace.session?_apply_of_not`: the same for all files
* `FileState.Current`, `FileState.Current.onFile`: the next execution starts from the state that
  the last one left
-/

namespace Runbook

/-! ## Lookups -/

namespace Book

theorem find?_replaceFirst {name : String} {t : Session} (ht : t.id = name) (other : String)
    (ss : List Session) : (replaceFirst name t ss).find? (fun s => s.id = other) =
      if other = name then (ss.find? fun s => s.id = name).map fun _ => t
      else ss.find? fun s => s.id = other := by
  induction ss with
  | nil =>
    rw [replaceFirst]
    split <;> rfl
  | cons s rest ih =>
    rw [replaceFirst]
    by_cases hs : s.id = name
    · rw [if_pos hs, List.find?_cons, List.find?_cons, List.find?_cons, ht, hs]
      by_cases hother : other = name
      · simp [hother]
      · simp [hother, Ne.symm hother]
    · rw [if_neg hs, List.find?_cons, List.find?_cons, List.find?_cons, ih]
      by_cases hother : other = name
      · simp [hother, hs]
      · rw [if_neg hother, if_neg hother]

theorem get?_of_first {pre post : List Session} {name : String} {s : Session}
    {primary : Option String} (hpre : ∀ t ∈ pre, t.id ≠ name) (hs : s.id = name) :
    get? ⟨pre ++ s :: post, primary⟩ name = some s := by
  have hnone : pre.find? (fun t => t.id = name) = none :=
    List.find?_eq_none.mpr fun t ht heq => hpre t ht (of_decide_eq_true heq)
  rw [get?, List.find?_append, hnone, Option.none_or]
  exact List.find?_cons_of_pos (decide_eq_true hs)

theorem get?_replace_self {b : Book} {name : String} {s t : Session} (h : b.get? name = some s)
    (ht : t.id = name) : (b.replace name t).get? name = some t := by
  rw [get?] at h
  rw [get?, replace, find?_replaceFirst ht, if_pos rfl, h, Option.map_some]

theorem get?_replace_of_ne (b : Book) {name other : String} {t : Session} (ht : t.id = name)
    (hne : other ≠ name) : (b.replace name t).get? other = b.get? other := by
  rw [get?, replace, find?_replaceFirst ht, if_neg hne, get?]

@[simp] theorem get?_setPrimary (b : Book) (name other : String) :
    (b.setPrimary name).get? other = b.get? other := by
  rw [get?, sessions_setPrimary, get?]

@[simp] theorem get?_refreshPrimary (b : Book) (name : String) :
    b.refreshPrimary.get? name = b.get? name := by
  rw [get?, sessions_refreshPrimary, get?]

/-- A session at the end is found if its name was free. -/
theorem get?_concat {b : Book} {s : Session} (hfree : b.get? s.id = none)
    (primary : Option String) : get? ⟨b.sessions ++ [s], primary⟩ s.id = some s := by
  rw [get?] at hfree ⊢
  rw [List.find?_append, hfree, Option.none_or]
  exact List.find?_cons_of_pos (decide_eq_true rfl)

theorem get?_start {b b' : Book} {file name : String} {now : Instant} {s : Session}
    (h : b.start file name now = .ok (s, b')) :
    b.get? name = none ∧ b'.get? name = some (.new name now) ∧
      ∀ other, other ≠ name → b'.get? other = b.get? other := by
  rw [start] at h
  split at h
  · cases h
  · rename_i hfree
    cases h
    have hnone : b.get? name = none := by
      rw [contains, Option.not_isSome_iff_eq_none] at hfree
      exact hfree
    refine ⟨hnone, get?_concat (s := .new name now) hnone _, fun other hne => ?_⟩
    rw [get?, List.find?_append,
      List.find?_cons_of_neg fun heq => hne (of_decide_eq_true heq).symm, List.find?_nil,
      Option.or_none, get?]

theorem get?_remove? {b b' : Book} {name other : String} {s : Session}
    (h : b.remove? name = some (s, b')) (hne : other ≠ name) : b'.get? other = b.get? other := by
  obtain ⟨t, hget, heq⟩ := Option.map_eq_some_iff.mp h
  obtain ⟨hid, pre, post, hsplit, -, -, herase⟩ := exists_split hget
  cases heq
  rw [get?, herase, List.find?_append, get?, hsplit, List.find?_append,
    List.find?_cons_of_neg (by simpa [hid] using hne.symm)]

end Book

namespace Session

theorem id_removeStep (s : Session) (id : EdgeId) (now : Instant) (es : List Edge) :
    (s.removeStep id now es).2.2.id = s.id := by
  rcases s.removeStep_cases id now es with ⟨-, heq⟩ | heq |
    ⟨e, position, x, rest, -, -, -, hat, heq⟩
  · rw [heq]
  · rw [heq]
  · rw [heq]
    exact id_rest hat

theorem id_removePositions (now : Instant) (positions : List Nat) :
    ∀ (count : Nat) (es : List Edge) (s : Session),
      (s.removePositions now count es positions).2.2.id = s.id := by
  induction positions with
  | nil => exact fun _ _ _ => rfl
  | cons position rest ih =>
    intro count es s
    rw [removePositions]
    generalize (if es.any fun e => e.id = edgeId s.id position then es else s.rebuildEdges es) = es'
    have hid := s.id_removeStep (edgeId s.id position) now es'
    split
    · rename_i heq
      rw [heq] at hid
      exact (ih ..).trans hid
    · rename_i heq
      rw [heq] at hid
      exact hid

/-! ## Redrawing

Taking out steps does nothing to the edges but redraw chains. What every redrawing keeps is kept.
-/

section

variable {P : List Edge → Prop} (hP : ∀ (s : Session) (es : List Edge), P es → P (s.rebuildEdges es))

include hP

theorem keeps_removeStep {es : List Edge} (h : P es) (id : EdgeId) (now : Instant) (s : Session) :
    P (s.removeStep id now es).2.1 := by
  rcases s.removeStep_cases id now es with ⟨-, heq⟩ | heq | ⟨e, position, x, rest, -, -, -, -, heq⟩
  · rw [heq]
    exact h
  · rw [heq]
    exact h
  · rw [heq]
    exact hP rest es h

theorem keeps_removePositions (now : Instant) (positions : List Nat) :
    ∀ {count : Nat} {es : List Edge} {s : Session}, P es →
      P (s.removePositions now count es positions).2.1 := by
  induction positions with
  | nil => exact fun h => h
  | cons position rest ih =>
    intro count es s h
    rw [Session.removePositions]
    have hredrawn : P (if es.any fun e => e.id = edgeId s.id position then es
        else s.rebuildEdges es) := by
      split
      · exact h
      · exact hP s es h
    have hcut := keeps_removeStep hP hredrawn (edgeId s.id position) now s
    split
    · rename_i heq
      rw [heq] at hcut
      exact ih hcut
    · rename_i heq
      rw [heq] at hcut
      exact hcut

theorem keeps_repairSessions (node : NodeId) (now : Instant) (sessions : List Session) :
    ∀ {es : List Edge}, P es → P (FileState.repairSessions node now sessions es).2.1 := by
  induction sessions with
  | nil => exact fun h => h
  | cons s rest ih =>
    intro es h
    rw [FileState.repairSessions]
    split
    · exact ih (keeps_removePositions hP now _ h)
    · exact ih h

end

/-! ## Names of steps -/

/-- Every step is named as one of its session. -/
def Drawn (es : List Edge) : Prop :=
  ∀ e ∈ es, ∀ name, e.isExecutionOf name = true → ∃ position, e.id = edgeId name position

namespace Drawn

variable {es : List Edge}

theorem filter (h : Drawn es) (p : Edge → Bool) : Drawn (es.filter p) := fun e he =>
  h e (List.mem_filter.mp he).1

theorem append {es' : List Edge} (h : Drawn es) (h' : Drawn es') : Drawn (es ++ es') := by
  intro e he
  rcases List.mem_append.mp he with he | he
  · exact h e he
  · exact h' e he

theorem of_edge (session : String) (position : Nat) (source target : NodeId) :
    Drawn [edge session position source target] := by
  intro e he name hown
  rw [List.mem_singleton.mp he] at hown ⊢
  exact ⟨position, by rw [eq_of_isExecutionOf hown (isExecutionOf_edge ..)]; rfl⟩

theorem of_edges (s : Session) : Drawn s.edges := by
  intro e he
  obtain ⟨i, source, target, -, -, -, -, rfl⟩ := mem_edges he
  exact of_edge s.id i source target _ (List.mem_singleton_self _)

theorem rebuildEdges (h : Drawn es) (s : Session) : Drawn (s.rebuildEdges es) :=
  (h.filter _).append (of_edges s)

theorem appendEdge (h : Drawn es) (s : Session) : Drawn (s.appendEdge es) := by
  rw [Session.appendEdge]
  split
  · exact h
  · exact h.append (of_edge _ _ _ _)
  · exact h.append (of_edge _ _ _ _)

end Drawn

end Session

/-- The steps of a file that was just loaded are named as such. -/
theorem FileState.drawn_load (g : Graph) (b : Book) :
    Session.Drawn (FileState.load g b).graph.edges := by
  have hfold : ∀ (sessions : List Session) (es : List Edge), Session.Drawn es →
      Session.Drawn (sessions.foldl (fun es s => s.rebuildEdges es) es) := by
    intro sessions
    induction sessions with
    | nil => exact fun _ h => h
    | cons s rest ih => exact fun es h => ih _ (h.rebuildEdges s)
  refine hfold b.sessions _ ?_
  intro e he name hown
  have hplain := (List.mem_filter.mp he).2
  rw [Session.isExecution_of_isExecutionOf hown] at hplain
  cases hplain

/-- Deleting an edge leaves all sessions, or else takes a step out of the session whose step the
edge is and leaves the others. -/
theorem FileState.get?_removeEdge (f : FileState) (id : EdgeId) (now : Instant) :
    (∀ name, (f.removeEdge id now).2.book.get? name = f.book.get? name) ∨
      ∃ e s s', f.graph.edge? id = some e ∧ e.kind.session? = some s.id ∧
        (f.removeEdge id now).1 ≠ none ∧
        f.book.get? s.id = some s ∧ (f.removeEdge id now).2.book.get? s.id = some s' ∧
        s'.length < s.length ∧
        ∀ name, name ≠ s.id → (f.removeEdge id now).2.book.get? name = f.book.get? name := by
  rcases f.removeEdge_cases id now with heq | ⟨_, _, -, -, heq⟩ |
    ⟨e, s, position, x, rest, hfind, hkind, hs, hat, heq⟩
  · rw [heq]
    exact .inl fun _ => rfl
  · rw [heq]
    exact .inl fun _ => rfl
  · rw [heq]
    have hid := Session.id_rest hat
    have hlength := Session.length_rest hat
    simp only [Book.get?_refreshPrimary]
    exact .inr ⟨e, s, rest, hfind, hkind, nofun, hs, Book.get?_replace_self hs hid, by omega,
      fun name hne => Book.get?_replace_of_ne f.book hid hne⟩

namespace Update

theorem drawn_onFile (u : Update) (file : String) {f : FileState}
    (h : Session.Drawn f.graph.edges) : Session.Drawn (u.onFile file f).graph.edges := by
  cases u with
  | start name now =>
    rw [onFile]
    split <;> exact h
  | commit session node r now =>
    rw [onFile]
    cases hcommit : f.commit? session node r now with
    | none => exact h
    | some p =>
      obtain ⟨s, -, -, -, heq⟩ := FileState.commit?_eq_some hcommit
      rw [Option.map_some, Option.getD_some, heq]
      exact h.appendEdge _
  | commitReplay scratch =>
    rw [onFile]
    cases hcommit : f.commitReplay? scratch with
    | none => exact h
    | some f' =>
      obtain ⟨-, -, rfl⟩ := FileState.commitReplay?_eq_some hcommit
      exact h.rebuildEdges scratch
  | removeEdge id now =>
    rw [onFile]
    rcases f.removeEdge_cases id now with heq | ⟨_, _, -, -, heq⟩ |
      ⟨_, _, _, _, rest, -, -, -, -, heq⟩
    · rw [heq]
      exact h
    · rw [heq]
      exact h.filter _
    · rw [heq]
      exact h.rebuildEdges rest
  | removeNode node now =>
    rw [onFile, FileState.removeNode]
    split
    · exact h
    · have hrepair := Session.keeps_repairSessions (fun s _ h => h.rebuildEdges s) node now
        f.book.sessions h
      refine ((hrepair.filter _).filter _).append fun e he name hown => ?_
      have hplain := Relations.not_isExecution_of_mem_infer he
      rw [Session.isExecution_of_isExecutionOf hown] at hplain
      cases hplain
  | removeSession name =>
    rw [onFile]
    cases hremove : f.removeSession? name with
    | none => exact h
    | some p =>
      obtain ⟨q, -, rfl⟩ := Option.map_eq_some_iff.mp hremove
      exact h.filter _
  | refresh =>
    refine (h.filter _).append fun e he name hown => ?_
    have hplain := Relations.not_isExecution_of_mem_infer he
    rw [Session.isExecution_of_isExecutionOf hown] at hplain
    cases hplain

/-! ## Other sessions -/

/-- The sessions that an update may change. -/
def IsAbout (name : String) : Update → Prop
  | start session _ => session = name
  | commit session _ _ _ => session = name
  | commitReplay scratch => scratch.id = name
  | removeEdge id _ => ∃ position, id = Session.edgeId name position
  | removeNode _ _ => True
  | removeSession session => session = name
  | refresh => False

/-- An update leaves the sessions that it is not about. For edges that are deleted, their names
have to say which session they are about. -/
theorem get?_onFile {u : Update} {name : String} (file : String) {f : FileState}
    (hdrawn : ∀ id now, u = removeEdge id now → Session.Drawn f.graph.edges)
    (hu : ¬ u.IsAbout name) :
    (u.onFile file f).book.get? name = f.book.get? name := by
  cases u with
  | start session now =>
    rw [onFile]
    split
    · rename_i hstart
      exact (Book.get?_start hstart).2.2 name (Ne.symm hu)
    · rfl
  | commit session node r now =>
    rw [onFile]
    cases hcommit : f.commit? session node r now with
    | none => rfl
    | some p =>
      obtain ⟨s, hs, -, -, heq⟩ := FileState.commit?_eq_some hcommit
      rw [Option.map_some, Option.getD_some, heq, Book.get?_setPrimary]
      exact Book.get?_replace_of_ne f.book (Book.exists_split hs).1 (Ne.symm hu)
  | commitReplay scratch =>
    rw [onFile]
    cases hcommit : f.commitReplay? scratch with
    | none => rfl
    | some f' =>
      obtain ⟨-, -, rfl⟩ := FileState.commitReplay?_eq_some hcommit
      rw [Option.getD_some, Book.get?_setPrimary]
      exact Book.get?_replace_of_ne f.book rfl (Ne.symm hu)
  | removeEdge id now =>
    rcases f.get?_removeEdge id now with hsame | ⟨e, s, s', hfind, hkind, -, -, -, -, hothers⟩
    · exact hsame name
    · -- the edge bears the name of a step of its own session, which is another one
      have hid : e.id = id := by simpa using List.find?_some hfind
      obtain ⟨position, hposition⟩ := hdrawn id now rfl e (List.mem_of_find?_eq_some hfind) s.id
        (Session.isExecutionOf_of_session? hkind)
      have hne : name ≠ s.id := by
        rintro rfl
        exact hu ⟨position, hid.symm.trans hposition⟩
      exact hothers name hne
  | removeNode node now => exact absurd trivial hu
  | removeSession session =>
    rw [onFile]
    cases hremove : f.removeSession? session with
    | none => rfl
    | some p =>
      obtain ⟨q, hq, rfl⟩ := Option.map_eq_some_iff.mp hremove
      exact Book.get?_remove? hq (Ne.symm hu)
  | refresh => rfl

/-- Nobody starts a session that is there. -/
theorem get?_onFile_start {name session : String} {now : Instant} {s : Session} (file : String)
    {f : FileState} (hs : f.book.get? name = some s) :
    ((start session now).onFile file f).book.get? name = some s := by
  rw [onFile]
  split
  · rename_i hstart
    obtain ⟨hfree, -, hothers⟩ := Book.get?_start hstart
    have hne : name ≠ session := by
      rintro rfl
      rw [hs] at hfree
      cases hfree
    exact (hothers name hne).trans hs
  · exact hs

end Update

/-! ## Whole workspaces -/

namespace Workspace

/-- Every step of a file is named as one of its session. -/
def Drawn (w : Workspace) : Prop := ∀ file f, w.file? file = some f → Session.Drawn f.graph.edges

theorem Drawn.apply {w : Workspace} (h : w.Drawn) (u : Update) (file : String) :
    (u.apply file w).Drawn := by
  intro other f hf
  by_cases hfile : other = file
  · rw [hfile, Update.file?_apply] at hf
    obtain ⟨f', hf', rfl⟩ := Option.map_eq_some_iff.mp hf
    exact u.drawn_onFile file (h file f' hf')
  · rw [Update.file?_apply_of_ne _ _ hfile] at hf
    exact h other f hf

theorem session?_apply (u : Update) (file name : String) (w : Workspace) :
    (u.apply file w).session? file name =
      (w.file? file).bind fun f => (u.onFile file f).book.get? name := by
  rw [session?, Update.file?_apply, Option.bind_map]
  rfl

/-- An update leaves the sessions of other files and those that it is not about. -/
theorem session?_apply_of_not {w : Workspace} {u : Update}
    (hdrawn : ∀ id now, u = .removeEdge id now → w.Drawn) {file other name : String}
    (h : other = file → ¬ u.IsAbout name) :
    (u.apply file w).session? other name = w.session? other name := by
  by_cases hfile : other = file
  · rw [hfile, session?_apply, session?]
    cases hf : w.file? file with
    | none => rfl
    | some f =>
      exact Update.get?_onFile file (fun id now hu => hdrawn id now hu file f hf) (h hfile)
  · rw [session?, Update.file?_apply_of_ne _ _ hfile, session?]

/-- Nobody starts a session that is there. -/
theorem session?_apply_start {w : Workspace} {file other name session : String} {now : Instant}
    {s : Session} (hs : w.session? other name = some s) :
    ((Update.start session now).apply file w).session? other name = some s := by
  by_cases hfile : other = file
  · subst hfile
    obtain ⟨f, hf, hget⟩ := Option.bind_eq_some_iff.mp hs
    rw [session?_apply, hf]
    exact Update.get?_onFile_start other hget
  · rw [session?, Update.file?_apply_of_ne _ _ hfile]
    exact hs

/-- A session that is started is empty. -/
theorem startSession_eq_ok {w w' : Workspace} {file name : String} {now : Instant} {s : Session}
    (h : w.startSession file name now = .ok (s, w')) :
    s = .new name now ∧ w'.session? file name = some s := by
  rw [startSession] at h
  split at h
  · cases h
  · rename_i f hf
    cases hstart : f.book.start file name now with
    | error fault =>
      rw [hstart] at h
      cases h
    | ok p =>
      obtain ⟨t, b⟩ := p
      rw [hstart] at h
      cases h
      have hget := (Book.get?_start hstart).2.1
      obtain rfl : s = .new name now := by
        rw [Book.start] at hstart
        split at hstart
        · cases hstart
        · cases hstart
          rfl
      rw [session?, file?_setFile_self]
      exact ⟨rfl, hget⟩

/-- What is recorded is put at the end of the session. -/
theorem commit?_eq_some {w w' : Workspace} {file session : String} {node : NodeId}
    {r : RunResult} {now : Instant} {e : Execution} {state : Snapshot}
    (h : w.commit? file session node r now = some ((e, state), w')) :
    ∃ s, w.session? file session = some s ∧ w'.session? file session = some (s.push e now) ∧
      state = (s.push e now).overall := by
  obtain ⟨f, hf, hmap⟩ := Option.bind_eq_some_iff.mp h
  obtain ⟨⟨⟨e', state'⟩, f'⟩, hmap', heq⟩ := Option.map_eq_some_iff.mp hmap
  cases heq
  obtain ⟨⟨e', state', f'⟩, hfile, heq⟩ := Option.map_eq_some_iff.mp hmap'
  cases heq
  obtain ⟨s, hs, -, rfl, rfl⟩ := FileState.commit?_eq_some hfile
  refine ⟨s, ?_, ?_, rfl⟩
  · rw [session?, hf]
    exact hs
  · rw [session?, file?_setFile_self, Option.bind_some, Book.get?_setPrimary]
    exact Book.get?_replace_self hs (Book.exists_split hs).1

end Workspace

/-! ## Where sessions go on from -/

namespace Session

/-- The next execution starts from the state that the last one left. -/
def Current (s : Session) : Prop := s.overall = lastState s.executions

theorem current_push (s : Session) (e : Execution) (now : Instant) : (s.push e now).Current := by
  rw [Current, lastState, push, List.getLast?_concat]

theorem Current.removeStep {s : Session} (h : s.Current) (id : EdgeId) (now : Instant)
    (es : List Edge) : (s.removeStep id now es).2.2.Current := by
  rcases s.removeStep_cases id now es with ⟨-, heq⟩ | heq |
    ⟨e, position, x, rest, -, -, -, hat, heq⟩
  · rw [heq]
    exact h
  · rw [heq]
    exact h
  · rw [heq]
    obtain ⟨-, -, rfl⟩ := removeAt?_eq_some.mp hat
    rfl

theorem Current.removePositions (now : Instant) (positions : List Nat) :
    ∀ {count : Nat} {es : List Edge} {s : Session}, s.Current →
      (s.removePositions now count es positions).2.2.Current := by
  induction positions with
  | nil => exact fun h => h
  | cons position rest ih =>
    intro count es s h
    rw [Session.removePositions]
    generalize (if es.any fun e => e.id = edgeId s.id position then es else s.rebuildEdges es) = es'
    have hcut := h.removeStep (edgeId s.id position) now es'
    split
    · rename_i heq
      rw [heq] at hcut
      exact ih hcut
    · rename_i heq
      rw [heq] at hcut
      exact hcut

end Session

theorem Book.mem_replaceFirst {name : String} {s t : Session} {ss : List Session}
    (h : s ∈ replaceFirst name t ss) : s = t ∨ s ∈ ss := by
  induction ss with
  | nil => cases h
  | cons u rest ih =>
    rw [replaceFirst] at h
    split at h
    · rcases List.mem_cons.mp h with rfl | h
      · exact .inl rfl
      · exact .inr (List.mem_cons_of_mem _ h)
    · rcases List.mem_cons.mp h with rfl | h
      · exact .inr (List.mem_cons_self ..)
      · exact (ih h).imp_right (List.mem_cons_of_mem _)

namespace FileState

/-- Every session of this name goes on from where its last execution ended. -/
def Current (name : String) (f : FileState) : Prop := ∀ s ∈ f.book.sessions, s.id = name → s.Current

theorem current_repairSessions {name : String} (node : NodeId) (now : Instant)
    (sessions : List Session) : ∀ {es : List Edge}, (∀ s ∈ sessions, s.id = name → s.Current) →
      ∀ s ∈ (repairSessions node now sessions es).2.2, s.id = name → s.Current := by
  induction sessions with
  | nil => exact fun _ s hs => absurd hs List.not_mem_nil
  | cons u rest ih =>
    intro es h
    have hu : u.id = name → u.Current := h u (List.mem_cons_self ..)
    have hrest : ∀ s ∈ rest, s.id = name → s.Current := fun s hs => h s (List.mem_cons_of_mem _ hs)
    rw [repairSessions]
    split
    · intro s hs hid
      rcases List.mem_cons.mp hs with rfl | hs
      · exact (hu ((u.id_removePositions now _ 0 es).symm.trans hid)).removePositions now _
      · exact ih hrest s hs hid
    · intro s hs hid
      rcases List.mem_cons.mp hs with rfl | hs
      · exact hu hid
      · exact ih hrest s hs hid

/-- An update keeps sessions going on from where they ended, if a session run anew does so. -/
theorem Current.onFile {name : String} {f : FileState} (h : f.Current name) (u : Update)
    (file : String) (hscratch : ∀ s, u = .commitReplay s → s.Current) :
    (u.onFile file f).Current name := by
  -- a session that is put in the place of another need be current only if it bears the name
  have hreplace : ∀ {session : String} {t : Session}, (t.id = name → t.Current) →
      ∀ s ∈ (f.book.replace session t).sessions, s.id = name → s.Current := by
    intro session t ht s hs hid
    rcases Book.mem_replaceFirst hs with rfl | hs
    · exact ht hid
    · exact h s hs hid
  cases u with
  | start session now =>
    rw [Update.onFile, Book.start]
    split
    · rename_i hstart
      split at hstart
      · cases hstart
      · cases hstart
        intro s hs hid
        rcases List.mem_append.mp hs with hs | hs
        · exact h s hs hid
        · rw [List.mem_singleton.mp hs]
          rfl
    · exact h
  | commit session node r now =>
    rw [Update.onFile]
    cases hcommit : f.commit? session node r now with
    | none => exact h
    | some p =>
      obtain ⟨s, -, -, -, heq⟩ := FileState.commit?_eq_some hcommit
      rw [Current, Option.map_some, Option.getD_some, heq, Book.sessions_setPrimary]
      exact hreplace fun _ => s.current_push _ now
  | commitReplay scratch =>
    rw [Update.onFile]
    cases hcommit : f.commitReplay? scratch with
    | none => exact h
    | some f' =>
      obtain ⟨-, -, rfl⟩ := FileState.commitReplay?_eq_some hcommit
      rw [Current, Option.getD_some, Book.sessions_setPrimary]
      exact hreplace fun _ => hscratch scratch rfl
  | removeEdge id now =>
    rw [Update.onFile]
    rcases f.removeEdge_cases id now with heq | ⟨_, _, -, -, heq⟩ |
      ⟨_, s, position, x, rest, -, -, -, hat, heq⟩
    · rw [heq]
      exact h
    · rw [heq]
      exact h
    · rw [heq, Current, Book.sessions_refreshPrimary]
      obtain ⟨-, -, rfl⟩ := Session.removeAt?_eq_some.mp hat
      exact hreplace fun _ => rfl
  | removeNode node now =>
    rw [Update.onFile, FileState.removeNode]
    split
    · exact h
    · rw [Current, Book.sessions_refreshPrimary]
      exact current_repairSessions node now f.book.sessions h
  | removeSession session =>
    rw [Update.onFile]
    cases hremove : f.removeSession? session with
    | none => exact h
    | some p =>
      obtain ⟨q, hq, rfl⟩ := Option.map_eq_some_iff.mp hremove
      obtain ⟨s, -, rfl⟩ := Option.map_eq_some_iff.mp hq
      exact fun t ht => h t (List.mem_of_mem_eraseP ht)
  | refresh => exact h

end FileState

end Runbook
