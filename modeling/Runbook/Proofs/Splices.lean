import Runbook.Proofs.Frames

/-!
# Sessions that lose steps

Deleting an edge or a node takes steps out of sessions. What is said of that here holds whatever
edges a file has: even where an edge is named like a step that it is not, the deletion goes through,
and what it takes out are steps.

* `Session.IsRestOf`: what is left of a session
* `Session.removeNode_ok`: taking a node out of a session never fails
* `FileState.repairSessions_eq`: the sessions that ran a node are the ones that are given
* `FileState.removeNode_cases`, `FileState.get?_removeNode`: all that deleting a node can do to a
  file and to a session
* `Update.names_onFile`: the names of a file's sessions, whatever is done
* `Workspace.Distinct`: no two sessions of a file share a name, whatever is done
-/

namespace Runbook

/-! ## Sessions -/

namespace Session

/-- What is left of a session: all of it, or fewer executions. -/
def IsRestOf (s' s : Session) : Prop := s' = s ∨ s'.length < s.length

theorem IsRestOf.trans {s s' s'' : Session} (h' : s''.IsRestOf s') (h : s'.IsRestOf s) :
    s''.IsRestOf s := by
  rcases h with rfl | h
  · exact h'
  · rcases h' with rfl | h'
    · exact .inr h
    · exact .inr (Nat.lt_trans h' h)

/-- Taking out the step of an edge that is there goes through, and takes out one step at most. -/
theorem removeStep_ok {id : EdgeId} {es : List Edge} (h : ∃ e ∈ es, e.id = id) (now : Instant)
    (s : Session) : ∃ removed es' s', s.removeStep id now es = (.ok removed, es', s') ∧
      s'.IsRestOf s ∧ s.length ≤ s'.length + 1 := by
  rcases s.removeStep_cases id now es with ⟨hnone, -⟩ | heq |
    ⟨_, position, x, rest, -, -, -, hat, heq⟩
  · obtain ⟨e, he, hid⟩ := h
    exact absurd (decide_eq_true hid) (List.find?_eq_none.mp hnone e he)
  · exact ⟨none, es, s, heq, .inl rfl, Nat.le_succ _⟩
  · have hlength := length_rest hat
    exact ⟨some x, _, rest, heq, .inr (by omega), by omega⟩

/-- Positions that are taken out from the last one on are still on the path when their turn comes,
so that each has its edge. -/
theorem removePositions_ok (now : Instant) (positions : List Nat) :
    ∀ (count : Nat) (es : List Edge) (s : Session), positions.Pairwise (· > ·) →
      (∀ position ∈ positions, 1 ≤ position ∧ position ≤ s.length) →
      ∃ n es' s', s.removePositions now count es positions = (.ok n, es', s') ∧
        s'.IsRestOf s := by
  induction positions with
  | nil => exact fun count es s _ _ => ⟨count, es, s, rfl, .inl rfl⟩
  | cons position rest ih =>
    intro count es s hdown hbounds
    obtain ⟨hless, hrest⟩ := List.pairwise_cons.mp hdown
    obtain ⟨hpos, hle⟩ := hbounds position (List.mem_cons_self ..)
    obtain ⟨removed, es', s', hremove, hleft, hlength⟩ :=
      removeStep_ok (exists_mem_redrawn es hpos hle) now s
    -- one execution less leaves room for every position that is to come
    have hbounds' : ∀ p ∈ rest, 1 ≤ p ∧ p ≤ s'.length := by
      intro p hp
      have hone := (hbounds p (List.mem_cons_of_mem _ hp)).1
      have hlt := hless p hp
      omega
    obtain ⟨n, es'', s'', hrun, hleft'⟩ :=
      ih (if removed.isSome then count + 1 else count) es' s' hrest hbounds'
    refine ⟨n, es'', s'', ?_, hleft'.trans hleft⟩
    rw [removePositions]
    simp only [hremove]
    exact hrun

theorem le_of_mem_placesOf {node : NodeId} {xs : List Execution} :
    ∀ {position : Nat}, position ∈ placesOf node xs → 1 ≤ position ∧ position ≤ xs.length := by
  induction xs using List.reverseRecOn with
  | nil => exact fun h => absurd h List.not_mem_nil
  | append_singleton ys x ih =>
    intro position h
    rw [placesOf_concat] at h
    rw [List.length_append, List.length_singleton]
    rcases List.mem_append.mp h with h | h
    · obtain ⟨hpos, hle⟩ := ih h
      omega
    · split at h
      · rw [List.mem_singleton.mp h]
        omega
      · cases h

theorem pairwise_placesOf (node : NodeId) (xs : List Execution) :
    (placesOf node xs).Pairwise (· < ·) := by
  induction xs using List.reverseRecOn with
  | nil => exact List.Pairwise.nil
  | append_singleton ys x ih =>
    rw [placesOf_concat]
    refine List.pairwise_append.mpr ⟨ih, ?_, ?_⟩
    · split
      · exact List.pairwise_singleton ..
      · exact List.Pairwise.nil
    · intro p hp q hq
      have hle := (le_of_mem_placesOf hp).2
      split at hq
      · rw [List.mem_singleton.mp hq]
        omega
      · cases hq

/-- Taking a node out of a session never fails. -/
theorem removeNode_ok (s : Session) (node : NodeId) (now : Instant) (es : List Edge) :
    ∃ n es' s', s.removeNode node now es = (.ok n, es', s') ∧ s'.id = s.id ∧ s'.IsRestOf s := by
  -- from the last place to the first, so that the places still to come stay what they are
  have hdown : (s.positionsOf node).reverse.Pairwise (· > ·) :=
    List.pairwise_reverse.mpr (pairwise_placesOf node s.executions)
  obtain ⟨n, es', s', hrun, hleft⟩ := removePositions_ok now _ 0 es s hdown
    fun position hmem => le_of_mem_placesOf (List.mem_reverse.mp hmem)
  have hid := s.id_removePositions now (s.positionsOf node).reverse 0 es
  rw [hrun] at hid
  exact ⟨n, es', s', hrun, hid, hleft⟩

end Session

/-! ## Files -/

namespace FileState

/-- Taking a node out of sessions gives the names of those that ran it. Each keeps its name, and
those that did not run it stay. -/
theorem repairSessions_eq (node : NodeId) (now : Instant) (sessions : List Session) :
    ∀ es : List Edge, ∃ es' sessions', repairSessions node now sessions es =
        ((sessions.filter fun s => s.contains node).map Session.id, es', sessions') ∧
      sessions'.map Session.id = sessions.map Session.id ∧
      ∀ name, sessions'.find? (fun s => s.id = name) = sessions.find? (fun s => s.id = name) ∨
        ∃ s s', sessions.find? (fun s => s.id = name) = some s ∧
          sessions'.find? (fun s => s.id = name) = some s' ∧
          s.contains node = true ∧ s'.length < s.length := by
  induction sessions with
  | nil => exact fun es => ⟨es, [], rfl, rfl, fun _ => .inl rfl⟩
  | cons s rest ih =>
    intro es
    rw [repairSessions]
    by_cases hs : s.contains node = true
    · -- taking the node out cannot fail, so the name of the session is given
      obtain ⟨n, es₁, s', hremove, hid, hleft⟩ := s.removeNode_ok node now es
      obtain ⟨es', rest', hrun, hnames, hfind⟩ := ih es₁
      refine ⟨es', s' :: rest', ?_, ?_, fun name => ?_⟩
      · have hran : (s :: rest).filter (fun s => s.contains node) =
            s :: rest.filter fun s => s.contains node := List.filter_cons_of_pos hs
        rw [if_pos hs, hran, List.map_cons, ← hid]
        simp only [hremove, hrun]
      · rw [List.map_cons, List.map_cons, hid, hnames]
      · by_cases hname : s.id = name
        · simp only [List.find?_cons, hid, hname, decide_true]
          rcases hleft with rfl | hlt
          · exact .inl rfl
          · exact .inr ⟨s, s', rfl, rfl, hs, hlt⟩
        · simp only [List.find?_cons, hid, hname, decide_false]
          exact hfind name
    · obtain ⟨es', rest', hrun, hnames, hfind⟩ := ih es
      refine ⟨es', s :: rest', ?_, ?_, fun name => ?_⟩
      · have hran : (s :: rest).filter (fun s => s.contains node) =
            rest.filter fun s => s.contains node := List.filter_cons_of_neg hs
        rw [if_neg hs, hran]
        simp only [hrun]
      · rw [List.map_cons, List.map_cons, hnames]
      · rw [List.find?_cons, List.find?_cons]
        split
        · exact .inl rfl
        · exact hfind name

/-- All that deleting a node can do to a file: nothing, if it is the start or not there; else the
sessions that ran it are given, and each of them may have lost steps. -/
theorem removeNode_cases (f : FileState) (node : NodeId) (now : Instant) :
    ((node = startId ∨ f.graph.hasNode node = false) ∧ f.removeNode node now = ([], f)) ∨
      (node ≠ startId ∧ f.graph.hasNode node = true ∧ ∃ g sessions',
        f.removeNode node now = (f.book.touching node,
          ⟨g, ({ f.book with sessions := sessions' } : Book).refreshPrimary⟩) ∧
        sessions'.map Session.id = f.book.names ∧
        ∀ name, sessions'.find? (fun s => s.id = name) = f.book.get? name ∨
          ∃ s s', f.book.get? name = some s ∧
            sessions'.find? (fun s => s.id = name) = some s' ∧
            s.contains node = true ∧ s'.length < s.length) := by
  by_cases hrefused : node = startId ∨ f.graph.hasNode node = false
  · refine .inl ⟨hrefused, ?_⟩
    rw [removeNode, if_pos]
    rcases hrefused with h | h <;> simp [h]
  · obtain ⟨hstart, hnode⟩ := not_or.mp hrefused
    rw [Bool.not_eq_false] at hnode
    obtain ⟨es', sessions', hrun, hnames, hfind⟩ :=
      repairSessions_eq node now f.book.sessions f.graph.edges
    have heq : ∃ g, f.removeNode node now = (f.book.touching node,
        ⟨g, ({ f.book with sessions := sessions' } : Book).refreshPrimary⟩) := by
      rw [removeNode, if_neg (by simp [hstart, hnode])]
      simp only [hrun]
      exact ⟨_, rfl⟩
    obtain ⟨g, heq⟩ := heq
    exact .inr ⟨hstart, hnode, g, sessions', heq, hnames, hfind⟩

/-- All that deleting a node can do to a session: leave it, or take steps out. In that case it ran
the node, and is given as one of those that did. -/
theorem get?_removeNode (f : FileState) (node : NodeId) (now : Instant) (name : String) :
    (f.removeNode node now).2.book.get? name = f.book.get? name ∨
      ∃ s s', f.book.get? name = some s ∧ (f.removeNode node now).2.book.get? name = some s' ∧
        s'.length < s.length ∧ name ∈ f.book.touching node ∧
        name ∈ (f.removeNode node now).1 := by
  rcases f.removeNode_cases node now with ⟨-, heq⟩ | ⟨-, -, g, sessions', heq, -, hfind⟩
  · rw [heq]
    exact .inl rfl
  · simp only [heq, Book.get?_refreshPrimary]
    rcases hfind name with hsame | ⟨s, s', hs, hs', hran, hlt⟩
    · exact .inl hsame
    · have hmem : name ∈ f.book.touching node := by
        rw [← (Book.exists_split hs).1]
        exact List.mem_map_of_mem (List.mem_filter.mpr ⟨List.mem_of_find?_eq_some hs, hran⟩)
      exact .inr ⟨s, s', hs, hs', hlt, hmem, hmem⟩

end FileState

/-! ## Names -/

theorem Book.touching_subset_names (b : Book) (node : NodeId) : b.touching node ⊆ b.names :=
  (List.filter_sublist.map Session.id).subset

@[simp] theorem Book.names_setPrimary (b : Book) (name : String) :
    (b.setPrimary name).names = b.names := by
  rw [names, sessions_setPrimary, names]

@[simp] theorem Book.names_refreshPrimary (b : Book) : b.refreshPrimary.names = b.names := by
  rw [names, sessions_refreshPrimary, names]

theorem Book.names_replace {b : Book} {name : String} {s t : Session} (hs : b.get? name = some s)
    (ht : t.id = name) : (b.replace name t).names = b.names := by
  obtain ⟨hid, pre, post, hsplit, -, hreplace, -⟩ := exists_split hs
  rw [names, replace, hreplace, names, hsplit, List.map_append, List.map_append, List.map_cons,
    List.map_cons, ht, hid]

theorem Book.names_remove? {b b' : Book} {name : String} {s : Session}
    (h : b.remove? name = some (s, b')) : b'.names = b.names.erase name := by
  obtain ⟨t, -, heq⟩ := Option.map_eq_some_iff.mp h
  cases heq
  rw [names, names, List.erase_eq_eraseP', List.eraseP_map]
  rfl

/-- Where names differ, a session that was taken out leaves none of its name. -/
theorem Book.get?_remove?_self {b b' : Book} {name : String} {s : Session}
    (hnames : b.names.Nodup) (h : b.remove? name = some (s, b')) : b'.get? name = none := by
  obtain ⟨t, hget, heq⟩ := Option.map_eq_some_iff.mp h
  obtain ⟨rfl, pre, post, hsplit, -, -, herase⟩ := exists_split hget
  cases heq
  rw [names, hsplit, List.map_append, List.map_cons, List.nodup_middle] at hnames
  refine List.find?_eq_none.mpr fun u hu hname => (List.nodup_cons.mp hnames).1 ?_
  rw [← List.map_append, ← herase]
  exact List.mem_map.mpr ⟨u, hu, of_decide_eq_true hname⟩

/-- The sessions of a file keep their names and their order, whatever is done. One that is started
comes last under a free name, and only one that is deleted goes. -/
theorem Update.names_onFile (u : Update) (file : String) (f : FileState) :
    (u.onFile file f).book.names = f.book.names ∨
      (∃ name, name ∉ f.book.names ∧ (u.onFile file f).book.names = f.book.names ++ [name]) ∨
      ∃ name, u = .removeSession name ∧
        (u.onFile file f).book.names = f.book.names.erase name := by
  cases u with
  | start name now =>
    rw [onFile, Book.start]
    split
    · rename_i hstart
      split at hstart
      · cases hstart
      · rename_i hfree
        cases hstart
        rw [Book.contains_iff] at hfree
        exact .inr (.inl ⟨name, hfree, List.map_append⟩)
    · exact .inl rfl
  | commit session node r now =>
    rw [onFile]
    cases hcommit : f.commit? session node r now with
    | none => exact .inl rfl
    | some p =>
      obtain ⟨s, hs, -, -, heq⟩ := FileState.commit?_eq_some hcommit
      have hid : (s.push p.1 now).id = session := (Book.exists_split hs).1
      rw [Option.map_some, Option.getD_some, heq, Book.names_setPrimary, Book.names_replace hs hid]
      exact .inl rfl
  | commitReplay scratch =>
    rw [onFile]
    cases hcommit : f.commitReplay? scratch with
    | none => exact .inl rfl
    | some f' =>
      obtain ⟨s, hs, rfl⟩ := FileState.commitReplay?_eq_some hcommit
      rw [Option.getD_some, Book.names_setPrimary, Book.names_replace hs rfl]
      exact .inl rfl
  | removeEdge id now =>
    rw [onFile]
    rcases f.removeEdge_cases id now with heq | ⟨_, _, -, -, heq⟩ |
      ⟨_, s, position, x, rest, -, -, hs, hat, heq⟩
    · rw [heq]
      exact .inl rfl
    · rw [heq]
      exact .inl rfl
    · rw [heq, Book.names_refreshPrimary, Book.names_replace hs (Session.id_rest hat)]
      exact .inl rfl
  | removeNode node now =>
    rw [onFile]
    rcases f.removeNode_cases node now with ⟨-, heq⟩ | ⟨-, -, g, sessions', heq, hnames, -⟩
    · rw [heq]
      exact .inl rfl
    · rw [heq, Book.names_refreshPrimary]
      exact .inl hnames
  | removeSession name =>
    rw [onFile]
    cases hremove : f.removeSession? name with
    | none => exact .inl rfl
    | some p =>
      obtain ⟨q, hq, rfl⟩ := Option.map_eq_some_iff.mp hremove
      exact .inr (.inr ⟨name, rfl, Book.names_remove? hq⟩)
  | refresh => exact .inl rfl

/-- No change makes two sessions of a file share a name. -/
theorem Update.nodup_names_onFile (u : Update) (file : String) {f : FileState}
    (h : f.book.names.Nodup) : (u.onFile file f).book.names.Nodup := by
  rcases u.names_onFile file f with heq | ⟨name, hfree, heq⟩ | ⟨name, -, heq⟩
  · rw [heq]
    exact h
  · rw [heq]
    exact h.append (List.nodup_singleton _) (List.disjoint_singleton.mpr hfree)
  · rw [heq]
    exact h.erase name

namespace Workspace

/-- No two sessions of a file share a name. -/
def Distinct (w : Workspace) : Prop := ∀ file f, w.file? file = some f → f.book.names.Nodup

theorem Distinct.apply {w : Workspace} (h : w.Distinct) (u : Update) (file : String) :
    (u.apply file w).Distinct := by
  intro other f hf
  by_cases hfile : other = file
  · rw [hfile, Update.file?_apply] at hf
    obtain ⟨f', hf', rfl⟩ := Option.map_eq_some_iff.mp hf
    exact u.nodup_names_onFile file (h file f' hf')
  · rw [Update.file?_apply_of_ne _ _ hfile] at hf
    exact h other f hf

theorem session?_ne_none_iff {w : Workspace} {file name : String} :
    w.session? file name ≠ none ↔ ∃ f, w.file? file = some f ∧ name ∈ f.book.names := by
  cases hf : w.file? file with
  | none => simp [session?, hf]
  | some f =>
    rw [session?, hf, Option.bind_some, ← Option.isSome_iff_ne_none, ← Book.contains,
      Book.contains_iff]
    simp [Book.names]

/-- A session goes only when it is deleted. -/
theorem session?_ne_none_apply {w : Workspace} {file name : String} (u : Update) (other : String)
    (h : w.session? file name ≠ none) (hu : file = other → u ≠ .removeSession name) :
    (u.apply other w).session? file name ≠ none := by
  obtain ⟨f, hf, hname⟩ := session?_ne_none_iff.mp h
  rw [session?_ne_none_iff]
  by_cases hfile : file = other
  · subst hfile
    refine ⟨u.onFile file f, by rw [Update.file?_apply, hf, Option.map_some], ?_⟩
    rcases u.names_onFile file f with heq | ⟨new, -, heq⟩ | ⟨gone, rfl, heq⟩
    · rw [heq]
      exact hname
    · rw [heq]
      exact List.mem_append_left _ hname
    · rw [heq, List.mem_erase_of_ne]
      · exact hname
      · rintro rfl
        exact hu rfl rfl
  · exact ⟨f, by rw [Update.file?_apply_of_ne _ _ hfile, hf], hname⟩

/-- A session that was deleted is gone. -/
theorem session?_of_removeSession? {w w' : Workspace} {file name : String} {s : Session}
    (hdistinct : w.Distinct) (h : w.removeSession? file name = some (s, w')) :
    w'.session? file name = none := by
  obtain ⟨f, hf, hmap⟩ := Option.bind_eq_some_iff.mp h
  obtain ⟨p, hremove, heq⟩ := Option.map_eq_some_iff.mp hmap
  obtain ⟨q, hbook, rfl⟩ := Option.map_eq_some_iff.mp hremove
  cases heq
  rw [session?, file?_setFile_self, Option.bind_some]
  exact Book.get?_remove?_self (hdistinct file f hf) hbook

/-! ## Deletions in a workspace -/

/-- Deleting an edge leaves all sessions, or else takes a step out of the session whose step the
edge is and leaves the others. -/
theorem session?_removeEdge (w : Workspace) (file : String) (id : EdgeId) (now : Instant) :
    (∀ other name, (w.removeEdge file id now).2.session? other name = w.session? other name) ∨
      ∃ f e s s', w.file? file = some f ∧ f.graph.edge? id = some e ∧
        e.kind.session? = some s.id ∧ (w.removeEdge file id now).1 ≠ none ∧
        w.session? file s.id = some s ∧ (w.removeEdge file id now).2.session? file s.id = some s' ∧
        s'.length < s.length ∧ ∀ other name, ¬(other = file ∧ name = s.id) →
          (w.removeEdge file id now).2.session? other name = w.session? other name := by
  rw [removeEdge, update]
  cases hf : w.file? file with
  | none => exact .inl fun _ _ => rfl
  | some f =>
    have hother : ∀ other name, other ≠ file →
        (w.setFile file (f.removeEdge id now).2).session? other name = w.session? other name := by
      intro other name hne
      rw [session?, file?_setFile_of_ne w _ hne, session?]
    have hself : ∀ name, (w.setFile file (f.removeEdge id now).2).session? file name =
        (f.removeEdge id now).2.book.get? name := fun name => by
      rw [session?, file?_setFile_self, Option.bind_some]
    have hold : ∀ name, w.session? file name = f.book.get? name := fun name => by
      rw [session?, hf, Option.bind_some]
    simp only
    rcases f.get?_removeEdge id now with hsame |
      ⟨e, s, s', hfind, hkind, hsome, hs, hs', hlt, hothers⟩
    · refine .inl fun other name => ?_
      by_cases hfile : other = file
      · rw [hfile, hself, hsame, hold]
      · exact hother other name hfile
    · refine .inr ⟨f, e, s, s', rfl, hfind, hkind, hsome, (hold s.id).trans hs,
        (hself s.id).trans hs', hlt, fun other name hkey => ?_⟩
      by_cases hfile : other = file
      · rw [hfile, hself, hothers name fun hname => hkey ⟨hfile, hname⟩, hold]
      · exact hother other name hfile

/-- Deleting a node leaves a session or takes steps out of it. In that case it ran the node, and is
given as one of those that did. -/
theorem session?_removeNode (w : Workspace) (file : String) (node : NodeId) (now : Instant)
    (other name : String) :
    (w.removeNode file node now).2.session? other name = w.session? other name ∨
      other = file ∧ ∃ f s s', w.file? file = some f ∧ w.session? file name = some s ∧
        (w.removeNode file node now).2.session? file name = some s' ∧ s'.length < s.length ∧
        name ∈ f.book.touching node ∧ name ∈ (w.removeNode file node now).1 := by
  rw [removeNode, update]
  cases hf : w.file? file with
  | none => exact .inl rfl
  | some f =>
    by_cases hfile : other = file
    · rw [hfile]
      simp only [session?, file?_setFile_self, hf, Option.bind_some]
      rcases f.get?_removeNode node now name with hsame | ⟨s, s', hs, hs', hlt, htouch, hgiven⟩
      · exact .inl hsame
      · exact .inr ⟨trivial, f, s, s', rfl, hs, hs', hlt, htouch, hgiven⟩
    · rw [session?, file?_setFile_of_ne w _ hfile, session?]
      exact .inl rfl

end Workspace

end Runbook
