import Runbook.Proofs.Updates

/-!
# Steps by their names and numbers

A step is taken out of a session by the name of its edge: the edge is looked up by that name among
all edges of the file, and its label says which execution is meant. So names must not be mistaken
for each other, whatever colons and digits are in the names of sessions, and labels must be read as
they were written.

* `Session.executionPosition?_edge`: which labels can be read, as positions have 64 bits
* `Session.getElem?_of_id_eq`: an edge of a chain stands where its name says
* `InStep.find?_eq_some_iff`: looking up a step in the edges of a file
* `Session.edgeId_names_steps`: all of this together
-/

namespace Runbook

namespace Session

variable {s : Session} {e : Edge} {i position : Nat} {name : String}

/-- The label is read as the number it was written for, as long as that has 64 bits. -/
theorem executionPosition?_edge (name : String) (position : Nat) (source target : NodeId) :
    (edge name position source target).executionPosition? =
      if position < UInt64.size then some position else none := by
  rw [Edge.executionPosition?, step?_edge, Option.filter_some]
  simp only [decide_eq_true_eq]

/-- At each place of a chain there is an edge that bears the number of the place. -/
theorem eq_edge_of_getElem? (h : s.edges[i]? = some e) :
    i < s.length ∧ ∃ source target, e = edge s.id (i + 1) source target := by
  have hlt : i < s.length := length_edges s ▸ (List.getElem?_eq_some_iff.mp h).1
  rw [getElem?_edges] at h
  obtain ⟨target, -, rfl⟩ := Option.map_eq_some_iff.mp h
  exact ⟨hlt, _, target, rfl⟩

/-- On a path whose length has 64 bits, each label is read as the place of its edge. -/
theorem executionPosition?_of_getElem? (h : s.edges[i]? = some e)
    (hlength : s.length < UInt64.size) : e.executionPosition? = some (i + 1) := by
  obtain ⟨hlt, source, target, rfl⟩ := eq_edge_of_getElem? h
  rw [executionPosition?_edge, if_pos (Nat.lt_of_le_of_lt hlt hlength)]

/-- An edge of a chain that bears the name of a step stands at the place of that step. -/
theorem getElem?_of_id_eq (he : e ∈ s.edges) (hid : e.id = edgeId name position) :
    s.id = name ∧ 1 ≤ position ∧ s.edges[position - 1]? = some e := by
  obtain ⟨i, h⟩ := List.mem_iff_getElem?.mp he
  obtain ⟨-, source, target, rfl⟩ := eq_edge_of_getElem? h
  obtain ⟨hname, rfl⟩ := edgeId_inj hid
  exact ⟨hname, Nat.le_add_left .., h⟩

end Session

open Session

/-- Where the edges are in step with the sessions, the name of a step leads to the edge at its place
in the chain of its session, and to no other edge. -/
theorem InStep.find?_eq_some_iff {sessions : List Session} {es : List Edge}
    (h : InStep sessions es) {name : String} {position : Nat} {e : Edge} :
    es.find? (fun e => e.id = edgeId name position) = some e ↔
      ∃ s ∈ sessions, s.id = name ∧ 1 ≤ position ∧ s.edges[position - 1]? = some e := by
  -- whatever edge is found is on the chain of its session, at the place that its name says
  have hfound : ∀ {e : Edge}, es.find? (fun e => e.id = edgeId name position) = some e →
      ∃ s ∈ sessions, s.id = name ∧ 1 ≤ position ∧ s.edges[position - 1]? = some e := by
    intro e he
    have hid : e.id = edgeId name position := by simpa using List.find?_some he
    have hmem := List.mem_of_find?_eq_some he
    obtain ⟨s, hs, -, hedge⟩ := h.mem_edges_of_isExecutionOf hmem (h.step_of_id_eq hmem hid).1
    exact ⟨s, hs, getElem?_of_id_eq hedge hid⟩
  refine ⟨hfound, fun ⟨s, hs, hname, hpos, hget⟩ => ?_⟩
  -- the edge at that place bears the name, so some edge is found, and it is that one
  obtain ⟨-, source, target, he⟩ := eq_edge_of_getElem? hget
  have hmem : e ∈ es := by
    have hchain : e ∈ stepsIn s.id es := h.chains s hs ▸ List.mem_of_getElem? hget
    exact (mem_stepsIn.mp hchain).1
  have hid : e.id = edgeId name position := by
    rw [he, ← hname]
    exact congrArg (edgeId s.id) (Nat.sub_add_cancel hpos)
  obtain ⟨f, hf⟩ := Option.isSome_iff_exists.mp (List.find?_isSome.mpr
    ⟨e, hmem, decide_eq_true hid⟩ : (es.find? fun e => e.id = edgeId name position).isSome = true)
  obtain ⟨t, ht, htname, -, htget⟩ := hfound hf
  have hsame : t = s := List.inj_on_of_nodup_map h.names ht hs (htname.trans hname.symm)
  rw [hsame, hget] at htget
  rw [hf, Option.some.inj htget]

namespace Session

/-- **The name of an execution edge says whose step it is and which one, and its label says which
one again.** Names are the same only for the same session and position, whatever is in the names of
sessions. On a path whose length has 64 bits, the label of every edge is read as its place, counted
from one. So where the edges of a file are in step with its sessions, a name leads to the one edge
whose label then is the position in it. -/
theorem edgeId_names_steps :
    (∀ (name name' : String) (position position' : Nat),
      edgeId name position = edgeId name' position' ↔ name = name' ∧ position = position') ∧
    (∀ s : Session, s.length < UInt64.size → ∀ (i : Nat) (e : Edge), s.edges[i]? = some e →
      e.executionPosition? = some (i + 1)) ∧
    ∀ (sessions : List Session) (es : List Edge), InStep sessions es →
      ∀ (name : String) (position : Nat) (e : Edge),
        es.find? (fun e => e.id = edgeId name position) = some e ↔
          ∃ s ∈ sessions, s.id = name ∧ 1 ≤ position ∧ s.edges[position - 1]? = some e := by
  refine ⟨fun name name' position position' => ⟨edgeId_inj, ?_⟩, ?_, ?_⟩
  · rintro ⟨rfl, rfl⟩
    rfl
  · exact fun s hlength i e he => executionPosition?_of_getElem? he hlength
  · exact fun sessions es h name position e => h.find?_eq_some_iff

/-- Two sessions, the name of one of which starts with the name of the other and goes on like the
name of a step. -/
def namesakes : Book :=
  ⟨[Workspace.idleSession "s" ["a", "b", "a"], Workspace.idleSession "s:3" ["b"]], none⟩

theorem edgeId_names_steps_namesakes :
    (Workspace.idleSession "s" ["a", "b", "a"]).length < UInt64.size ∧
      (Workspace.idleSession "s" ["a", "b", "a"]).edges[2]? = some (edge "s" 3 "b" "a") ∧
      (edge "s" 3 "b" "a").executionPosition? = some 3 ∧
      InStep namesakes.sessions (FileState.load Workspace.joinedPair namesakes).graph.edges ∧
      (FileState.load Workspace.joinedPair namesakes).graph.edges.find?
        (fun e => e.id = edgeId "s" 3) = some (edge "s" 3 "b" "a") ∧
      edgeId "s:3" 1 ≠ edgeId "s" 3 := by
  have hlength : (Workspace.idleSession "s" ["a", "b", "a"]).length < UInt64.size := by decide
  have hget : (Workspace.idleSession "s" ["a", "b", "a"]).edges[2]? =
      some (edge "s" 3 "b" "a") := by decide
  have hinStep : InStep namesakes.sessions
      (FileState.load Workspace.joinedPair namesakes).graph.edges := by
    refine FileState.inStep_load (by decide) fun e he _ => ?_
    rw [Workspace.joinedPair, List.mem_singleton] at he
    rw [he]
    exact ne_edgeId (by decide)
  obtain ⟨hsame, hlabel, hfind⟩ := edgeId_names_steps
  refine ⟨hlength, hget, hlabel _ hlength 2 _ hget, hinStep, ?_, ?_⟩
  · exact (hfind _ _ hinStep "s" 3 _).mpr ⟨_, List.mem_cons_self .., rfl, by decide, hget⟩
  · exact fun h => absurd ((hsame ..).mp h).2 (by decide)

end Session

end Runbook
