import Mathlib.Data.List.Flatten
import Runbook.Workspace

/-!
# The code that nodes mean

A graph node stands for the code of every step of another session, whose steps may be graph nodes
in turn, and refer back to where they came from. A reference that is open already means nothing. So
the more references are open, the less code is left; and a step that means nothing where none is
open means nothing anywhere, and may as well be left out.

* `Workspace.expand_sublist`: what opened references cost
* `Workspace.Thins`: steps that mean no code are left out of sessions
* `Workspace.Thins.expand_eq`: that changes no meaning
-/

namespace Runbook

/-- Parts that give nothing can be left out of the whole. -/
theorem flatMap_filter_of_nil {α β : Type} {f : α → List β} {p : α → Bool} (xs : List α)
    (h : ∀ x, p x = false → f x = []) : (xs.filter p).flatMap f = xs.flatMap f := by
  induction xs with
  | nil => rfl
  | cons x rest ih =>
    cases hp : p x with
    | true => rw [List.filter_cons_of_pos hp, List.flatMap_cons, List.flatMap_cons, ih]
    | false => rw [List.filter_cons_of_neg (by simp [hp]), List.flatMap_cons, h x hp, ih,
        List.nil_append]

namespace Workspace

variable {w : Workspace} {opened : List SessionRef} {file : String} {node : NodeId} {n : Node}
  {ref : SessionRef}

/-! ## One node -/

theorem expand_of_none (hnode : w.node? file node = none) : w.expand opened file node = [] := by
  rw [expand, hnode]

theorem expand_of_code (hnode : w.node? file node = some n) (hgraph : n.graph = none) :
    w.expand opened file node = n.executionCode.toList := by
  rw [expand, hnode]
  simp only [hgraph]

theorem expand_of_opened (hnode : w.node? file node = some n) (hgraph : n.graph = some ref)
    (hopen : opened.contains ref = true) : w.expand opened file node = [] := by
  rw [expand, hnode]
  simp only [hgraph, hopen, dif_pos]

theorem expand_of_dangling (hnode : w.node? file node = some n) (hgraph : n.graph = some ref)
    (hsession : w.session? ref.file ref.session = none) : w.expand opened file node = [] := by
  rw [expand, hnode]
  simp only [hgraph]
  split
  · rfl
  · split
    · rfl
    · rename_i hs
      cases hsession.symm.trans hs

theorem expand_of_session {s : Session} (hnode : w.node? file node = some n)
    (hgraph : n.graph = some ref) (hopen : opened.contains ref = false)
    (hsession : w.session? ref.file ref.session = some s) :
    w.expand opened file node =
      s.path.flatMap fun step => w.expand (ref :: opened) ref.file step := by
  rw [expand, hnode]
  simp only [hgraph, hopen]
  split
  · contradiction
  · split
    · rename_i hs
      cases hsession.symm.trans hs
    · rename_i t hs
      cases hsession.symm.trans hs
      rfl

/-! ## Nodes that mean no code -/

theorem steps?_eq (w : Workspace) (file : String) (node : NodeId) :
    w.steps? file node =
      if w.expand [] file node = [] then none else some (w.expand [] file node) := by
  rw [steps?]
  cases w.expand [] file node <;> rfl

theorem getD_steps? (w : Workspace) (file : String) (node : NodeId) :
    (w.steps? file node).getD [] = w.expand [] file node := by
  rw [steps?]
  cases w.expand [] file node <;> rfl

theorem ne_nil_of_steps? {codes : List String} (h : w.steps? file node = some codes) :
    codes ≠ [] := by
  rintro rfl
  rw [steps?_eq] at h
  split at h
  · cases h
  · exact absurd (Option.some.inj h) ‹_›

/-! ## Open references -/

/-- The more references are open, the less code a node means. -/
theorem expand_sublist (w : Workspace) (opened : List SessionRef) (file : String) (node : NodeId) :
    ∀ {opened' : List SessionRef}, opened ⊆ opened' →
      (w.expand opened' file node).Sublist (w.expand opened file node) := by
  induction opened, file, node using expand.induct (w := w) with
  | case1 opened file node hnode =>
    intro opened' _
    rw [expand_of_none hnode]
    exact List.nil_sublist _
  | case2 opened file node n hnode hgraph =>
    intro opened' _
    simp only [expand_of_code hnode hgraph, List.Sublist.refl]
  | case3 opened file node n hnode ref hgraph hopen =>
    intro opened' hsub
    have hopen' : opened'.contains ref = true :=
      List.contains_iff_mem.mpr (hsub (List.contains_iff_mem.mp hopen))
    rw [expand_of_opened hnode hgraph hopen']
    exact List.nil_sublist _
  | case4 opened file node n hnode ref hgraph hopen hsession =>
    intro opened' _
    rw [expand_of_dangling hnode hgraph hsession]
    exact List.nil_sublist _
  | case5 opened file node n hnode ref hgraph hopen s hsession ih =>
    intro opened' hsub
    have hclosed : opened.contains ref = false := Bool.not_eq_true _ ▸ hopen
    rw [expand_of_session hnode hgraph hclosed hsession]
    cases hopen' : opened'.contains ref with
    | true =>
      rw [expand_of_opened hnode hgraph hopen']
      exact List.nil_sublist _
    | false =>
      rw [expand_of_session hnode hgraph hopen' hsession]
      exact List.Sublist.flatMap_right _ fun step _ => ih step (List.cons_subset_cons ref hsub)

/-- A node that means no code means none wherever it is referred to. -/
theorem expand_of_steps?_eq_none (h : w.steps? file node = none) (opened : List SessionRef) :
    w.expand opened file node = [] := by
  have hnil : w.expand [] file node = [] := by rw [← getD_steps?, h, Option.getD_none]
  exact List.sublist_nil.mp (hnil ▸ w.expand_sublist [] file node (List.nil_subset opened))

/-! ## Leaving out steps -/

/-- The nodes are the same and so are the sessions, but that steps which mean no code may be left
out of their paths. -/
structure Thins (w' w : Workspace) : Prop where
  /-- the nodes are the same -/
  node? : ∀ file node, w'.node? file node = w.node? file node
  /-- no session comes or goes, and nothing with code is left out of one -/
  path : ∀ file name, (w'.session? file name).map Session.path =
      (w.session? file name).map Session.path ∨
    (w'.session? file name).map Session.path =
      (w.session? file name).map fun s => s.path.filter fun step => (w.steps? file step).isSome

/-- Leaving out steps that mean nothing changes the meaning of no node, not even of those that
refer to the session they were left out of. -/
theorem Thins.expand_eq {w' : Workspace} (h : w'.Thins w) (opened : List SessionRef)
    (file : String) (node : NodeId) : w'.expand opened file node = w.expand opened file node := by
  induction opened, file, node using expand.induct (w := w) with
  | case1 opened file node hnode =>
    rw [expand_of_none hnode, expand_of_none ((h.node? file node).trans hnode)]
  | case2 opened file node n hnode hgraph =>
    rw [expand_of_code hnode hgraph, expand_of_code ((h.node? file node).trans hnode) hgraph]
  | case3 opened file node n hnode ref hgraph hopen =>
    rw [expand_of_opened hnode hgraph hopen,
      expand_of_opened ((h.node? file node).trans hnode) hgraph hopen]
  | case4 opened file node n hnode ref hgraph hopen hsession =>
    have hsession' : w'.session? ref.file ref.session = none := by
      rcases h.path ref.file ref.session with hpath | hpath <;>
        exact Option.map_eq_none_iff.mp (by rw [hpath, hsession, Option.map_none])
    rw [expand_of_dangling hnode hgraph hsession,
      expand_of_dangling ((h.node? file node).trans hnode) hgraph hsession']
  | case5 opened file node n hnode ref hgraph hopen s hsession ih =>
    have hclosed : opened.contains ref = false := Bool.not_eq_true _ ▸ hopen
    have hpaths := h.path ref.file ref.session
    rw [hsession, Option.map_some, Option.map_some] at hpaths
    obtain ⟨s', hsession', hpath⟩ : ∃ s', w'.session? ref.file ref.session = some s' ∧
        (s'.path = s.path ∨
          s'.path = s.path.filter fun step => (w.steps? ref.file step).isSome) := by
      rcases hpaths with hpath | hpath <;>
        obtain ⟨s', hs', heq⟩ := Option.map_eq_some_iff.mp hpath
      · exact ⟨s', hs', .inl heq⟩
      · exact ⟨s', hs', .inr heq⟩
    rw [expand_of_session hnode hgraph hclosed hsession,
      expand_of_session ((h.node? file node).trans hnode) hgraph hclosed hsession']
    simp only [ih]
    rcases hpath with hpath | hpath <;> rw [hpath]
    refine flatMap_filter_of_nil s.path fun step hstep => ?_
    exact expand_of_steps?_eq_none (Option.isNone_iff_eq_none.mp
      (Option.isSome_eq_false_iff.mp hstep)) _

theorem Thins.steps?_eq {w' : Workspace} (h : w'.Thins w) (file : String) (node : NodeId) :
    w'.steps? file node = w.steps? file node := by
  rw [steps?, steps?, h.expand_eq]

end Workspace

end Runbook
