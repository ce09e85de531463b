import Mathlib.Logic.Relation
import Runbook.Proofs.Expansion
import Runbook.Proofs.Updates

/-!
# Inlining

Without the list of open references, the code of a node would simply be inlined: its own, or that of
every step of the session it refers to, and so on. Where sessions refer back to themselves this has
no end. Everywhere else it gives what `Workspace.expand` gives, so the list does not show.

* `Workspace.Inlines`: plain inlining, as a relation since it may have no end
* `Workspace.NoWayBack`: no chain of references from a node comes to any session twice
* `Workspace.inlines_iff`: code is inlined exactly if there is no way back, and then it is the code
  that the node means
* `Workspace.steps?_of_noWayBack`: so open references make no difference
-/

namespace Runbook

namespace Workspace

/-! ## Plain inlining -/

/-- The code of a node, with all references replaced by what they refer to. Nodes, files and
sessions that are not there stand for nothing. -/
inductive Inlines (w : Workspace) : String → NodeId → List String → Prop where
  /-- there is no such node -/
  | missing {file : String} {node : NodeId} (hnode : w.node? file node = none) :
    Inlines w file node []
  /-- the node refers to nothing; it has code or not -/
  | code {file : String} {node : NodeId} {n : Node} (hnode : w.node? file node = some n)
    (hgraph : n.graph = none) : Inlines w file node n.executionCode.toList
  /-- the node refers to a session that is not there -/
  | dangling {file : String} {node : NodeId} {n : Node} {ref : SessionRef}
    (hnode : w.node? file node = some n) (hgraph : n.graph = some ref)
    (hsession : w.session? ref.file ref.session = none) : Inlines w file node []
  /-- the node refers to a session, and each of its steps has some code -/
  | session {file : String} {node : NodeId} {n : Node} {ref : SessionRef} {s : Session}
    {codes : NodeId → List String} (hnode : w.node? file node = some n)
    (hgraph : n.graph = some ref) (hsession : w.session? ref.file ref.session = some s)
    (hsteps : ∀ step ∈ s.path, Inlines w ref.file step (codes step)) :
    Inlines w file node (s.path.flatMap codes)

/-! ## References -/

/-- The session that a node refers to, whether it is there or not. -/
def reference? (w : Workspace) (file : String) (node : NodeId) : Option SessionRef :=
  (w.node? file node).bind Node.graph

/-- The sessions that the steps of a session refer to. -/
def references (w : Workspace) (ref : SessionRef) : List SessionRef :=
  match w.session? ref.file ref.session with
  | none => []
  | some s => s.path.filterMap (w.reference? ref.file)

/-- One session refers to another. -/
def LeadsTo (w : Workspace) (ref ref' : SessionRef) : Prop := ref' ∈ w.references ref

/-- A chain of references leads from a node to a session. -/
def Below (w : Workspace) (file : String) (node : NodeId) (ref : SessionRef) : Prop :=
  ∃ first, w.reference? file node = some first ∧ Relation.ReflTransGen w.LeadsTo first ref

/-- No chain of references from a node comes to a session that it has come through. -/
def NoWayBack (w : Workspace) (file : String) (node : NodeId) : Prop :=
  ∀ ref, w.Below file node ref → ¬ Relation.TransGen w.LeadsTo ref ref

variable {w : Workspace} {file : String} {node node' : NodeId} {n : Node} {ref ref' : SessionRef}
  {s : Session} {codes : List String}

theorem reference?_eq (hnode : w.node? file node = some n) : w.reference? file node = n.graph := by
  rw [reference?, hnode, Option.bind_some]

/-- What is below a step of a session is reached from the session. -/
theorem Below.transGen (h : w.Below ref.file node' ref')
    (hsession : w.session? ref.file ref.session = some s) (hstep : node' ∈ s.path) :
    Relation.TransGen w.LeadsTo ref ref' := by
  obtain ⟨first, hfirst, hchain⟩ := h
  refine .head' ?_ hchain
  rw [LeadsTo, references, hsession]
  exact List.mem_filterMap.mpr ⟨node', hstep, hfirst⟩

/-- What is below a node that refers to a session is that session, or is below one of its steps. -/
theorem below_iff (hgraph : w.reference? file node = some ref)
    (hsession : w.session? ref.file ref.session = some s) :
    w.Below file node ref' ↔ ref' = ref ∨ ∃ step ∈ s.path, w.Below ref.file step ref' := by
  constructor
  · rintro ⟨first, hfirst, hchain⟩
    obtain rfl := Option.some.inj (hfirst.symm.trans hgraph)
    rcases Relation.ReflTransGen.cases_head hchain with rfl | ⟨next, hnext, hchain⟩
    · exact .inl rfl
    · rw [LeadsTo, references, hsession] at hnext
      obtain ⟨step, hstep, hnext⟩ := List.mem_filterMap.mp hnext
      exact .inr ⟨step, hstep, next, hnext, hchain⟩
  · rintro (rfl | ⟨step, hstep, hbelow⟩)
    · exact ⟨_, hgraph, .refl⟩
    · exact ⟨_, hgraph, (hbelow.transGen hsession hstep).to_reflTransGen⟩

/-- A session that is not there leads nowhere. -/
theorem not_transGen_of_dangling (hsession : w.session? ref.file ref.session = none) :
    ¬ Relation.TransGen w.LeadsTo ref ref' := by
  intro h
  obtain ⟨next, hnext, -⟩ := Relation.TransGen.head'_iff.mp h
  rw [LeadsTo, references, hsession] at hnext
  exact List.not_mem_nil hnext

theorem NoWayBack.step (h : w.NoWayBack file node) (hgraph : w.reference? file node = some ref)
    (hsession : w.session? ref.file ref.session = some s) (hstep : node' ∈ s.path) :
    w.NoWayBack ref.file node' :=
  fun ref' hbelow => h ref' ((below_iff hgraph hsession).mpr (.inr ⟨node', hstep, hbelow⟩))

/-- If nothing below a node is open, nothing below a step of its session is either when that session
is open as well. -/
theorem NoWayBack.not_below_step {opened : List SessionRef} (h : w.NoWayBack file node)
    (hgraph : w.reference? file node = some ref)
    (hsession : w.session? ref.file ref.session = some s) (hstep : node' ∈ s.path)
    (hopened : ∀ ref' ∈ opened, ¬ w.Below file node ref') :
    ∀ ref' ∈ ref :: opened, ¬ w.Below ref.file node' ref' := by
  intro ref' hr hbelow
  rcases List.mem_cons.mp hr with rfl | hr
  · exact h ref' ((below_iff hgraph hsession).mpr (.inl rfl)) (hbelow.transGen hsession hstep)
  · exact hopened ref' hr ((below_iff hgraph hsession).mpr (.inr ⟨node', hstep, hbelow⟩))

/-- If the sessions that a node leads to can be put in an order in which each refers to later ones
only, there is no way back. -/
theorem noWayBack_of_order (order : List SessionRef)
    (hfirst : ∀ ref ∈ w.reference? file node, ref ∈ order)
    (hnext : ∀ ref ∈ order, ∀ ref' ∈ w.references ref,
      ref' ∈ order ∧ order.idxOf ref < order.idxOf ref') : w.NoWayBack file node := by
  rintro ref ⟨first, hgraph, hchain⟩ hback
  have hmem : ref ∈ order := by
    clear hback
    induction hchain with
    | refl => exact hfirst first hgraph
    | tail _ hstep ih => exact (hnext _ ih _ hstep).1
  -- along a chain one only comes to later sessions
  have hlater : ∀ ref', Relation.TransGen w.LeadsTo ref ref' →
      ref' ∈ order ∧ order.idxOf ref < order.idxOf ref' := by
    intro ref' hchain
    induction hchain with
    | single hstep => exact hnext ref hmem _ hstep
    | tail _ hstep ih =>
      have hstep := hnext _ ih.1 _ hstep
      exact ⟨hstep.1, Nat.lt_trans ih.2 hstep.2⟩
  exact Nat.lt_irrefl _ (hlater ref hback).2

/-! ## Inlining and expanding -/

/-- Inlining has no end where there is a way back. -/
theorem Inlines.noWayBack (h : w.Inlines file node codes) : w.NoWayBack file node := by
  induction h with
  | missing hnode =>
    rintro ref ⟨first, hfirst, -⟩
    rw [reference?, hnode] at hfirst
    cases hfirst
  | code hnode hgraph =>
    rintro ref ⟨first, hfirst, -⟩
    cases hfirst.symm.trans ((reference?_eq hnode).trans hgraph)
  | dangling hnode hgraph hsession =>
    rintro ref ⟨first, hfirst, hchain⟩ hback
    obtain rfl := Option.some.inj (hfirst.symm.trans ((reference?_eq hnode).trans hgraph))
    exact not_transGen_of_dangling hsession (.trans_right hchain hback)
  | session hnode hgraph hsession _ ih =>
    intro ref hbelow hback
    rcases (below_iff ((reference?_eq hnode).trans hgraph) hsession).mp hbelow with rfl |
      ⟨step, hstep, hbelow⟩
    · -- the way back goes through a step, and so comes by there again
      obtain ⟨next, hnext, hchain⟩ := Relation.TransGen.head'_iff.mp hback
      rw [LeadsTo, references, hsession] at hnext
      obtain ⟨step, hstep, hnext⟩ := List.mem_filterMap.mp hnext
      exact ih step hstep _ ⟨next, hnext, hchain⟩ hback
    · exact ih step hstep ref hbelow hback

/-- Where there is no way back and nothing below is open, the node's code is inlined. -/
theorem inlines_expand (opened : List SessionRef) (file : String) (node : NodeId) :
    w.NoWayBack file node → (∀ ref ∈ opened, ¬ w.Below file node ref) →
      w.Inlines file node (w.expand opened file node) := by
  induction opened, file, node using expand.induct (w := w) with
  | case1 opened file node hnode =>
    intro _ _
    rw [expand_of_none hnode]
    exact .missing hnode
  | case2 opened file node n hnode hgraph =>
    intro _ _
    rw [expand_of_code hnode hgraph]
    exact .code hnode hgraph
  | case3 opened file node n hnode ref hgraph hopen =>
    intro _ hopened
    exact absurd ⟨ref, (reference?_eq hnode).trans hgraph, .refl⟩
      (hopened ref (List.contains_iff_mem.mp hopen))
  | case4 opened file node n hnode ref hgraph hopen hsession =>
    intro _ _
    rw [expand_of_dangling hnode hgraph hsession]
    exact .dangling hnode hgraph hsession
  | case5 opened file node n hnode ref hgraph hopen s hsession ih =>
    intro hback hopened
    have href := (reference?_eq hnode).trans hgraph
    rw [expand_of_session hnode hgraph (Bool.not_eq_true _ ▸ hopen) hsession]
    refine .session hnode hgraph hsession fun step hstep => ?_
    exact ih step (hback.step href hsession hstep)
      (hback.not_below_step href hsession hstep hopened)

/-- What is inlined is the code that the node means, as long as nothing below is open. -/
theorem Inlines.expand_eq (h : w.Inlines file node codes) : ∀ opened : List SessionRef,
    (∀ ref ∈ opened, ¬ w.Below file node ref) → w.expand opened file node = codes := by
  induction h with
  | missing hnode => exact fun _ _ => expand_of_none hnode
  | code hnode hgraph => exact fun _ _ => expand_of_code hnode hgraph
  | dangling hnode hgraph hsession => exact fun _ _ => expand_of_dangling hnode hgraph hsession
  | @session file node n ref s codes hnode hgraph hsession hsteps ih =>
    intro opened hopened
    have href := (reference?_eq hnode).trans hgraph
    have hback : w.NoWayBack file node :=
      (Inlines.session hnode hgraph hsession hsteps).noWayBack
    have hopen : opened.contains ref = false := by
      have hself : w.Below file node ref := ⟨ref, href, .refl⟩
      simpa using fun hr => hopened ref hr hself
    rw [expand_of_session hnode hgraph hopen hsession]
    refine List.flatMap_congr fun step hstep => ?_
    exact ih step hstep _ (hback.not_below_step href hsession hstep hopened)

/-- Code is inlined exactly if there is no way back, and then it is what the node means. -/
theorem inlines_iff :
    w.Inlines file node codes ↔ w.NoWayBack file node ∧ codes = w.expand [] file node := by
  constructor
  · intro h
    exact ⟨h.noWayBack, (h.expand_eq [] fun _ hr => absurd hr List.not_mem_nil).symm⟩
  · rintro ⟨h, rfl⟩
    exact inlines_expand [] file node h fun _ hr => absurd hr List.not_mem_nil

/-- **Where no reference leads back, it does not matter which are open:** the code that a node means
is what inlining gives, and it means none exactly if that is nothing. So each step of the session
that a node refers to adds all its code, also if it or a session below it is there many times. -/
theorem steps?_of_noWayBack (w : Workspace) (file : String) (node : NodeId)
    (h : w.NoWayBack file node) :
    ∃ codes, (∀ codes', w.Inlines file node codes' ↔ codes' = codes) ∧
      w.steps? file node = (if codes = [] then none else some codes) ∧
      ∀ n ref s, w.node? file node = some n → n.graph = some ref →
        w.session? ref.file ref.session = some s →
        codes = s.path.flatMap fun step => (w.steps? ref.file step).getD [] := by
  refine ⟨w.expand [] file node, fun codes' => ?_, steps?_eq w file node,
    fun n ref s hnode hgraph hsession => ?_⟩
  · rw [inlines_iff, and_iff_right h]
  · have hsteps : ∀ step ∈ s.path, w.Inlines ref.file step (w.expand [] ref.file step) := by
      intro step hstep
      have href := (reference?_eq hnode).trans hgraph
      exact inlines_iff.mpr ⟨h.step href hsession hstep, rfl⟩
    simp only [getD_steps?]
    exact (Inlines.session hnode hgraph hsession hsteps).expand_eq [] fun _ hr =>
      absurd hr List.not_mem_nil

/-- A file whose nodes refer to a session of another file by several ways, one that has a session
referring to itself, and nodes and sessions that are not there. -/
def diamond : Workspace :=
  (Workspace.empty.insertFile "f"
    { Graph.empty with nodes := [{ Node.new "a" .fragment with code := some "x" },
      .graphRef "g" ⟨"f", "main"⟩, .graphRef "h" ⟨"lib", "both"⟩, .graphRef "k" ⟨"lib", "one"⟩,
      .graphRef "d" ⟨"lib", "gone"⟩, .new "e" .fragment, .graphRef "r" ⟨"f", "ring"⟩] }
    ⟨[idleSession "main" ["a", "h", "h", "d", "missing", "e", "k"], idleSession "ring" ["r"]],
      none⟩).insertFile "lib"
    { Graph.empty with nodes := [{ Node.new "b" .fragment with code := some "y" },
      .graphRef "i" ⟨"lib", "one"⟩] }
    ⟨[idleSession "both" ["i", "i"], idleSession "one" ["b"]], none⟩

theorem steps?_of_noWayBack_diamond :
    diamond.NoWayBack "f" "g" ∧
      diamond.Inlines "f" "g" ["x", "y", "y", "y", "y", "y"] ∧
      diamond.steps? "f" "g" = some ["x", "y", "y", "y", "y", "y"] := by
  have hback : diamond.NoWayBack "f" "g" :=
    noWayBack_of_order [⟨"f", "main"⟩, ⟨"lib", "both"⟩, ⟨"lib", "one"⟩, ⟨"lib", "gone"⟩]
      (by decide +kernel) (by decide +kernel)
  have hsteps : diamond.steps? "f" "g" = some ["x", "y", "y", "y", "y", "y"] := by decide +kernel
  obtain ⟨codes, hinlines, hmeant, -⟩ := steps?_of_noWayBack diamond "f" "g" hback
  rw [hsteps] at hmeant
  split at hmeant
  · cases hmeant
  · exact ⟨hback, (hinlines _).mpr (Option.some.inj hmeant), hsteps⟩

end Workspace

end Runbook
