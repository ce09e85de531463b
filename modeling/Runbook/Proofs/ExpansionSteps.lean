import Mathlib.Data.List.Perm.Subperm
import Mathlib.Logic.Function.Iterate
import Runbook.Proofs.Expansion
import Runbook.Proofs.Updates

/-!
# Expanding a node one step at a time

`Workspace.expand` says which code a node means. To find it, one needs a list of the references
that are open: it grows when a session is opened, shrinks when the session's path is through, and
is shared by everything that is expanded meanwhile. Here a machine does so. Whatever refers to what,
it comes to an end, as no session is opened within itself.

* `Expansion`, `Expansion.step`: an expansion under way, and what is done next
* `Expansion.step_cases`: all that a step can do
* `Expansion.Ends`: a piece of work that is begun and brought to its end
* `Expansion.ends_expand`: expanding a node ends, with its code, and closes all that it opens
* `Expansion.Sound`: what holds at all times
* `Expansion.expansion_terminates`: all of this for every workspace and node
* `Expansion.Finds`, `Expansion.sublist_of_opened`: what is found for a node when more is open
-/

namespace Runbook

/-! ## Expansions -/

/-- A piece of work in an expansion. -/
inductive Expansion.Chore where
  /-- expands a node of a file -/
  | expand (file : String) (node : NodeId)
  /-- closes the reference that was opened last -/
  | close
  deriving DecidableEq

/-- An expansion under way. -/
structure Expansion where
  /-- the references that are open, the one opened last first -/
  opened : List SessionRef
  /-- the code found so far -/
  codes : List String
  /-- what is left to do, in order -/
  todo : List Expansion.Chore
  deriving DecidableEq

namespace Expansion

/-- Nothing has been done yet for a node. -/
def start (file : String) (node : NodeId) : Expansion := ⟨[], [], [.expand file node]⟩

/-- The next step, if there is anything left to do. -/
def step (w : Workspace) (x : Expansion) : Expansion :=
  match x.todo with
  | [] => x
  | .close :: rest => { x with opened := x.opened.tail, todo := rest }
  | .expand file node :: rest =>
    match w.node? file node with
    | none => { x with todo := rest }
    | some n =>
      match n.graph with
      | none => { x with codes := x.codes ++ n.executionCode.toList, todo := rest }
      | some ref =>
        if x.opened.contains ref then { x with todo := rest }
        else
          match w.session? ref.file ref.session with
          | none => { x with todo := rest }
          | some s => { x with
              opened := ref :: x.opened
              todo := s.path.map (.expand ref.file) ++ .close :: rest }

/-- How many sessions the expansion is within. -/
def depth (x : Expansion) : Nat := x.todo.count .close

/-- All that a step can do: nothing, if nothing is left; close a reference; find all the code of a
node; or open a session, whose steps then make up the code of the node. -/
theorem step_cases (w : Workspace) (x : Expansion) :
    (x.todo = [] ∧ x.step w = x) ∨
    (∃ rest, x.todo = .close :: rest ∧
      x.step w = { x with opened := x.opened.tail, todo := rest }) ∨
    (∃ file node rest, x.todo = .expand file node :: rest ∧ x.step w =
      { x with codes := x.codes ++ w.expand x.opened file node, todo := rest }) ∨
    ∃ file node rest ref s, x.todo = .expand file node :: rest ∧ x.opened.contains ref = false ∧
      w.session? ref.file ref.session = some s ∧
      w.expand x.opened file node = s.path.flatMap (w.expand (ref :: x.opened) ref.file) ∧
      x.step w = { x with
        opened := ref :: x.opened
        todo := s.path.map (.expand ref.file) ++ .close :: rest } := by
  obtain ⟨opened, codes, todo⟩ := x
  rcases todo with _ | ⟨⟨file, node⟩ | _, rest⟩
  · exact .inl ⟨rfl, rfl⟩
  · right; right
    simp only [step]
    cases hnode : w.node? file node with
    | none =>
      exact .inl ⟨file, node, rest, rfl, by
        rw [Workspace.expand_of_none hnode, List.append_nil]⟩
    | some n =>
      simp only
      cases hgraph : n.graph with
      | none => exact .inl ⟨file, node, rest, rfl, by rw [Workspace.expand_of_code hnode hgraph]⟩
      | some ref =>
        simp only
        cases hopen : opened.contains ref with
        | true =>
          exact .inl ⟨file, node, rest, rfl, by
            rw [Workspace.expand_of_opened hnode hgraph hopen, List.append_nil, if_pos rfl]⟩
        | false =>
          rw [if_neg Bool.false_ne_true]
          cases hsession : w.session? ref.file ref.session with
          | none =>
            exact .inl ⟨file, node, rest, rfl, by
              rw [Workspace.expand_of_dangling hnode hgraph hsession, List.append_nil]⟩
          | some s =>
            exact .inr ⟨file, node, rest, ref, s, rfl, hopen, hsession,
              Workspace.expand_of_session hnode hgraph hopen hsession, rfl⟩
  · exact .inr (.inl ⟨rest, rfl, rfl⟩)

/-! ## Pieces of work -/

variable {w : Workspace} {rest mid : List Chore} {x y z : Expansion}

/-- After some steps only `rest` is left to do, and at all times before that it was more. -/
def Ends (w : Workspace) (rest : List Chore) (x y : Expansion) : Prop :=
  ∃ k, (step w)^[k] x = y ∧ y.todo = rest ∧
    ∀ i < k, rest.length < ((step w)^[i] x).todo.length

theorem Ends.refl (h : x.todo = rest) : x.Ends w rest x :=
  ⟨0, rfl, h, fun _ hi => absurd hi (Nat.not_lt_zero _)⟩

/-- One more step before. -/
theorem Ends.head (hmore : rest.length < x.todo.length) (h : (x.step w).Ends w rest y) :
    x.Ends w rest y := by
  obtain ⟨k, hk, hrest, hbefore⟩ := h
  refine ⟨k + 1, hk, hrest, fun i hi => ?_⟩
  cases i with
  | zero => exact hmore
  | succ i => exact hbefore i (Nat.lt_of_succ_lt_succ hi)

/-- One piece of work after another. -/
theorem Ends.trans (h : x.Ends w mid y) (hmid : rest.length ≤ mid.length)
    (h' : y.Ends w rest z) : x.Ends w rest z := by
  obtain ⟨k, rfl, -, hbefore⟩ := h
  obtain ⟨k', rfl, hrest, hbefore'⟩ := h'
  refine ⟨k' + k, Function.iterate_add_apply .., hrest, fun i hi => ?_⟩
  by_cases hik : i < k
  · exact Nat.lt_of_le_of_lt hmid (hbefore i hik)
  · obtain ⟨j, rfl⟩ : ∃ j, i = j + k := ⟨i - k, by omega⟩
    rw [Function.iterate_add_apply]
    exact hbefore' j (by omega)

/-- The nodes of a path are expanded one after another. -/
theorem ends_path {opened : List SessionRef} {file : String}
    (h : ∀ node codes rest, Ends w rest ⟨opened, codes, .expand file node :: rest⟩
      ⟨opened, codes ++ w.expand opened file node, rest⟩) (path : List NodeId) :
    ∀ codes rest, Ends w rest ⟨opened, codes, path.map (.expand file) ++ rest⟩
      ⟨opened, codes ++ path.flatMap (w.expand opened file), rest⟩ := by
  induction path with
  | nil =>
    intro codes rest
    rw [List.flatMap_nil, List.append_nil]
    exact .refl rfl
  | cons node path ih =>
    intro codes rest
    have hrest := ih (codes ++ w.expand opened file node) rest
    rw [List.append_assoc, ← List.flatMap_cons] at hrest
    exact (h node codes _).trans (by simp) hrest

/-- Whatever is open, expanding a node ends. It finds the code that the node means then, and leaves
open what was open before. The induction is on how many sessions are not open. -/
theorem ends_expand (w : Workspace) (opened : List SessionRef) (file : String) (node : NodeId)
    (codes : List String) (rest : List Chore) :
    Ends w rest ⟨opened, codes, .expand file node :: rest⟩
      ⟨opened, codes ++ w.expand opened file node, rest⟩ := by
  induction hn : (w.unopened opened).length using Nat.strongRecOn
    generalizing opened file node codes rest with
  | ind n ih =>
    refine .head (Nat.lt_succ_self _) ?_
    rcases step_cases w ⟨opened, codes, .expand file node :: rest⟩ with ⟨hnil, -⟩ | ⟨_, hclose, -⟩ |
      ⟨_, _, _, htodo, hstep⟩ | ⟨_, _, _, ref, s, htodo, hopen, hsession, hexpand, hstep⟩
    · cases hnil
    · cases hclose
    · cases htodo
      rw [hstep]
      exact .refl rfl
    · cases htodo
      rw [hstep, hexpand]
      -- within the session that was opened one session fewer can be opened
      have hless := Workspace.unopened_lt hopen hsession
      have hpath := ends_path (fun node codes rest =>
        ih _ (hn ▸ hless) (ref :: opened) ref.file node codes rest rfl)
        s.path codes (.close :: rest)
      exact hpath.trans (Nat.le_succ _) (.head (Nat.lt_succ_self _) (.refl rfl))

/-! ## What holds at all times -/

/-- No reference is open twice, all open references are to sessions that are there, and each of
them is to be closed. -/
structure Sound (w : Workspace) (x : Expansion) : Prop where
  /-- no reference is open twice -/
  nodup : x.opened.Nodup
  /-- each open reference is to a session that is there -/
  there : ∀ ref ∈ x.opened, ∃ s, w.session? ref.file ref.session = some s
  /-- as many are open as are to be closed -/
  depth : x.depth = x.opened.length

theorem sound_start (w : Workspace) (file : String) (node : NodeId) : (start file node).Sound w :=
  ⟨List.nodup_nil, fun _ h => absurd h List.not_mem_nil, rfl⟩

theorem Sound.step (h : x.Sound w) : (x.step w).Sound w := by
  rcases step_cases w x with ⟨-, hstep⟩ | ⟨rest, htodo, hstep⟩ | ⟨_, _, rest, htodo, hstep⟩ |
    ⟨_, _, rest, ref, s, htodo, hopen, hsession, -, hstep⟩
  · rwa [hstep]
  · have hdepth := h.depth
    rw [Expansion.depth, htodo, List.count_cons_self] at hdepth
    rw [hstep]
    refine ⟨h.nodup.tail, fun ref hr => h.there ref (List.mem_of_mem_tail hr), ?_⟩
    rw [List.length_tail, ← hdepth]
    rfl
  · have hdepth := h.depth
    rw [Expansion.depth, htodo, List.count_cons_of_ne Chore.noConfusion] at hdepth
    rw [hstep]
    exact ⟨h.nodup, h.there, hdepth⟩
  · have hdepth := h.depth
    rw [Expansion.depth, htodo, List.count_cons_of_ne Chore.noConfusion] at hdepth
    rw [hstep]
    refine ⟨List.nodup_cons.mpr ⟨by simpa using hopen, h.nodup⟩, fun r hr => ?_, ?_⟩
    · rcases List.mem_cons.mp hr with rfl | hr
      · exact ⟨s, hsession⟩
      · exact h.there r hr
    · -- the nodes of the path are before what is to be closed
      have hpath : (s.path.map (Chore.expand ref.file)).count .close = 0 := by
        simp [List.count_eq_zero]
      rw [Expansion.depth, List.count_append, hpath, List.count_cons_self, hdepth,
        List.length_cons, Nat.zero_add]

theorem Sound.iterate (h : x.Sound w) (n : Nat) : ((Expansion.step w)^[n] x).Sound w := by
  induction n with
  | zero => exact h
  | succ n ih =>
    rw [Function.iterate_succ_apply']
    exact ih.step

/-- There are not more references open than sessions. -/
theorem Sound.length_le (h : x.Sound w) : x.opened.length ≤ w.refs.length := by
  refine (List.subperm_of_subset h.nodup fun ref hr => ?_).length_le
  obtain ⟨s, hs⟩ := h.there ref hr
  exact Workspace.mem_refs_of_session? hs

/-- **Expanding a node comes to an end in every workspace,** whatever refers to what, and finds the
code that the node means. At all times no reference is open twice, all that are open are to sessions
that are there, and so there are never more than sessions. Each node on the way is expanded to its
end in turn, and then the same references are open as before. -/
theorem expansion_terminates (w : Workspace) (file : String) (node : NodeId) :
    (start file node).Ends w [] ⟨[], w.expand [] file node, []⟩ ∧
    ∀ n, let x := (step w)^[n] (start file node)
      x.opened.Nodup ∧ (∀ ref ∈ x.opened, ∃ s, w.session? ref.file ref.session = some s) ∧
      x.depth = x.opened.length ∧ x.depth ≤ w.refs.length ∧
      ∀ file' node' rest, x.todo = .expand file' node' :: rest →
        x.Ends w rest
          { x with codes := x.codes ++ w.expand x.opened file' node', todo := rest } := by
  refine ⟨ends_expand w [] file node [] [], fun n => ?_⟩
  have h := (sound_start w file node).iterate n
  refine ⟨h.nodup, h.there, h.depth, h.depth ▸ h.length_le, fun file' node' rest htodo => ?_⟩
  have hends := ends_expand w ((step w)^[n] (start file node)).opened file' node'
    ((step w)^[n] (start file node)).codes rest
  rwa [← htodo] at hends

/-- Two sessions of two files that refer to each other, and one of them to itself. -/
def ring : Workspace :=
  (Workspace.empty.insertFile "f"
    { Graph.empty with nodes := [{ Node.new "a" .fragment with code := some "x" },
      .graphRef "g" ⟨"lib", "t"⟩] }
    ⟨[Workspace.idleSession "s" ["a", "g"]], none⟩).insertFile "lib"
    { Graph.empty with nodes := [.graphRef "h" ⟨"f", "s"⟩, .graphRef "i" ⟨"lib", "t"⟩] }
    ⟨[Workspace.idleSession "t" ["i", "h"]], none⟩

/-- After four steps both sessions are open, and no other can be opened; three more steps are to
turn down the reference back and to close the two. -/
example : ((step ring)^[4] (start "f" "g")).opened = [⟨"f", "s"⟩, ⟨"lib", "t"⟩] ∧
    (step ring)^[7] (start "f" "g") = ⟨[], ["x"], []⟩ := by
  decide +kernel

/-! ## With other references open -/

/-- A piece of work comes to one end only. -/
theorem Ends.unique (h : x.Ends w rest y) (h' : x.Ends w rest z) : y = z := by
  obtain ⟨k, rfl, hrest, hbefore⟩ := h
  obtain ⟨k', rfl, hrest', hbefore'⟩ := h'
  -- where one of two runs has come to its end, the other has no more left to do either
  rcases Nat.lt_trichotomy k k' with hlt | rfl | hlt
  · exact absurd (hrest ▸ hbefore' k hlt) (Nat.lt_irrefl _)
  · rfl
  · exact absurd (hrest' ▸ hbefore k' hlt) (Nat.lt_irrefl _)

/-- While these references are open, expanding the node finds this code, whatever code was found
before and whatever is left to do, and leaves open what was. -/
def Finds (w : Workspace) (opened : List SessionRef) (file : String) (node : NodeId)
    (found : List String) : Prop :=
  ∀ codes rest, Ends w rest ⟨opened, codes, .expand file node :: rest⟩
    ⟨opened, codes ++ found, rest⟩

theorem finds_iff {opened : List SessionRef} {file : String} {node : NodeId}
    {found : List String} : Finds w opened file node found ↔ found = w.expand opened file node := by
  constructor
  · intro h
    have hsame := (h [] []).unique (ends_expand w opened file node [] [])
    exact congrArg Expansion.codes hsame
  · rintro rfl
    exact ends_expand w opened file node

/-- **Opening more sessions only cuts steps.** Whatever is open, just one list of code is found for
a node. If all that is open in one expansion is open in another, then what the second finds is what
the first finds with some steps left out. So a node that means no code when nothing is open, and no
other, adds nothing wherever an expansion comes to it. -/
theorem sublist_of_opened (w : Workspace) (file : String) (node : NodeId)
    {opened opened' : List SessionRef} (h : opened ⊆ opened') :
    (∀ opened found, Finds w opened file node found ↔ found = w.expand opened file node) ∧
    (w.expand opened' file node).Sublist (w.expand opened file node) ∧
    (w.steps? file node = none ↔ ∀ opened, Finds w opened file node []) := by
  refine ⟨fun _ _ => finds_iff, w.expand_sublist opened file node h, fun hnone opened => ?_,
    fun hall => ?_⟩
  · exact finds_iff.mpr (Workspace.expand_of_steps?_eq_none hnone opened).symm
  · rw [Workspace.steps?_eq, if_pos (finds_iff.mp (hall [])).symm]

/-- A session that runs a node twice, once by way of another session, and a node without code. -/
def detour : Workspace :=
  Workspace.empty.insertFile "f"
    { Graph.empty with nodes := [{ Node.new "a" .fragment with code := some "x" },
      { Node.new "b" .fragment with code := some "y" }, .new "e" .fragment,
      .graphRef "g" ⟨"f", "main"⟩, .graphRef "h" ⟨"f", "side"⟩] }
    ⟨[Workspace.idleSession "main" ["a", "h", "e", "b", "g"], Workspace.idleSession "side" ["a"]],
      none⟩

theorem sublist_of_opened_detour :
    ([] : List SessionRef) ⊆ [⟨"f", "side"⟩] ∧
      Finds detour [] "f" "g" ["x", "x", "y"] ∧
      Finds detour [⟨"f", "side"⟩] "f" "g" ["x", "y"] ∧
      ["x", "y"].Sublist ["x", "x", "y"] ∧
      detour.steps? "f" "e" = none ∧ Finds detour [⟨"f", "main"⟩] "f" "e" [] := by
  have hsub : ([] : List SessionRef) ⊆ [⟨"f", "side"⟩] := List.nil_subset _
  have hfound : Finds detour [] "f" "g" ["x", "x", "y"] := finds_iff.mpr (by decide +kernel)
  have hfound' : Finds detour [⟨"f", "side"⟩] "f" "g" ["x", "y"] :=
    finds_iff.mpr (by decide +kernel)
  have hnone : detour.steps? "f" "e" = none := by decide +kernel
  obtain ⟨hfinds, hcut, -⟩ := sublist_of_opened detour "f" "g" hsub
  obtain ⟨-, -, hnothing⟩ := sublist_of_opened detour "f" "e" hsub
  rw [← (hfinds _ _).mp hfound, ← (hfinds _ _).mp hfound'] at hcut
  exact ⟨hsub, hfound, hfound', hcut, hnone, hnothing.mp hnone _⟩

end Expansion

end Runbook
