import Runbook.Proofs.AlikeWorlds
import Runbook.Proofs.Deletions

/-!
# Steps that are deleted twice

A call that deletes a step first looks whose step the edge is, then waits for the session's turn,
and deletes the edge of that name then. The name says where in the session the step stands. A step
that is gone by then has left its place to the next one, whose edge bears the name now.

* `FileState.InStep.edgeId_of_owner`: an edge that is a step is named for its session and its place
* `Workspace.TakesOut`, `Workspace.takesOut_removeEdge`: a session loses what stands at a place
* `Traffic.LooksUp`, `Traffic.Removes`: the two moments of a call that deletes a step
* `Traffic.LooksUp.edgeId`, `Traffic.Removes.takesOut`: what the call finds and does then
* `Traffic.remove_twice`: what two such calls do that have both looked before either goes on
-/

namespace Runbook

open Session

/-! ## What deleting a step does -/

/-- An edge that is a step of a session stands for an execution of it, and says which. -/
theorem FileState.InStep.edgeId_of_owner {f : FileState} (h : f.InStep) {edge : EdgeId} {e : Edge}
    {name : String} (hedge : f.graph.edge? edge = some e) (hkind : e.kind.session? = some name) :
    ∃ s k, f.book.get? name = some s ∧ 1 ≤ k ∧ k ≤ s.length ∧ edge = edgeId name k := by
  have hmem : e ∈ f.graph.edges := List.mem_of_find?_eq_some hedge
  have hid : e.id = edge := by simpa using List.find?_some hedge
  have hown := isExecutionOf_of_session? hkind
  obtain ⟨s, hs⟩ := Option.isSome_iff_exists.mp
    (Book.contains_iff.mpr (h.owned e hmem name hown) : f.book.contains name = true)
  have hchain : stepsIn name f.graph.edges = s.edges := by
    rw [h.stepsIn_eq, hs]
  have hstep : e ∈ s.edges := hchain ▸ mem_stepsIn.mpr ⟨hmem, hown⟩
  obtain ⟨k, source, target, hpos, hle, -, -, rfl⟩ := mem_edges hstep
  refine ⟨s, k, hs, hpos, hle, ?_⟩
  rw [← hid, ← (Book.exists_split hs).1]
  rfl

/-- What is taken out at a place counted from one, and what is left. -/
theorem Session.removeAt?_of_pos (s : Session) {k : Nat} (hk : 1 ≤ k) (now : Instant) :
    (s.removeAt? k now).map Prod.fst = s.executions[k - 1]? ∧
      (((s.removeAt? k now).map Prod.snd).getD s).executions = s.executions.eraseIdx (k - 1) := by
  rw [removeAt?, if_neg (Nat.ne_of_gt hk)]
  cases hat : s.executions[k - 1]? with
  | none => exact ⟨rfl, (List.eraseIdx_of_length_le (List.getElem?_eq_none_iff.mp hat)).symm⟩
  | some x => exact ⟨rfl, rfl⟩

namespace Workspace

/-- The executions of a session, none if there is no such session. -/
def executions (w : Workspace) (file name : String) : List Execution :=
  match w.session? file name with
  | some s => s.executions
  | none => []

/-- A session loses the execution at a place counted from one, which is what is given. Where it
has none there, nothing is given and the session stays. No other session changes. -/
structure TakesOut (w w' : Workspace) (file name : String) (k : Nat) (removal : Option Removal) :
    Prop where
  /-- what is given is what stood there -/
  gives : removal = ((w.executions file name)[k - 1]?).map (.execution name)
  /-- what is left -/
  leaves : w'.executions file name = (w.executions file name).eraseIdx (k - 1)
  /-- where there is nothing to lose, the session stays -/
  keeps : removal = none → w'.session? file name = w.session? file name
  /-- so do the others -/
  others : ∀ other session, ¬(other = file ∧ session = name) →
    w'.session? other session = w.session? other session

section RemoveEdge

variable {w : Workspace} {file : String} {f : FileState} (hf : w.file? file = some f)
  (h : f.InStep) (name : String)

include hf h

/-- What deleting a step does to its session, -/
theorem session?_removeEdge_self (k : Nat) (now : Instant) :
    (w.removeEdge file (edgeId name k) now).1 =
        ((w.session? file name).bind fun s => s.removeAt? k now).map
          (fun p => .execution name p.1) ∧
      (w.removeEdge file (edgeId name k) now).2.session? file name =
        (w.session? file name).map fun s => ((s.removeAt? k now).map Prod.snd).getD s := by
  have hremove : w.removeEdge file (edgeId name k) now =
      ((f.removeEdge (edgeId name k) now).1,
        w.setFile file (f.removeEdge (edgeId name k) now).2) := by
    rw [removeEdge, update, hf]
  have hbefore : w.session? file name = f.book.get? name := by
    rw [session?, hf, Option.bind_some]
  rw [hremove, hbefore, session?, file?_setFile_self, Option.bind_some]
  exact h.removeEdge_edgeId name k now

/-- and to the others. -/
theorem session?_removeEdge_of_ne (k : Nat) (now : Instant) {other session : String}
    (hother : ¬(other = file ∧ session = name)) :
    (w.removeEdge file (edgeId name k) now).2.session? other session =
      w.session? other session := by
  rcases w.session?_removeEdge file (edgeId name k) now with hsame |
    ⟨f', e, s, -, hf', hedge, hkind, -, -, -, -, hrest⟩
  · exact hsame other session
  · cases hf.symm.trans hf'
    -- the edge of that name is a step of that session and of no other
    have hown := (InStep.step_of_id_eq h (List.mem_of_find?_eq_some hedge)
      (by simpa using List.find?_some hedge)).1
    rw [eq_of_isExecutionOf (isExecutionOf_of_session? hkind) hown] at hrest
    exact hrest other session hother

/-- Deleting a step takes out what stands at its place. -/
theorem takesOut_removeEdge {k : Nat} (hk : 1 ≤ k) (now : Instant) :
    TakesOut w (w.removeEdge file (edgeId name k) now).2 file name k
      (w.removeEdge file (edgeId name k) now).1 := by
  obtain ⟨hgiven, hleft⟩ := session?_removeEdge_self hf h name k now
  have hothers := fun other session =>
    @session?_removeEdge_of_ne w file f hf h name k now other session
  cases hs : w.session? file name with
  | none =>
    rw [hs] at hgiven hleft
    refine ⟨?_, ?_, fun _ => hleft.trans hs.symm, hothers⟩
    · rw [hgiven, executions, hs]
      rfl
    · rw [executions, executions, hs, hleft]
      rfl
  | some s =>
    rw [hs] at hgiven hleft
    obtain ⟨hfirst, hrest⟩ := removeAt?_of_pos s hk now
    refine ⟨?_, ?_, fun hnone => ?_, hothers⟩
    · rw [hgiven, executions, hs, Option.bind_some, ← hfirst, Option.map_map]
      rfl
    · rw [executions, executions, hs, hleft]
      exact hrest
    · rw [hgiven, Option.bind_some, Option.map_eq_none_iff] at hnone
      rw [hleft, hs, Option.map_some, hnone]
      rfl

end RemoveEdge

/-- Of two that are taken out at one place one after the other, the second stood behind the first,
and there is none if the first was the last. -/
theorem TakesOut.again {w₁ w₂ w₃ w₄ : Workspace} {file name : String} {k : Nat}
    {first second : Option Removal} (h : TakesOut w₁ w₂ file name k first)
    (h' : TakesOut w₃ w₄ file name k second)
    (hsame : w₃.executions file name = w₂.executions file name) {pre post : List Execution}
    {x : Execution} (hsplit : w₁.executions file name = pre ++ x :: post)
    (hplace : pre.length + 1 = k) :
    first = some (.execution name x) ∧ second = post.head?.map (.execution name) ∧
      w₄.executions file name = pre ++ post.tail := by
  subst hplace
  obtain ⟨hgives, hleaves, -, -⟩ := h
  obtain ⟨hgives', hleaves', -, -⟩ := h'
  rw [hsplit, Nat.add_sub_cancel] at hgives hleaves
  rw [List.eraseIdx_append_of_length_le (Nat.le_refl _), Nat.sub_self, List.eraseIdx_zero,
    List.tail_cons] at hleaves
  rw [hsame, hleaves, Nat.add_sub_cancel] at hgives' hleaves'
  refine ⟨?_, ?_, ?_⟩
  · rw [hgives, List.getElem?_append_right (Nat.le_refl _), Nat.sub_self]
    rfl
  · rw [hgives', List.getElem?_append_right (Nat.le_refl _), Nat.sub_self, List.head?_eq_getElem?]
  · rw [hleaves', List.eraseIdx_append_of_length_le (Nat.le_refl _), Nat.sub_self,
      List.eraseIdx_zero]

end Workspace

namespace Ledger

namespace Traffic

variable {l : Ledger} {σ : Nat → Traffic} {events : Nat → Event} {i j a b m n : Nat}
  {file : String} {edge : EdgeId}

/-! ## Calls that delete a step -/

/-- At moment `n` the call looks whose step the edge is that it is to delete, and finds it. -/
def LooksUp (σ : Nat → Traffic) (i n : Nat) (file : String) (edge : EdgeId) : Prop :=
  ∃ owner, (σ n).calls[i]? = some ⟨file, .asked (.removeExecutionEdge edge)⟩ ∧
    (σ (n + 1)).calls[i]? = some ⟨file, .queueing owner (.removeEdge edge)⟩

/-- Where a call stands once it has deleted an edge, or found none. -/
def removed (turn : Turn) : Option Removal → Phase
  | none => .finished (.ok (.removal none))
  | some removal => .settling [turn] (.removal (some removal))

/-- At moment `n` the turn of the call has come, and it deletes the edge, or finds none. -/
def Removes (σ : Nat → Traffic) (i n : Nat) (file : String) (edge : EdgeId)
    (removal : Option Removal) : Prop :=
  ∃ turn, (σ n).calls[i]? = some ⟨file, .waiting turn (.removeEdge edge)⟩ ∧
    (σ (n + 1)).calls[i]? = some ⟨file, removed turn removal⟩

/-- The workspace at a moment. -/
abbrev workspace (t : Traffic) : Workspace := t.desk.world.workspace

theorem LooksUp.owner? (hnext : ∀ n, Moves l (σ n) (events n) (σ (n + 1)))
    (h : LooksUp σ i n file edge) :
    ∃ owner, (σ n).desk.world.owner? file edge = some owner := by
  obtain ⟨owner, hbefore, hafter⟩ := h
  rcases (hnext n).call_after hbefore with hsame | ⟨phase, hstep, hcall⟩ | hgone
  · cases hafter.symm.trans hsame
  · cases hafter.symm.trans hcall
    generalize (σ (n + 1)).desk = desk at hstep
    cases Phase.steps_of_step? hstep with
    | ask hask =>
      cases hask with
      | removeEdge howner => exact ⟨owner, howner⟩
  · cases hafter.symm.trans hgone

/-- The edge stands for an execution then, and is named for its session and its place. -/
theorem LooksUp.edgeId (hnext : ∀ n, Moves l (σ n) (events n) (σ (n + 1)))
    (h : LooksUp σ i n file edge) {f : FileState} (hf : (σ n).workspace.file? file = some f)
    (hstep : f.InStep) :
    ∃ name k, edge = Session.edgeId name k ∧ 1 ≤ k ∧
      k ≤ ((σ n).workspace.executions file name).length := by
  obtain ⟨owner, howner⟩ := h.owner? hnext
  rw [World.owner?, hf, Option.bind_some] at howner
  obtain ⟨e, hedge, hkind⟩ := Option.bind_eq_some_iff.mp howner
  obtain ⟨s, k, hs, hpos, hle, heq⟩ := hstep.edgeId_of_owner hedge hkind
  have hsession : (σ n).workspace.session? file owner = some s := by
    rw [Workspace.session?, hf, Option.bind_some, hs]
  refine ⟨owner, k, heq, hpos, ?_⟩
  rw [Workspace.executions, hsession]
  exact hle

theorem Removes.removeEdge (hnext : ∀ n, Moves l (σ n) (events n) (σ (n + 1)))
    {removal : Option Removal} (h : Removes σ i n file edge removal) :
    (σ n).desk.world.removeEdge file edge = (removal, (σ (n + 1)).desk.world) := by
  obtain ⟨turn, hbefore, hafter⟩ := h
  rcases (hnext n).call_after hbefore with hsame | ⟨phase, hstep, hcall⟩ | hgone
  · cases removal <;> cases hafter.symm.trans hsame
  · obtain rfl : removed turn removal = phase :=
      congrArg Call.phase (Option.some.inj (hafter.symm.trans hcall))
    generalize (σ (n + 1)).desk = desk, hphase : removed turn removal = phase at hstep
    cases Phase.steps_of_step? hstep with
    | missEdge hturn hremove =>
      cases removal <;> cases hphase
      exact hremove
    | removeEdge hturn hremove =>
      cases removal <;> cases hphase
      exact hremove
  · cases removal <;> cases hafter.symm.trans hgone

/-- Once its turn has come, the call takes out what stands at the place by then. -/
theorem Removes.takesOut (hnext : ∀ n, Moves l (σ n) (events n) (σ (n + 1))) {name : String}
    {k : Nat} (hk : 1 ≤ k) {removal : Option Removal}
    (h : Removes σ i n file (Session.edgeId name k) removal) {f : FileState}
    (hf : (σ n).workspace.file? file = some f) (hstep : f.InStep) :
    (σ n).workspace.TakesOut (σ (n + 1)).workspace file name k removal := by
  have hremove := h.removeEdge hnext
  have hgiven : ((σ n).workspace.removeEdge file (Session.edgeId name k)
      (σ n).desk.world.now).1 = removal := congrArg Prod.fst hremove
  have hafter : ((σ n).workspace.removeEdge file (Session.edgeId name k)
      (σ n).desk.world.now).2 = (σ (n + 1)).workspace :=
    congrArg (fun p => p.2.workspace) hremove
  rw [← hgiven, ← hafter]
  exact Workspace.takesOut_removeEdge hf hstep name hk _

/-- Two calls are to delete one edge. Both have looked whose step it is, at moments `a` and `b`,
before the first deletes it at moment `m`; the second goes on at moment `n`. -/
structure BothLookFirst (σ : Nat → Traffic) (i j a b m n : Nat) (file : String) (edge : EdgeId)
    (first second : Option Removal) : Prop where
  /-- the first call looks -/
  looks : LooksUp σ i a file edge
  /-- the second call looks -/
  looks' : LooksUp σ j b file edge
  /-- the first call goes on -/
  removes : Removes σ i m file edge first
  /-- the second call goes on -/
  removes' : Removes σ j n file edge second
  /-- in this order -/
  order : a < m ∧ b < m ∧ m < n

/-- **What two calls do that delete one step.** Any number of calls may come in, take their steps in
any order and lose their callers, on a file that is in step at first. Two calls look the same edge
up before either deletes it. The edge stood for an execution of one session at one place both times;
each call takes out what stands at that place of that session when its turn comes, and changes
nothing only if there is none by then. So if nobody else changes the session in between, the second
call takes out the execution behind the one that the first call took out, unless that was the
last. -/
theorem remove_twice (l : Ledger) (w : World) (events : Nat → Event) {file : String}
    (hfile : ∃ f, w.workspace.file? file = some f ∧ f.InStep) {i j a b m n : Nat} {edge : EdgeId}
    {first second : Option Removal}
    (h : BothLookFirst (history l w events) i j a b m n file edge first second) :
    ∃ name k, edge = Session.edgeId name k ∧ 1 ≤ k ∧
      k ≤ ((history l w events a).workspace.executions file name).length ∧
      k ≤ ((history l w events b).workspace.executions file name).length ∧
      (history l w events m).workspace.TakesOut (history l w events (m + 1)).workspace
        file name k first ∧
      (history l w events n).workspace.TakesOut (history l w events (n + 1)).workspace
        file name k second ∧
      (second = none ↔ ((history l w events n).workspace.executions file name).length < k) ∧
      ((history l w events n).workspace.executions file name =
          (history l w events (m + 1)).workspace.executions file name →
        ∀ pre x post, (history l w events m).workspace.executions file name = pre ++ x :: post →
          pre.length + 1 = k →
          first = some (.execution name x) ∧ second = post.head?.map (.execution name) ∧
            (history l w events (n + 1)).workspace.executions file name = pre ++ post.tail) := by
  have hnext : ∀ n, Moves l (history l w events n) (events n) (history l w events (n + 1)) :=
    fun n => moves_next l _ (events n)
  have hstep : ∀ n, ∃ f, (history l w events n).workspace.file? file = some f ∧ f.InStep :=
    exists_file?_run (fun u f hf => u.inStep_onFile file hf) l hfile events
  generalize history l w events = σ at h hnext hstep ⊢
  obtain ⟨looks, looks', removes, removes', -⟩ := h
  obtain ⟨fa, hfa, hina⟩ := hstep a
  obtain ⟨fb, hfb, hinb⟩ := hstep b
  obtain ⟨fm, hfm, hinm⟩ := hstep m
  obtain ⟨fn, hfn, hinn⟩ := hstep n
  obtain ⟨name, k, rfl, hk, hlea⟩ := looks.edgeId hnext hfa hina
  obtain ⟨name', k', heq, -, hleb⟩ := looks'.edgeId hnext hfb hinb
  obtain ⟨rfl, rfl⟩ := Session.edgeId_inj heq
  have hfirst := removes.takesOut hnext hk hfm hinm
  have hsecond := removes'.takesOut hnext hk hfn hinn
  refine ⟨name, k, rfl, hk, hlea, hleb, hfirst, hsecond, ?_, ?_⟩
  · rw [hsecond.gives, Option.map_eq_none_iff, List.getElem?_eq_none_iff]
    omega
  · exact fun hsame pre x post hsplit hplace => hfirst.again hsecond hsame hsplit hplace

/-- Two steps of a session have run. Two calls that are to delete the first of them look whose step
it is, then take their places at the session's gate, then go on. -/
def doubleClick : List Event :=
  [.ask "f" (.start "s"), .step 0] ++
  .ask "f" (.record "s" "a" "x") :: List.replicate 9 (.step 1) ++
  .ask "f" (.record "s" "a" "y") :: List.replicate 9 (.step 2) ++
  List.replicate 2 (.ask "f" (.removeExecutionEdge (Session.edgeId "s" 1))) ++
  [.step 3, .step 4, .step 3, .step 4] ++ List.replicate 3 (.step 3) ++ [.step 4]

/-- The traffic at each moment of that. -/
def doubleClicked : Nat → Traffic := history noting onePage (Event.inOrder doubleClick)

/-- What the run of some code by that runner leaves. -/
def noted (code : String) (prior : Snapshot) : Execution :=
  { node := "a", stdout := code, stderr := "", state := prior.insert code .null trivial,
    time := .zero }

theorem bothLookFirst_doubleClick :
    BothLookFirst doubleClicked 3 4 24 25 28 31 "f" (Session.edgeId "s" 1)
      (some (.execution "s" (noted "x" .empty)))
      (some (.execution "s" (noted "y" (noted "x" .empty).state))) where
  looks := ⟨"s", by with_unfolding_all rfl, by with_unfolding_all rfl⟩
  looks' := ⟨"s", by with_unfolding_all rfl, by with_unfolding_all rfl⟩
  removes := ⟨_, by with_unfolding_all rfl, by with_unfolding_all rfl⟩
  removes' := ⟨_, by with_unfolding_all rfl, by with_unfolding_all rfl⟩
  order := by decide

theorem inStep_onePage : ∃ f, onePage.workspace.file? "f" = some f ∧ f.InStep := by
  refine ⟨_, Workspace.file?_setFile_self .., FileState.inStep_load List.nodup_nil ?_⟩
  exact fun e he => absurd he List.not_mem_nil

/-- The session is left without steps. -/
theorem remove_twice_doubleClick :
    (∃ f, onePage.workspace.file? "f" = some f ∧ f.InStep) ∧
      BothLookFirst doubleClicked 3 4 24 25 28 31 "f" (Session.edgeId "s" 1)
        (some (.execution "s" (noted "x" .empty)))
        (some (.execution "s" (noted "y" (noted "x" .empty).state))) ∧
      (doubleClicked 28).workspace.executions "f" "s" =
        [noted "x" .empty, noted "y" (noted "x" .empty).state] ∧
      (doubleClicked 29).workspace.executions "f" "s" = [noted "y" (noted "x" .empty).state] ∧
      (doubleClicked 32).workspace.executions "f" "s" = [] := by
  obtain ⟨name, k, hedge, -, -, -, hfirst, -, -, halone⟩ :=
    remove_twice noting onePage (Event.inOrder doubleClick) inStep_onePage bothLookFirst_doubleClick
  obtain ⟨rfl, rfl⟩ := Session.edgeId_inj hedge
  have hbefore : (doubleClicked 28).workspace.executions "f" "s" =
      [noted "x" .empty, noted "y" (noted "x" .empty).state] := by
    with_unfolding_all rfl
  obtain ⟨-, -, hafter⟩ := halone (by with_unfolding_all rfl) [] _ _ hbefore rfl
  have hleaves := hfirst.leaves
  change (doubleClicked 29).workspace.executions "f" "s" =
    ((doubleClicked 28).workspace.executions "f" "s").eraseIdx 0 at hleaves
  rw [hbefore] at hleaves
  exact ⟨inStep_onePage, bothLookFirst_doubleClick, hbefore, hleaves, hafter⟩

/-- Not always does the second of two such calls find the step gone and change nothing. -/
theorem not_always_once :
    ¬ ∀ (l : Ledger) (w : World) (events : Nat → Event) (file : String),
      (∃ f, w.workspace.file? file = some f ∧ f.InStep) → (∀ n, (events n).ByCalls) →
      ∀ (i j a b m n : Nat) (edge : EdgeId) (first second : Option Removal), i ≠ j →
        BothLookFirst (history l w events) i j a b m n file edge first second →
        second = none ∧ ∀ name, (history l w events (n + 1)).session? file name =
          (history l w events n).session? file name := by
  intro h
  have hcalls : ∀ n, (Event.inOrder doubleClick n).ByCalls := by
    refine Event.inOrder_forall ?_ fun _ => trivial
    simp [doubleClick, Event.ByCalls]
  obtain ⟨hnone, -⟩ := h noting onePage (Event.inOrder doubleClick) "f" inStep_onePage hcalls
    3 4 24 25 28 31 _ _ _ (by decide) bothLookFirst_doubleClick
  cases hnone

end Traffic

end Ledger

end Runbook
