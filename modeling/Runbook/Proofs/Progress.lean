import Mathlib.Data.Finset.Max
import Mathlib.Data.List.Sort
import Mathlib.Data.String.Basic
import Runbook.Proofs.Deletions

/-!
# Calls never block each other for good

A call that deletes a node holds the turns of some sessions while it waits for more. It takes them
in the order of their names, and all calls do so. Whoever waits for a session therefore waits for a
call that either can go on or waits itself for a session of a later name. Names cannot become later
for ever, so that some call can go on.

* `World.pairwise_lt_touching`: the turns are taken in the order of the names, each just once
* `Gates.WellKept.exists_isGranted`: there is a granted turn for every session that is waited for
* `Phase.awaited_of_step?_eq_none`: a call that cannot go on is over, or waits
* `Traffic.Orderly.exists_awaited_gt`: where nobody can go on, a waiting call waits for one that
  waits for a session of a later name
* `Traffic.exists_step_of_not_isOver`: as long as some call is not over, some call can go on
-/

namespace Runbook

/-! ## What is waited for -/

/-- The sessions that ran a node are looked up in the order of their names, each just once. -/
theorem World.pairwise_lt_touching {w : World} (h : w.workspace.Distinct) (file : String)
    (node : NodeId) : (w.touching file node).Pairwise (· < ·) := by
  rw [touching]
  cases hf : w.workspace.file? file with
  | none => exact .nil
  | some f =>
    have hnodup : (f.book.touching node).Nodup :=
      (h file f hf).sublist (List.filter_sublist.map Session.id)
    have hsorted : ((f.book.touching node).mergeSort (· ≤ ·)).Pairwise (· ≤ ·) :=
      List.pairwise_mergeSort' (· ≤ ·) _
    have hdistinct : ((f.book.touching node).mergeSort (· ≤ ·)).Nodup :=
      (List.mergeSort_perm _ _).nodup_iff.mpr hnodup
    exact (hsorted.and hdistinct).imp fun h => lt_of_le_of_ne h.1 h.2

/-- For every session that somebody is at the gate of, somebody has been granted the turn. -/
theorem Gates.WellKept.exists_isGranted {g : Gates} (h : g.WellKept) {t : Turn}
    (ht : t ∈ g.turns) :
    ∃ u ∈ g.turns, u.file = t.file ∧ u.session = t.session ∧ g.isGranted u = true := by
  have hline : t ∈ g.line t.gate := List.mem_filter.mpr ⟨ht, decide_eq_true rfl⟩
  obtain ⟨u, rest, hhead⟩ := List.exists_cons_of_ne_nil (List.ne_nil_of_mem hline)
  have hu : u ∈ g.line t.gate := hhead ▸ List.mem_cons_self ..
  obtain ⟨hu, hgate⟩ := List.mem_filter.mp hu
  rw [decide_eq_true_eq] at hgate
  -- one gate stands for one session
  have hentry := List.inj_on_of_nodup_map h.gates (h.placed u hu) (h.placed t ht) hgate
  obtain ⟨hfile, hsession⟩ := Prod.mk.inj (congrArg Prod.fst hentry)
  refine ⟨u, hu, hfile, hsession, (h.isGranted_iff hu).mpr ?_⟩
  rw [hgate, hhead]
  rfl

/-- No two sessions of a file ever share a name. -/
theorem Workspace.Distinct.history {w : World} (h : w.workspace.Distinct) (l : Ledger)
    (events : Nat → Ledger.Event) (n : Nat) :
    (Ledger.Traffic.history l w events n).desk.world.workspace.Distinct := by
  refine Ledger.Traffic.run_invariant (P := fun t => t.desk.world.workspace.Distinct) h
    (fun n t ht => ?_) n
  rcases (Ledger.Traffic.moves_next l t (events n)).workspace with
    hsame | ⟨_, c, u, -, -, -, heq⟩ | ⟨file, u, -, heq⟩
  · rw [hsame]
    exact ht
  · rw [heq]
    exact ht.apply u c.file
  · rw [heq]
    exact ht.apply u file

namespace Ledger

namespace Phase

theorem mem_turns_of_awaited {phase : Phase} {u : Turn} (h : phase.awaited? = some u) :
    u ∈ phase.turns := by
  cases phase with
  | waiting turn aim => exact List.mem_singleton.mpr (Option.some.inj h).symm
  | gatheringNext node held turn sessions =>
    exact List.mem_append_right _ (List.mem_singleton.mpr (Option.some.inj h).symm)
  | _ => cases h

/-- A place that a call has is held or waited for. -/
theorem mem_held_or_awaited {phase : Phase} {u : Turn} (h : u ∈ phase.turns) :
    u ∈ phase.held ∨ phase.awaited? = some u := by
  cases phase with
  | waiting turn aim => exact .inr (congrArg some (List.mem_singleton.mp h).symm)
  | gatheringNext node held turn sessions =>
    rcases List.mem_append.mp h with h | h
    · exact .inl h
    · exact .inr (congrArg some (List.mem_singleton.mp h).symm)
  | _ => exact .inl h

/-- A call that cannot go on is over, or waits for a turn that it has not been granted. -/
theorem awaited_of_step?_eq_none {l : Ledger} {file : String} {phase : Phase} {d : Desk}
    (h : phase.step? l file d = none) :
    phase.isOver = true ∨ ∃ u, phase.awaited? = some u ∧ d.gates.isGranted u = false := by
  cases phase with
  | finished result => exact .inl rfl
  | abandoned => exact .inl rfl
  | waiting turn aim =>
    rw [step?] at h
    split at h
    · cases h
    · exact .inr ⟨turn, rfl, Bool.eq_false_iff.mpr ‹_›⟩
  | gatheringNext node held turn sessions =>
    rw [step?] at h
    split at h
    · cases h
    · exact .inr ⟨turn, rfl, Bool.eq_false_iff.mpr ‹_›⟩
  | working turn task report =>
    rw [step?] at h
    split at h <;> cases h
  | gathering node held sessions => cases sessions <;> cases h
  | settling turns answer =>
    cases turns with
    | nil => cases h
    | cons turn turns =>
      rw [step?] at h
      split at h <;> cases h
  | _ => cases h

/-- A call that holds turns and waits for one more waits for a session of a later name. -/
theorem session_lt_awaited {phase : Phase} {u v : Turn}
    (hinOrder : ∀ node names, phase.gathers? = some (node, names) → names.Pairwise (· < ·))
    (hu : phase.awaited? = some u) (hv : v ∈ phase.held) : v.session < u.session := by
  cases phase with
  | waiting turn aim => cases hv
  | gatheringNext node held turn sessions =>
    obtain rfl : turn = u := Option.some.inj hu
    have hnames := hinOrder node _ rfl
    rw [List.pairwise_append] at hnames
    exact hnames.2.2 _ (List.mem_map_of_mem hv) _ (List.mem_cons_self ..)
  | _ => cases hu

theorem turns_of_isOver {phase : Phase} (h : phase.isOver = true) : phase.turns = [] := by
  cases phase with
  | finished result => rfl
  | abandoned => rfl
  | _ => cases h

end Phase

namespace Traffic

/-- Whether all calls that gather turns gather them in the order of the sessions' names. -/
def GathersInOrder (t : Traffic) : Prop :=
  ∀ c ∈ t.calls, ∀ node names, c.phase.gathers? = some (node, names) → names.Pairwise (· < ·)

/-- The calls gather turns in order at every moment. -/
theorem gathersInOrder_history {l : Ledger} {w : World} (h : w.workspace.Distinct)
    (events : Nat → Event) (n : Nat) : (history l w events n).GathersInOrder := by
  intro c hc node names hgathers
  obtain ⟨i, hi⟩ := List.mem_iff_getElem?.mp hc
  obtain ⟨a, -, -, rfl⟩ := looks_of_gathers rfl (fun n => moves_next l _ (events n)) n c.phase hi
    hgathers
  exact World.pairwise_lt_touching (h.history l events a) c.file node

variable {l : Ledger} {t : Traffic}

/-- A call that has no next step is over, or waits. -/
theorem awaited_of_stuck (hstuck : ∀ i, t.step? l i = none) {c : Call} (hc : c ∈ t.calls) :
    c.phase.isOver = true ∨ ∃ u, c.phase.awaited? = some u ∧ t.desk.gates.isGranted u = false := by
  obtain ⟨i, hi⟩ := List.mem_iff_getElem?.mp hc
  have hnone := hstuck i
  rw [step?, hi, Option.bind_some, Option.map_eq_none_iff, Call.step?,
    Option.map_eq_none_iff] at hnone
  exact Phase.awaited_of_step?_eq_none hnone

/-- Where nobody can go on, a waiting call waits for one that waits itself, for a session of a later
name. -/
theorem Orderly.exists_awaited_gt (h : Orderly t) (hinOrder : t.GathersInOrder)
    (hstuck : ∀ i, t.step? l i = none) {c : Call} (hc : c ∈ t.calls) {u : Turn}
    (hu : c.phase.awaited? = some u) :
    ∃ c' ∈ t.calls, ∃ u', c'.phase.awaited? = some u' ∧ u.session < u'.session := by
  -- somebody has been granted the turn that the call waits for
  obtain ⟨v, hv, -, hsession, hgranted⟩ := h.gates.exists_isGranted
    (h.turns.mem_iff.mp (List.mem_flatMap.mpr ⟨c, hc, Phase.mem_turns_of_awaited hu⟩))
  obtain ⟨c', hc', hv'⟩ := List.mem_flatMap.mp (h.turns.mem_iff.mpr hv)
  -- he cannot go on all the same, so that he waits for another turn, and holds the granted one
  rcases awaited_of_stuck hstuck hc' with hover | ⟨u', hu', hnot⟩
  · rw [Phase.turns_of_isOver hover] at hv'
    cases hv'
  · rcases Phase.mem_held_or_awaited hv' with hheld | hawaited
    · exact ⟨c', hc', u', hu',
        hsession ▸ Phase.session_lt_awaited (hinOrder c' hc') hu' hheld⟩
    · obtain rfl : v = u' := Option.some.inj (hawaited.symm.trans hu')
      rw [hgranted] at hnot
      cases hnot

/-- **Calls never block each other for good.** Any number of calls may come in, take their steps in
any order and lose their callers, and files may be changed past them. As long as some call is not
over, there is a call that can take its next step. -/
theorem exists_step_of_not_isOver (l : Ledger) (w : World) (hdistinct : w.workspace.Distinct)
    (events : Nat → Event) (n : Nat) (hnot : (history l w events n).isOver = false) :
    ∃ i t', (history l w events n).step? l i = some t' := by
  have horderly := Orderly.run l w events n
  have hinOrder := gathersInOrder_history (l := l) hdistinct events n
  generalize history l w events n = t at hnot horderly hinOrder ⊢
  by_contra hnone
  have hstuck : ∀ i, t.step? l i = none := fun i =>
    Option.eq_none_iff_forall_ne_some.mpr fun t' ht' => hnone ⟨i, t', ht'⟩
  -- the turns that are waited for; one of them is for a session of the latest name
  let awaited := t.calls.filterMap fun c => c.phase.awaited?
  obtain ⟨c, hc, hopen⟩ : ∃ c ∈ t.calls, c.phase.isOver = false := by
    simpa [isOver] using hnot
  obtain ⟨u, hu⟩ : ∃ u, u ∈ awaited := by
    rcases awaited_of_stuck hstuck hc with hover | ⟨u, hu, -⟩
    · rw [hopen] at hover
      cases hover
    · exact ⟨u, List.mem_filterMap.mpr ⟨c, hc, hu⟩⟩
  obtain ⟨last, hlast, hmax⟩ := awaited.toFinset.exists_max_image Turn.session
    ⟨u, List.mem_toFinset.mpr hu⟩
  obtain ⟨c, hc, hwaits⟩ := List.mem_filterMap.mp (List.mem_toFinset.mp hlast)
  obtain ⟨c', hc', u', hu', hlt⟩ := horderly.exists_awaited_gt hinOrder hstuck hc hwaits
  have hle := hmax u' (List.mem_toFinset.mpr (List.mem_filterMap.mpr ⟨c', hc', hu'⟩))
  exact absurd hlt (not_lt_of_ge hle)

/-- A session has run a node and runs it once more. Meanwhile two calls come in to delete the node:
one waits for the session's turn, and the other one waits behind it. -/
def twoDeletions : List Event :=
  [.ask "f" (.start "s"), .step 0] ++
  .ask "f" (.record "s" "a" "x") :: List.replicate 9 (.step 1) ++
  .ask "f" (.record "s" "a" "y") :: List.replicate 4 (.step 2) ++
  [.ask "f" (.removeNode "a"), .ask "f" (.removeNode "a"), .step 3, .step 3, .step 4, .step 4]

/-- Neither deletion can go on there, but some call can. -/
theorem exists_step_of_not_isOver_twoDeletions :
    onePage.workspace.Distinct ∧
      (history keeping onePage (Event.inOrder twoDeletions) 23).isOver = false ∧
      (history keeping onePage (Event.inOrder twoDeletions) 23).step? keeping 3 = none ∧
      (history keeping onePage (Event.inOrder twoDeletions) 23).step? keeping 4 = none ∧
      ∃ i t', (history keeping onePage (Event.inOrder twoDeletions) 23).step? keeping i =
        some t' := by
  have hopen : (history keeping onePage (Event.inOrder twoDeletions) 23).isOver = false := by
    decide +kernel
  refine ⟨distinct_onePage, hopen, ?_, ?_,
    exists_step_of_not_isOver keeping onePage distinct_onePage _ 23 hopen⟩
  · exact Option.isNone_iff_eq_none.mp (by decide +kernel)
  · exact Option.isNone_iff_eq_none.mp (by decide +kernel)

end Traffic

end Ledger

end Runbook
