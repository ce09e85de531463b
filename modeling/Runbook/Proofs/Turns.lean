import Mathlib.Data.List.Nodup
import Runbook.Proofs.Events
import Runbook.Proofs.Gates

/-!
# Turns of calls

Which places the calls under way have at the gates, and which of them they hold. The calls and the
gates always agree on this, so that two calls never hold the turn of one session.

* `Phase.held`: the places that a call holds, as opposed to those it waits for
* `Phase.Shifts`: all that a step or an abandonment does to the places of a call
* `Traffic.Orderly`: the places of all calls are those at the gates, and those held are granted
* `Traffic.Orderly.moves`: kept by every event
* `Traffic.Orderly.eq_of_isGranted`: a session's turn is granted to one call only
-/

namespace Runbook

namespace Ledger

namespace Phase

/-- The places that a call holds. -/
def held : Phase → List Turn
  | waiting _ _ => []
  | gatheringNext _ held _ _ => held
  | phase => phase.turns

theorem mem_turns_of_mem_held {phase : Phase} {t : Turn} (h : t ∈ phase.held) :
    t ∈ phase.turns := by
  cases phase with
  | waiting turn aim => cases h
  | gatheringNext node held turn sessions => exact List.mem_append_left _ h
  | _ => exact h

/-- Whether a call that waits for one place is to hold just that one. -/
def Fit : Phase → Prop
  | queueing _ (.work _ (.settle _ _)) => False
  | waiting _ (.work _ (.settle _ _)) => False
  | _ => True

/-- All that a step or an abandonment does to the places of a call on a file. -/
inductive Shifts (file : String) (phase phase' : Phase) (g : Gates) : Gates → Prop
  /-- the call has the same places, and holds no other than it did or was granted -/
  | stay (hturns : phase'.turns = phase.turns)
    (hheld : ∀ t ∈ phase'.held, t ∈ phase.held ∨ g.isGranted t = true) :
    Shifts file phase phase' g g
  /-- the call takes one more place, and waits for it -/
  | arrive {session : String} (hturns : phase'.turns = phase.turns ++ [(g.arrive file session).1])
    (hheld : phase'.held = phase.held) : Shifts file phase phase' g (g.arrive file session).2
  /-- the call gives up some places; the gates that nobody is at may be forgotten -/
  | leave (ts : List Turn) {g' : Gates} (hturns : phase.turns.Perm (ts ++ phase'.turns))
    (hheld : ∀ t ∈ phase'.held, t ∈ phase.held)
    (hgates : g' = g.releaseAll ts ∨ g' = (g.releaseAll ts).prune) :
    Shifts file phase phase' g g'

/-- The first step of a call takes no place. -/
theorem Asks.turns {l : Ledger} {file : String} {request : Request} {phase : Phase} {w w' : World}
    (h : Asks l file w request phase w') : phase.turns = [] ∧ phase.held = [] := by
  cases h <;> exact ⟨rfl, rfl⟩

/-- Any step of a call shifts its places: it keeps them, takes one more, or gives some up. -/
theorem shifts_step? {l : Ledger} {file : String} {phase phase' : Phase} {d d' : Desk}
    (hfit : phase.Fit) (h : phase.step? l file d = some (phase', d')) :
    Shifts file phase phase' d.gates d'.gates := by
  have hgranted : ∀ {turn : Turn}, d.gates.isGranted turn = true →
      ∀ t ∈ [turn], d.gates.isGranted t = true := by
    intro turn hturn t ht
    rw [List.mem_singleton.mp ht]
    exact hturn
  cases steps_of_step? h with
  | ask hask =>
    obtain ⟨hturns, hheld⟩ := hask.turns
    refine .stay hturns fun t ht => ?_
    rw [hheld] at ht
    exact absurd ht List.not_mem_nil
  | queue => exact .arrive rfl rfl
  | @begin turn task report hturn =>
    -- a task that begins has but the one turn that was waited for
    cases report with
    | settle turns answer => exact hfit.elim
    | _ => exact .stay rfl fun t ht => .inr (hgranted hturn t ht)
  | missEdge => exact .leave [_] (List.Perm.refl _) (fun _ ht => nomatch ht) (.inl rfl)
  | removeEdge hturn => exact .stay rfl fun t ht => .inr (hgranted hturn t ht)
  | removeSession => exact .leave [_] (List.Perm.refl _) (fun _ ht => nomatch ht) (.inr rfl)
  | removeSessionRefused => exact .leave [_] (List.Perm.refl _) (fun _ ht => nomatch ht) (.inl rfl)
  | @work turn task task' report w =>
    cases report <;> exact .stay rfl fun _ ht => .inl ht
  | @finish turn task report result w hreport =>
    -- the turn is given up; what is to be settled yet stays held
    cases report with
    | settle turns answer =>
      exact .leave [turn] (List.Perm.refl _) (fun _ ht => List.mem_cons_of_mem _ ht) (.inl rfl)
    | nobody => exact absurd rfl hreport
    | _ => exact .leave [turn] (List.Perm.refl _) (fun _ ht => nomatch ht) (.inl rfl)
  | finishAlone => exact .leave [_] (List.Perm.refl _) (fun _ ht => nomatch ht) (.inl rfl)
  | @breakOff session turns answer fault =>
    exact .leave turns (List.append_nil _ ▸ List.Perm.refl _) (fun _ ht => nomatch ht) (.inl rfl)
  | gather => exact .arrive rfl rfl
  | gathered hturn =>
    refine .stay rfl fun t ht => ?_
    rcases List.mem_append.mp ht with ht | ht
    · exact .inl ht
    · exact .inr (hgranted hturn t ht)
  | @removeNode node held affected w =>
    refine .leave _ ?_ (fun t ht => (List.mem_filter.mp ht).1) (.inl rfl)
    exact (List.perm_append_comm.trans (List.filter_append_perm _ held)).symm
  | persistNext =>
    exact .leave [_] (List.Perm.refl _) (fun _ ht => List.mem_cons_of_mem _ ht) (.inl rfl)
  | _ => exact .stay rfl fun _ ht => .inl ht

theorem Asks.fit {l : Ledger} {file : String} {request : Request} {phase : Phase} {w w' : World}
    (h : Asks l file w request phase w') : phase.Fit := by
  cases h <;> exact trivial

/-- Only a call that was just asked or waits already comes to wait for a single place. -/
theorem fit_step? {l : Ledger} {file : String} {phase phase' : Phase} {d d' : Desk}
    (hfit : phase.Fit) (h : phase.step? l file d = some (phase', d')) : phase'.Fit := by
  cases steps_of_step? h with
  | ask hask => exact hask.fit
  | @queue session aim =>
    cases aim with
    | work task report => cases report <;> exact hfit
    | _ => exact trivial
  | _ => exact trivial

theorem shifts_abandon (file : String) (phase : Phase) (g : Gates) :
    Shifts file phase (phase.abandon g).1 g (phase.abandon g).2 := by
  -- whoever was not working gives up all places
  have hall : Shifts file phase abandoned g (g.releaseAll phase.turns) :=
    .leave phase.turns (List.append_nil _ ▸ List.Perm.refl _)
      (fun _ ht => absurd ht List.not_mem_nil) (.inl rfl)
  cases phase with
  | working turn task report =>
    cases report with
    | settle turns answer =>
      -- the task goes on under its own turn; those that were to be settled after it are given up
      refine .leave turns ?_ ?_ (.inl rfl)
      · exact (List.perm_append_singleton turn turns).symm
      · intro t ht
        rw [List.mem_singleton.mp ht]
        exact List.mem_cons_self ..
    | _ => exact .stay rfl fun _ ht => .inl ht
  | finished result => exact .stay rfl fun _ ht => .inl ht
  | _ => exact hall

theorem fit_abandon {phase : Phase} (hfit : phase.Fit) (g : Gates) : (phase.abandon g).1.Fit := by
  cases phase with
  | working turn task report => cases report <;> exact trivial
  | _ => exact trivial

/-- When one call shifts its places, they and those of the others are still the ones at the gates,
and what the others hold stays granted to them. -/
theorem Shifts.preserves {file : String} {phase phase' : Phase} {g g' : Gates}
    (h : Shifts file phase phase' g g') (hkept : g.WellKept) {others : List Turn}
    (hturns : (phase.turns ++ others).Perm g.turns) (hfile : ∀ u ∈ phase.turns, u.file = file)
    (hheld : ∀ u ∈ phase.held, g.isGranted u = true) :
    g'.WellKept ∧ (phase'.turns ++ others).Perm g'.turns ∧ (∀ u ∈ phase'.turns, u.file = file) ∧
      (∀ u ∈ phase'.held, g'.isGranted u = true) ∧
      ∀ v ∈ others, g.isGranted v = true → g'.isGranted v = true := by
  cases h with
  | stay hsame hnow =>
    refine ⟨hkept, hsame ▸ hturns, hsame ▸ hfile, fun u hu => ?_, fun _ _ hv => hv⟩
    rcases hnow u hu with hu | hgranted
    · exact hheld u hu
    · exact hgranted
  | @arrive session hmore hnow =>
    obtain ⟨hkept', hturns', hfile', -⟩ := hkept.arrive file session
    refine ⟨hkept', ?_, fun u hu => ?_, ?_, fun v _ hv => Gates.isGranted_arrive hkept hv ..⟩
    · -- the new place is the last one at the gates and stands in front of the others here
      rw [hturns', hmore, List.append_assoc]
      refine ((List.Perm.append_left _ List.perm_append_comm).trans ?_).trans
        (hturns.append_right _)
      rw [List.append_assoc]
    · rw [hmore] at hu
      rcases List.mem_append.mp hu with hu | hu
      · exact hfile u hu
      · rw [List.mem_singleton.mp hu, hfile']
    · rw [hnow]
      exact fun u hu => Gates.isGranted_arrive hkept (hheld u hu) ..
  | leave ts hparts hnow hleft =>
    have hrest : (ts ++ (phase'.turns ++ others)).Perm g.turns := by
      rw [← List.append_assoc]
      exact (hparts.symm.append_right _).trans hturns
    -- what is given up bears no serial of what is left
    have hserials : ∀ u ∈ ts, ∀ v ∈ phase'.turns ++ others, u.serial ≠ v.serial := by
      have hnodup := (hrest.map Turn.serial).nodup_iff.mpr hkept.serials
      rw [List.map_append, List.nodup_append] at hnodup
      exact fun u hu v hv => hnodup.2.2 _ (List.mem_map_of_mem hu) _ (List.mem_map_of_mem hv)
    have hgranted : ∀ v ∈ phase'.turns ++ others, g.isGranted v = true →
        g'.isGranted v = true := by
      intro v hv hv'
      have hstill := Gates.isGranted_releaseAll ts hv' fun u hu => hserials u hu v hv
      rcases hleft with rfl | rfl
      · exact hstill
      · exact hstill
    have hkept' : g'.WellKept ∧ (phase'.turns ++ others).Perm g'.turns := by
      rcases hleft with rfl | rfl
      · exact ⟨hkept.releaseAll ts, hkept.perm_releaseAll ts hrest⟩
      · exact ⟨(hkept.releaseAll ts).prune, hkept.perm_releaseAll ts hrest⟩
    refine ⟨hkept'.1, hkept'.2, fun u hu => ?_, fun u hu => ?_, fun v hv => ?_⟩
    · exact hfile u (hparts.mem_iff.mpr (List.mem_append_right _ hu))
    · exact hgranted u (List.mem_append_left _ (mem_turns_of_mem_held hu)) (hheld u (hnow u hu))
    · exact hgranted v (List.mem_append_right _ hv)

end Phase

/-! ## All calls together -/

namespace Traffic

/-- The places that all calls have. -/
def turns (t : Traffic) : List Turn := t.calls.flatMap fun c => c.phase.turns

theorem perm_turns_middle (d : Desk) (pre post : List Call) (c : Call) :
    (turns ⟨d, pre ++ c :: post⟩).Perm
      (c.phase.turns ++ (pre ++ post).flatMap fun c => c.phase.turns) := by
  rw [turns, List.flatMap_append, List.flatMap_cons, List.flatMap_append]
  exact List.perm_append_comm_assoc ..

/-- The calls and the gates agree on who is where. -/
structure Orderly (t : Traffic) : Prop where
  /-- the gates are in order -/
  gates : t.desk.gates.WellKept
  /-- the places at the gates are those of the calls -/
  turns : t.turns.Perm t.desk.gates.turns
  /-- a call has places for sessions of its own file only -/
  file : ∀ c ∈ t.calls, ∀ u ∈ c.phase.turns, u.file = c.file
  /-- what a call holds was granted to it -/
  held : ∀ c ∈ t.calls, ∀ u ∈ c.phase.held, t.desk.gates.isGranted u = true
  /-- who waits for one place is to hold just that one -/
  fit : ∀ c ∈ t.calls, c.phase.Fit

namespace Orderly

theorem of_world (w : World) : Orderly (.of ⟨w, .empty⟩) where
  gates := Gates.wellKept_empty
  turns := List.Perm.refl _
  file _ hc := absurd hc List.not_mem_nil
  held _ hc := absurd hc List.not_mem_nil
  fit _ hc := absurd hc List.not_mem_nil

/-- The places of one call, in front of those of all others. -/
theorem perm_middle {t : Traffic} {pre post : List Call} {c : Call} (h : Orderly t)
    (hcalls : t.calls = pre ++ c :: post) :
    (c.phase.turns ++ (pre ++ post).flatMap fun c => c.phase.turns).Perm t.desk.gates.turns := by
  have hsame : t.turns = Traffic.turns ⟨t.desk, pre ++ c :: post⟩ := by
    rw [Traffic.turns, hcalls]
    rfl
  exact (hsame ▸ perm_turns_middle t.desk pre post c).symm.trans h.turns

/-- One call may shift its places; what the others hold stays granted to them. -/
theorem shift {t : Traffic} {pre post : List Call} {c : Call} {phase : Phase} {d : Desk}
    (h : Orderly t) (hcalls : t.calls = pre ++ c :: post)
    (hshift : Phase.Shifts c.file c.phase phase t.desk.gates d.gates) (hfit : phase.Fit) :
    Orderly ⟨d, pre ++ ⟨c.file, phase⟩ :: post⟩ := by
  have hothers : ∀ c' ∈ pre ++ post, c' ∈ t.calls := by
    intro c' hc'
    rw [hcalls]
    exact (List.Sublist.append_left (List.sublist_cons_self ..) pre).subset hc'
  have hcmem : c ∈ t.calls := hcalls ▸ List.mem_append_right _ (List.mem_cons_self ..)
  have hsplit : ∀ {P : Call → Prop}, (∀ x ∈ pre ++ post, P x) → P ⟨c.file, phase⟩ →
      ∀ x ∈ pre ++ ⟨c.file, phase⟩ :: post, P x := by
    intro P hall hc' x hx
    rcases List.mem_append.mp hx with hx | hx
    · exact hall x (List.mem_append_left _ hx)
    · rcases List.mem_cons.mp hx with rfl | hx
      · exact hc'
      · exact hall x (List.mem_append_right _ hx)
  have hfront := perm_turns_middle d pre post ⟨c.file, phase⟩
  obtain ⟨hgates, hturns, hfile, hheld, hstill⟩ :=
    hshift.preserves h.gates (h.perm_middle hcalls) (h.file c hcmem) (h.held c hcmem)
  refine ⟨hgates, hfront.trans hturns,
    hsplit (fun c' hc' => h.file c' (hothers c' hc')) hfile,
    hsplit (fun c' hc' u hu => ?_) hheld, hsplit (fun c' hc' => h.fit c' (hothers c' hc')) hfit⟩
  exact hstill u (List.mem_flatMap.mpr ⟨c', hc', Phase.mem_turns_of_mem_held hu⟩)
    (h.held c' (hothers c' hc') u hu)

/-- Every event keeps the calls and the gates in agreement. -/
theorem moves {l : Ledger} {t t' : Traffic} {event : Event} (h : Orderly t)
    (hmove : Moves l t event t') : Orderly t' := by
  cases hmove with
  | idle => exact h
  | ask =>
    rename_i file request
    obtain ⟨hgates, hturns, hfile, hheld, hfits⟩ := h
    have hnew : ∀ {P : Call → Prop}, (∀ c ∈ t.calls, P c) → P (.of file request) →
        ∀ c ∈ t.calls ++ [.of file request], P c := by
      intro P hall hof c hc
      rcases List.mem_append.mp hc with hc | hc
      · exact hall c hc
      · rw [List.mem_singleton.mp hc]
        exact hof
    refine ⟨hgates, ?_, hnew hfile fun u hu => absurd hu List.not_mem_nil,
      hnew hheld fun u hu => absurd hu List.not_mem_nil, hnew hfits trivial⟩
    rw [Traffic.turns, List.flatMap_append]
    exact (List.append_nil _).symm ▸ hturns
  | step hcalls hstep =>
    have hfit := h.fit _ (hcalls ▸ List.mem_append_right _ (List.mem_cons_self ..))
    exact h.shift hcalls (Phase.shifts_step? hfit hstep) (Phase.fit_step? hfit hstep)
  | abandon hcalls =>
    have hfit := h.fit _ (hcalls ▸ List.mem_append_right _ (List.mem_cons_self ..))
    exact h.shift hcalls (Phase.shifts_abandon ..) (Phase.fit_abandon hfit _)
  | change => exact ⟨h.gates, h.turns, h.file, h.held, h.fit⟩

/-- The calls and the gates agree at every moment. -/
theorem run (l : Ledger) (w : World) (events : Nat → Event) (n : Nat) :
    Orderly (history l w events n) :=
  run_invariant (of_world w) (fun n t h => h.moves (moves_next l t (events n))) n

/-- A session's turn is granted to one call only. -/
theorem eq_of_isGranted {t : Traffic} (h : Orderly t) {i j : Nat} {c c' : Call} {u v : Turn}
    (hi : t.calls[i]? = some c) (hj : t.calls[j]? = some c') (hu : u ∈ c.phase.turns)
    (hv : v ∈ c'.phase.turns) (hfile : c.file = c'.file) (hsession : u.session = v.session)
    (hug : t.desk.gates.isGranted u = true) (hvg : t.desk.gates.isGranted v = true) : i = j := by
  have hmem : ∀ {k : Nat} {c : Call} {u : Turn}, t.calls[k]? = some c → u ∈ c.phase.turns →
      u ∈ t.desk.gates.turns := fun hk hu =>
    h.turns.mem_iff.mp (List.mem_flatMap.mpr ⟨_, List.mem_of_getElem? hk, hu⟩)
  have huf := h.file c (List.mem_of_getElem? hi) u hu
  have hvf := h.file c' (List.mem_of_getElem? hj) v hv
  have heq : u = v := h.gates.eq_of_isGranted (hmem hi hu) (hmem hj hv)
    (huf.trans (hfile.trans hvf.symm)) hsession hug hvg
  -- one place cannot be among the places of two calls
  have hnodup : t.turns.Nodup := h.turns.nodup_iff.mpr (List.Nodup.of_map _ h.gates.serials)
  have hpairs := (List.nodup_flatMap.mp hnodup).2
  obtain ⟨hilt, rfl⟩ := List.getElem?_eq_some_iff.mp hi
  obtain ⟨hjlt, rfl⟩ := List.getElem?_eq_some_iff.mp hj
  rcases Nat.lt_trichotomy i j with hij | hij | hij
  · exact (List.pairwise_iff_getElem.mp hpairs i j hilt hjlt hij hu (heq ▸ hv)).elim
  · exact hij
  · exact (List.pairwise_iff_getElem.mp hpairs j i hjlt hilt hij hv (heq ▸ hu)).elim

end Orderly

end Traffic

end Ledger

end Runbook
