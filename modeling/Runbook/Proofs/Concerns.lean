import Runbook.Proofs.AlikeWorlds
import Runbook.Proofs.CausalChain

/-!
# The sessions that calls are about

Most calls are about one session from beginning to end: they wait for its turn only, and change and
store nothing but that session.

* `Request.Concerns`, `Phase.Concerns`: a call is about certain sessions, one at a time
* `Phase.concerns_step?`: it stays with them
* `Phase.Makes.of_concerns`, `Phase.stores_step?`, `Phase.lineOf_step?`: what it changes, what it
  stores, and which lines it leaves alone
-/

namespace Runbook

namespace Ledger

/-! ## What a call is about -/

/-- A request is about such sessions only, one at a time, and deletes none. An edge is about the
session whose step it is named as. -/
def Request.Concerns (p : String → Prop) : Request → Prop
  | .start name => p name
  | .record session _ _ => p session
  | .execute session _ => p session
  | .replay session => p session
  | .branch name _ => p name
  | .removeExecutionEdge edge => ∀ session position, edge = Session.edgeId session position →
    p session
  | .branchFromTree _ _ _ _ => False
  | .removeNode _ => False
  | .removeSession _ => False

/-- A caller that settles no further sessions. -/
def Report.IsSingle : Report → Prop
  | pass => True
  | session => True
  | settle turns _ => turns = []
  | nobody => False

/-- A turn that is taken to run the session or to cut it. -/
def Aim.IsSingle : Aim → Prop
  | work _ report => report.IsSingle
  | removeEdge _ => True
  | removeSession => False

namespace Phase

/-- A call is about such sessions only, one at a time. -/
def Concerns (p : String → Prop) : Phase → Prop
  | asked request => request.Concerns p
  | queueing session aim => p session ∧ aim.IsSingle
  | waiting turn aim => p turn.session ∧ aim.IsSingle
  | working turn _ report => p turn.session ∧ report.IsSingle
  | reported session report _ => p session ∧ report.IsSingle
  | looking session => p session
  | settling turns _ => turns = [] ∨ ∃ turn, turns = [turn] ∧ p turn.session
  | finished _ => True
  | gathering _ _ _ => False
  | gatheringNext _ _ _ _ => False
  | abandoned => False

variable {p : String → Prop} {l : Ledger} {file : String}

theorem Asks.concerns {request : Request} {phase : Phase} {w w' : World}
    (h : Asks l file w request phase w') (hp : request.Concerns p) (hdrawn : w.workspace.Drawn) :
    phase.Concerns p := by
  cases h with
  | start => exact trivial
  | record => exact ⟨hp, trivial⟩
  | execute => exact ⟨hp, trivial⟩
  | replay => exact ⟨hp, trivial⟩
  | branchRefused => exact trivial
  | branch => exact ⟨hp, trivial⟩
  | branchNowhere => exact hp.elim
  | branchFromTree => exact hp.elim
  | missEdge => exact trivial
  | @removeEdge edge owner howner =>
    obtain ⟨f, hf, hfind⟩ := Option.bind_eq_some_iff.mp howner
    obtain ⟨e, he, hsession⟩ := Option.bind_eq_some_iff.mp hfind
    have hid : e.id = edge := by simpa using List.find?_some he
    -- the edge is named as a step of the session whose step it is
    obtain ⟨position, hposition⟩ := hdrawn file f hf e (List.mem_of_find?_eq_some he) owner
      (Session.isExecutionOf_of_session? hsession)
    exact ⟨hp owner position (hid.symm.trans hposition), trivial⟩
  | removeNode => exact hp.elim
  | removeSession => exact hp.elim

/-- Whatever a call does, it stays with its sessions. -/
theorem concerns_step? {phase phase' : Phase} {d d' : Desk} (hp : phase.Concerns p)
    (hdrawn : d.world.workspace.Drawn) (h : phase.step? l file d = some (phase', d')) :
    phase'.Concerns p := by
  cases steps_of_step? h with
  | ask hask => exact hask.concerns hp hdrawn
  | queue => exact ⟨(Gates.session_arrive ..).symm ▸ hp.1, hp.2⟩
  | begin => exact hp
  | missEdge => exact trivial
  | removeEdge => exact .inr ⟨_, rfl, hp.1⟩
  | removeSession => exact hp.2.elim
  | removeSessionRefused => exact hp.2.elim
  | work => exact hp
  | finish => exact hp
  | finishAlone => exact hp.2.elim
  | give => exact trivial
  | giveFault => exact trivial
  | lookNext => exact hp.1
  | breakOff => exact trivial
  | goOn => exact .inl hp.2
  | ignore => exact hp.2.elim
  | look => exact trivial
  | gather => exact hp.elim
  | gathered => exact hp.elim
  | removeNode => exact hp.elim
  | settled => exact trivial
  | @replayNext turn turns =>
    rcases hp with hnil | ⟨u, hone, hu⟩
    · cases hnil
    · cases hone
      exact ⟨hu, rfl⟩
  | @persistNext turn turns =>
    rcases hp with hnil | ⟨u, hone, hu⟩
    · cases hnil
    · cases hone
      exact .inl rfl

theorem of_mem_turns {phase : Phase} (hp : phase.Concerns p) {u : Turn} (hu : u ∈ phase.turns) :
    p u.session := by
  cases phase with
  | waiting turn aim =>
    rw [List.mem_singleton.mp hu]
    exact hp.1
  | working turn task report =>
    have hone : u ∈ [turn] := by
      cases report with
      | settle turns answer =>
        obtain rfl : turns = [] := hp.2
        exact hu
      | _ => exact hu
    rw [List.mem_singleton.mp hone]
    exact hp.1
  | reported session report result =>
    cases report with
    | settle turns answer =>
      obtain rfl : turns = [] := hp.2
      cases hu
    | _ => cases hu
  | settling turns answer =>
    rcases hp with rfl | ⟨turn, rfl, hturn⟩
    · cases hu
    · rw [List.mem_singleton.mp hu]
      exact hturn
  | gathering node held sessions => exact hp.elim
  | gatheringNext node held turn sessions => exact hp.elim
  | _ => cases hu

/-- An update is about such a session only. -/
theorem Makes.of_concerns {d : Desk} {phase : Phase} {u : Update} (h : Makes l file d phase u)
    (hp : phase.Concerns p) (hsound : phase.Sound) {name : String} (hu : u.IsAbout name) :
    p name := by
  cases h with
  | start => exact hu ▸ hp
  | branch => exact hu ▸ hp
  | commit => exact hu ▸ hp.1
  | commitReplay => exact hu ▸ hsound.1.symm ▸ hp.1
  | removeEdge =>
    obtain ⟨i, hi⟩ := hu
    obtain ⟨j, hj⟩ := hsound
    exact (Session.edgeId_inj (hi.symm.trans hj)).1 ▸ hp.1
  | removeSession => exact hp.2.elim
  | removeNode => exact hp.elim

end Phase

/-! ## What a call stores, and where it stands in line -/

/-- Running code does nothing but count the calls of the runner. -/
theorem Run.world_eq {l : Ledger} {r : Run} {next : Next} {w v : World}
    (h : r.step l w = (next, v)) : ∃ calls, v = { w with calls } := by
  rw [step] at h
  split at h
  · cases h
    exact ⟨w.calls, rfl⟩
  · cases h
    exact ⟨w.calls + 1, rfl⟩
  · split at h <;> cases h <;> exact ⟨w.calls, rfl⟩

theorem Task.stores_step {p : String → Prop} {l : Ledger} {file session : String} {task : Task}
    {next : Next} {w v : World} (hp : p session) (hsound : task.Sound session)
    (h : task.step l file session w = (next, v)) : w.Stores file p v := by
  cases steps_of_step h with
  | run hrun =>
    obtain ⟨calls, rfl⟩ := Run.world_eq hrun
    exact .inl rfl
  | breakDown hrun =>
    obtain ⟨calls, rfl⟩ := Run.world_eq hrun
    exact .inl rfl
  | @commit node run rest result e w₁ w₂ hrun hcommit =>
    obtain ⟨calls, rfl⟩ := Run.world_eq hrun
    have hstores := World.stores_commit l file hp node result { w with calls }
    rw [hcommit] at hstores
    exact hstores
  | @commitAnew scratch n w₁ hcommit =>
    have hstores := World.stores_commitReplay l file (hsound.1.symm ▸ hp) w
    rw [hcommit] at hstores
    exact hstores
  | runAnew hrun =>
    obtain ⟨calls, rfl⟩ := Run.world_eq hrun
    exact .inl rfl
  | breakDownAnew hrun =>
    obtain ⟨calls, rfl⟩ := Run.world_eq hrun
    exact .inl rfl
  | pushAnew hrun =>
    obtain ⟨calls, rfl⟩ := Run.world_eq hrun
    exact .inl rfl
  | _ => exact .inl rfl

namespace Phase

variable {p : String → Prop} {l : Ledger} {file : String} {phase phase' : Phase} {d d' : Desk}

/-- A step of a call stores at most one state, for a session that it is about. -/
theorem stores_step? (hp : phase.Concerns p) (hsound : phase.Sound)
    (h : phase.step? l file d = some (phase', d')) : d.world.Stores file p d'.world := by
  cases steps_of_step? h with
  | ask hask =>
    have hstart : ∀ {name : String} {outcome : Except Fault Session} {w : World}, p name →
        d.world.start l file name = (outcome, w) → d.world.Stores file p w := by
      intro name outcome w hname hstart
      have hstores := World.stores_start l file hname d.world
      rw [hstart] at hstores
      exact hstores
    cases hask with
    | start hrun => exact hstart hp hrun
    | branchRefused hrun => exact hstart hp hrun
    | branch hrun => exact hstart hp hrun
    | _ => exact .inl rfl
  | @missEdge turn edge w _ hremove =>
    have hstores : d.world.Stores file p _ := World.stores_removeEdge edge d.world
    rw [hremove] at hstores
    exact hstores
  | @removeEdge turn edge removal w _ hremove =>
    have hstores : d.world.Stores file p _ := World.stores_removeEdge edge d.world
    rw [hremove] at hstores
    exact hstores
  | removeSession => exact hp.2.elim
  | removeSessionRefused => exact hp.2.elim
  | work hstep => exact Task.stores_step hp.1 hsound hstep
  | finish _ hstep => exact Task.stores_step hp.1 hsound hstep
  | finishAlone hstep => exact Task.stores_step hp.1 hsound hstep
  | removeNode => exact hp.elim
  | @persistNext turn turns answer =>
    rcases hp with hnil | ⟨u, hone, hu⟩
    · cases hnil
    · cases hone
      exact World.stores_persistSession l file hu d.world
  | _ => exact .inl rfl

/-- A step of a call leaves the lines of the sessions that it is not about. -/
theorem lineOf_step? {other name : String} (hp : phase.Concerns p)
    (hother : file = other → ¬ p name)
    (hfit : phase.Fit) (hkept : d.gates.WellKept) (hturns : ∀ u ∈ phase.turns, u ∈ d.gates.turns)
    (hfile : ∀ u ∈ phase.turns, u.file = file) (hdrawn : d.world.workspace.Drawn)
    (h : phase.step? l file d = some (phase', d')) :
    d'.gates.lineOf other name = d.gates.lineOf other name := by
  have hp' := concerns_step? hp hdrawn h
  have hshifts := shifts_step? hfit h
  generalize d'.gates = g at hshifts ⊢
  cases hshifts with
  | stay => rfl
  | @arrive session hmore =>
    -- the new place is at the gate of a session that the call is about
    have hnew : p session := by
      rw [← d.gates.session_arrive file session]
      exact of_mem_turns hp' (hmore ▸ List.mem_append_right _ (List.mem_singleton_self _))
    rw [hkept.lineOf_arrive, if_neg, List.append_nil]
    rintro ⟨hsame, rfl⟩
    exact hother hsame hnew
  | leave ts hparts _ hgates =>
    have hline : (d.gates.releaseAll ts).lineOf other name = d.gates.lineOf other name := by
      refine Gates.lineOf_releaseAll ts fun t ht u hu hserial => ?_
      have htmem : t ∈ phase.turns := hparts.mem_iff.mpr (List.mem_append_left _ ht)
      obtain ⟨humem, hufile, husession⟩ := Gates.mem_lineOf.mp hu
      obtain rfl := hkept.eq_of_serial humem (hturns t htmem) hserial
      exact hother ((hfile u htmem).symm.trans hufile) (husession ▸ of_mem_turns hp htmem)
    rcases hgates with rfl | rfl
    · exact hline
    · exact hline

end Phase

end Ledger

end Runbook
