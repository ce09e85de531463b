import Runbook.Proofs.CausalChain
import Runbook.Proofs.Replay
import Runbook.Proofs.Splices

/-!
# Deletions of nodes among other calls

A call that deletes a node first looks which sessions ran it, then takes their turns one after
another, then deletes the node, and settles the sessions whose turns it holds. A session that ran
the node when the call looked is safe: nobody else is at work on it when it loses its steps, and it
is settled before the call gives its answer. A session that comes to run the node while the call
waits for others loses its steps all the same, but without its turn, and is not settled.

* `Phase.gathers?`, `Traffic.Looks`: the sessions whose turns a call takes
* `Phase.Owes`: the sessions that a call has yet to settle before it gives its answer
* `Phase.Settles`, `Phase.Discards`: what comes of a session that is settled
* `Phase.Owes.step`: a step settles the next session, or breaks off
* `Traffic.Orderly.session?_ne_none`: a session whose turn is held stays
* `Traffic.Stands`: where a call stands some time after it has deleted a node
* `Traffic.deletion_settles`: which sessions a deletion waits for and settles
-/

namespace Runbook

/-! ## Putting a session in place -/

/-- A session run anew takes the place of the one that is there, and its state is stored, unless a
node that ran is gone. -/
theorem World.commitReplay_cases (l : Ledger) {file : String} {scratch : Session} {w : World}
    (hthere : w.workspace.session? file scratch.id ≠ none) :
    (∃ w', w.commitReplay l file scratch =
          (scratch.length, World.persist l file scratch.id scratch.overall w') ∧
        w'.store = w.store ∧ w'.workspace.session? file scratch.id = some scratch) ∨
      ∃ f gone, w.workspace.file? file = some f ∧ gone ∈ scratch.path ∧
        f.graph.hasNode gone = false ∧ w.commitReplay l file scratch = (0, w) := by
  obtain ⟨s, hs⟩ := Option.ne_none_iff_exists'.mp hthere
  obtain ⟨f, hf, hget⟩ := Option.bind_eq_some_iff.mp hs
  by_cases hall : ∀ e ∈ scratch.executions, f.graph.hasNode e.node = true
  · obtain ⟨pre, post, -, hfirst, happly, hcommit⟩ := Ledger.commitReplay_eq l hf hget hall
    refine .inl ⟨_, hcommit, rfl, ?_⟩
    rw [happly, Workspace.session?, Workspace.file?_setFile_self, Option.bind_some]
    exact Book.get?_of_first hfirst rfl
  · obtain ⟨e, he, hgone⟩ : ∃ e ∈ scratch.executions, f.graph.hasNode e.node = false := by
      simpa using hall
    have hpath : e.node ∈ scratch.path := List.mem_map_of_mem he
    have hnot : scratch.path.all f.graph.hasNode = false :=
      List.all_eq_false.mpr ⟨e.node, hpath, by simp [hgone]⟩
    refine .inr ⟨f, e.node, hf, hpath, hgone, ?_⟩
    rw [commitReplay, Workspace.commitReplay?, Workspace.update?, hf, Option.bind_some,
      FileState.commitReplay?, hnot]
    rfl

/-- The sessions that a deletion of a node gives were there, and stay. -/
theorem Workspace.session?_ne_none_of_removeNode {w w' : Workspace} {file : String} {node : NodeId}
    {now : Instant} {names : List String} (h : w.removeNode file node now = (names, w'))
    {name : String} (hname : name ∈ names) : w'.session? file name ≠ none := by
  have hthere : w.session? file name ≠ none := by
    rw [removeNode, update] at h
    cases hf : w.file? file with
    | none =>
      rw [hf] at h
      cases h
      cases hname
    | some f =>
      rw [hf] at h
      obtain rfl : (f.removeNode node now).1 = names := congrArg Prod.fst h
      refine session?_ne_none_iff.mpr ⟨f, hf, ?_⟩
      rcases f.removeNode_cases node now with ⟨-, heq⟩ | ⟨-, -, g, sessions', heq, -⟩
      · rw [heq] at hname
        cases hname
      · rw [heq] at hname
        exact f.book.touching_subset_names node hname
  have hother : Update.removeNode node now ≠ .removeSession name := by rintro ⟨⟩
  have hstays := session?_ne_none_apply (.removeNode node now) file hthere fun _ => hother
  rwa [Update.apply, h] at hstays

namespace Ledger

/-! ## Tasks that run a session anew -/

/-- Whether a task is to run its session anew, or doing so. -/
def Task.IsAnew (session : String) (task : Task) : Prop :=
  (task = .replay ∨ Traffic.Replays task) ∧ task.Sound session

theorem Task.IsAnew.step {l : Ledger} {file session : String} {task task' : Task} {w w' : World}
    (h : task.IsAnew session) (hstep : task.step l file session w = (.more task', w')) :
    task'.IsAnew session := by
  refine ⟨.inr ?_, h.2.step hstep⟩
  obtain ⟨hkind, -⟩ := h
  cases steps_of_step hstep with
  | readPath => exact .inl ⟨_, _, rfl⟩
  | skipAnew => exact .inl ⟨_, _, rfl⟩
  | dispatchAnew => exact .inr ⟨_, _, _, _, rfl⟩
  | runAnew => exact .inr ⟨_, _, _, _, rfl⟩
  | pushAnew => exact .inl ⟨_, _, rfl⟩
  | _ => rcases hkind with h | ⟨_, _, h⟩ | ⟨_, _, _, _, h⟩ <;> cases h

namespace Phase

variable {l : Ledger} {file : String} {phase phase' : Phase} {d d' : Desk}

/-! ## Turns that are taken before a deletion -/

/-- The node that a call is to delete, and all sessions whose turns it takes before. -/
def gathers? : Phase → Option (NodeId × List String)
  | gathering node held sessions => some (node, held.map Turn.session ++ sessions)
  | gatheringNext node held turn sessions =>
    some (node, held.map Turn.session ++ turn.session :: sessions)
  | _ => none

/-- The sessions are those that had run the node when the call looked. -/
theorem of_step?_gathers {node : NodeId} {names : List String}
    (hstep : phase.step? l file d = some (phase', d'))
    (h : phase'.gathers? = some (node, names)) :
    phase.gathers? = some (node, names) ∨
      phase = asked (.removeNode node) ∧ names = d.world.touching file node ∧
        phase' = gathering node [] names := by
  cases steps_of_step? hstep with
  | ask hask =>
    cases hask with
    | removeNode =>
      cases h
      exact .inr ⟨rfl, rfl, rfl⟩
    | _ => cases h
  | gather =>
    left
    rw [← h, gathers?, gathers?, Gates.session_arrive]
  | gathered =>
    left
    rw [← h, gathers?, gathers?, List.map_append, List.append_assoc]
    rfl
  | _ => cases h

theorem gathers?_abandon (phase : Phase) (g : Gates) : (phase.abandon g).1.gathers? = none := by
  cases phase with
  | working turn task report => cases report <;> rfl
  | _ => rfl

/-! ## Settling -/

/-- The sessions that a call has yet to settle, by their turns, before it gives its answer. -/
inductive Owes (l : Ledger) (answer : Answer) : List Turn → Phase → Prop
  /-- no session is being settled -/
  | between {turns : List Turn} : Owes l answer turns (settling turns answer)
  /-- the first of them is being run anew -/
  | anew {turn : Turn} {turns : List Turn} {task : Task}
    (hmode : l.settings.replayOnRemoval = true) (htask : task.IsAnew turn.session) :
    Owes l answer (turn :: turns) (working turn task (.settle turns answer))
  /-- one more was run anew -/
  | told {session : String} {turns : List Turn} {other : Answer} :
    Owes l answer turns (reported session (.settle turns answer) (.ok other))

/-- No answer is to be expected of the call. -/
inductive IsLost : Phase → Prop
  /-- it has ended in a fault -/
  | failed {fault : Fault} : IsLost (finished (.error fault))
  /-- its caller has gone away -/
  | abandoned : IsLost abandoned
  /-- its caller has gone away from a task -/
  | orphaned {turn : Turn} {task : Task} : IsLost (working turn task .nobody)
  /-- it will end in a fault -/
  | failing {session : String} {turns : List Turn} {answer : Answer} {fault : Fault} :
    IsLost (reported session (.settle turns answer) (.error fault))

/-- A step by which a session is settled. -/
inductive Settles (l : Ledger) (file name : String) (d d' : Desk) : Phase → Phase → Prop
  /-- the state that the session has is stored -/
  | store {turn : Turn} {turns : List Turn} {answer : Answer} {s : Session}
    (hmode : l.settings.replayOnRemoval = false) (hname : turn.session = name)
    (hs : d'.world.workspace.session? file name = some s)
    (hstore : d'.world.store = (d.world.store.save file name s.overall).2) :
    Settles l file name d d' (settling (turn :: turns) answer) (settling turns answer)
  /-- the session has run anew, takes its place, and its state is stored -/
  | replay {turn : Turn} {turns : List Turn} {answer : Answer} {scratch : Session}
    (hmode : l.settings.replayOnRemoval = true) (hname : turn.session = name)
    (hs : d'.world.workspace.session? file name = some scratch)
    (hstore : d'.world.store = (d.world.store.save file name scratch.overall).2) :
    Settles l file name d d' (working turn (.replayPath scratch []) (.settle turns answer))
      (reported turn.session (.settle turns answer) (.ok (.count scratch.length)))

/-- A step by which a session that has run anew is dropped, because a node that ran is gone. -/
inductive Discards (l : Ledger) (file name : String) (d d' : Desk) : Phase → Phase → Prop
  /-- nothing is put in place, and nothing stored -/
  | drop {turn : Turn} {turns : List Turn} {answer : Answer} {scratch : Session} {f : FileState}
    {gone : NodeId} (hmode : l.settings.replayOnRemoval = true) (hname : turn.session = name)
    (hf : d.world.workspace.file? file = some f) (hgone : gone ∈ scratch.path)
    (hnode : f.graph.hasNode gone = false) (hsame : d'.world = d.world) :
    Discards l file name d d' (working turn (.replayPath scratch []) (.settle turns answer))
      (reported turn.session (.settle turns answer) (.ok (.count 0)))

variable {answer : Answer} {turns : List Turn} {name : String}

theorem Owes.held (h : phase.Owes l answer turns) : phase.held = turns := by
  cases h <;> rfl

/-- Only a session whose turn is held is settled. -/
theorem Settles.mem_held (h : Settles l file name d d' phase phase') :
    name ∈ phase.held.map Turn.session := by
  cases h with
  | store _ hname => exact hname ▸ List.mem_cons_self ..
  | replay _ hname => exact hname ▸ List.mem_cons_self ..

theorem Discards.mem_held (h : Discards l file name d d' phase phase') :
    name ∈ phase.held.map Turn.session := by
  cases h with
  | drop _ hname => exact hname ▸ List.mem_cons_self ..

theorem Settles.not_isLost (h : Settles l file name d d' phase phase') : ¬ phase.IsLost := by
  cases h <;> exact nofun

theorem Discards.not_isLost (h : Discards l file name d d' phase phase') : ¬ phase.IsLost := by
  cases h
  exact nofun

/-- What becomes of the session that a call is settling when the task for that is over. -/
theorem Owes.finish {turn : Turn} {task : Task} {result : Except Fault Answer} {w : World}
    {g : Gates} (hl : l.settings.persist = true) (hmode : l.settings.replayOnRemoval = true)
    (htask : task.IsAnew turn.session)
    (hthere : d.world.workspace.session? file turn.session ≠ none)
    (hstep : task.step l file turn.session d.world = (.over result, w)) :
    IsLost (reported turn.session (.settle turns answer) result) ∨
      (Owes l answer turns (reported turn.session (.settle turns answer) result) ∧
        (Settles l file turn.session d ⟨w, g⟩ (working turn task (.settle turns answer))
            (reported turn.session (.settle turns answer) result) ∨
          Discards l file turn.session d ⟨w, g⟩ (working turn task (.settle turns answer))
            (reported turn.session (.settle turns answer) result))) := by
  obtain ⟨hkind, hsound⟩ := htask
  cases Task.steps_of_step hstep with
  | missAnew hs => exact absurd hs hthere
  | @commitAnew scratch n _ hcommit =>
    have hid : scratch.id = turn.session := hsound.1
    refine .inr ⟨.told, ?_⟩
    rcases World.commitReplay_cases l (hid ▸ hthere) with
      ⟨w', hput, hstore, hs⟩ | ⟨f, gone, hf, hgone, hnode, hput⟩
    · obtain ⟨rfl, rfl⟩ := Prod.mk.inj (hcommit.symm.trans hput)
      refine .inl (.replay hmode rfl ?_ ?_)
      · rw [World.workspace_persist, ← hid]
        exact hs
      · rw [World.store_persist, if_pos hl, hstore, hid]
    · obtain ⟨rfl, rfl⟩ := Prod.mk.inj (hcommit.symm.trans hput)
      exact .inr (.drop hmode rfl hf hgone hnode rfl)
  | breakDownAnew => exact .inl .failing
  | _ => rcases hkind with h | ⟨_, _, h⟩ | ⟨_, _, _, _, h⟩ <;> cases h

/-- A step of a call that settles sessions, of which the next is there, leaves as many to settle, or
settles the next, or leads to the answer, or to none. -/
theorem Owes.step (hl : l.settings.persist = true) (h : phase.Owes l answer turns)
    (hthere : ∀ turn ∈ turns.head?, d.world.workspace.session? file turn.session ≠ none)
    (hstep : phase.step? l file d = some (phase', d')) :
    phase'.Owes l answer turns ∨
      (∃ turn rest, turns = turn :: rest ∧ phase'.Owes l answer rest ∧
        (Settles l file turn.session d d' phase phase' ∨
          Discards l file turn.session d d' phase phase')) ∨
      (turns = [] ∧ phase' = finished (.ok answer)) ∨ phase'.IsLost := by
  cases h with
  | between =>
    cases steps_of_step? hstep with
    | settled => exact .inr (.inr (.inl ⟨rfl, rfl⟩))
    | replayNext hmode => exact .inl (.anew hmode ⟨.inl rfl, trivial⟩)
    | @persistNext turn rest _ hmode =>
      obtain ⟨s, hs⟩ := Option.ne_none_iff_exists'.mp (hthere turn rfl)
      refine .inr (.inl ⟨turn, rest, rfl, .between, .inl (.store hmode rfl (s := s) ?_ ?_)⟩)
      · rw [World.workspace_persistSession]
        exact hs
      · rw [World.persistSession, hs]
        simp only [World.store_persist, if_pos hl]
  | @anew turn rest task hmode htask =>
    cases steps_of_step? hstep with
    | work hwork => exact .inl (.anew hmode (htask.step hwork))
    | finish _ hover =>
      rcases Owes.finish hl hmode htask (hthere turn rfl) hover with hlost | ⟨howes, hdone⟩
      · exact .inr (.inr (.inr hlost))
      · exact .inr (.inl ⟨turn, rest, rfl, howes, hdone⟩)
  | told =>
    cases steps_of_step? hstep with
    | goOn => exact .inl .between

theorem Owes.abandon (h : phase.Owes l answer turns) (g : Gates) : (phase.abandon g).1.IsLost := by
  cases h with
  | between => exact .abandoned
  | anew => exact .orphaned
  | told => exact .abandoned

theorem IsLost.step (h : phase.IsLost) (hstep : phase.step? l file d = some (phase', d')) :
    phase'.IsLost := by
  cases h with
  | failed => cases hstep
  | abandoned => cases hstep
  | orphaned =>
    cases steps_of_step? hstep with
    | work => exact .orphaned
    | finish hreport => exact absurd rfl hreport
    | finishAlone => exact .abandoned
  | failing =>
    cases steps_of_step? hstep with
    | breakOff => exact .failed

theorem IsLost.abandon (h : phase.IsLost) (g : Gates) : (phase.abandon g).1.IsLost := by
  cases h with
  | failed => exact .failed
  | abandoned => exact .abandoned
  | orphaned => exact .orphaned
  | failing => exact .abandoned

end Phase

/-! ## Moments of a run -/

/-- Whether an event is none by which a file is changed past the calls. -/
def Event.ByCalls : Event → Prop
  | change _ _ => False
  | _ => True

namespace Traffic

/-- At moment `n` the call looks which sessions ran the node that it is to delete. -/
def Looks (σ : Nat → Traffic) (i n : Nat) (file : String) (node : NodeId) : Prop :=
  (σ n).calls[i]? = some ⟨file, .asked (.removeNode node)⟩ ∧
    (σ (n + 1)).calls[i]? =
      some ⟨file, .gathering node [] ((σ n).desk.world.touching file node)⟩

/-- At moment `n` the call deletes the node, which takes it out of the sessions that are given. -/
def Deletes (σ : Nat → Traffic) (i n : Nat) (file : String) (node : NodeId)
    (affected : List String) : Prop :=
  ∃ held kept, (σ n).calls[i]? = some ⟨file, .gathering node held []⟩ ∧
    (σ (n + 1)).calls[i]? = some ⟨file, .settling kept (.names affected)⟩

/-- At moment `n` the session loses steps. -/
def LosesSteps (σ : Nat → Traffic) (n : Nat) (file name : String) : Prop :=
  ∃ s s', (σ n).session? file name = some s ∧ (σ (n + 1)).session? file name = some s' ∧
    s'.length < s.length

/-- At moment `n` the call settles the session: stores the state it has, or has run it anew. -/
def Settles (l : Ledger) (σ : Nat → Traffic) (i n : Nat) (file name : String) : Prop :=
  ∃ phase phase', (σ n).calls[i]? = some ⟨file, phase⟩ ∧
    (σ (n + 1)).calls[i]? = some ⟨file, phase'⟩ ∧
    Phase.Settles l file name (σ n).desk (σ (n + 1)).desk phase phase'

/-- At moment `n` the call has run the session anew, but drops that, as a node that ran is gone. -/
def Discards (l : Ledger) (σ : Nat → Traffic) (i n : Nat) (file name : String) : Prop :=
  ∃ phase phase', (σ n).calls[i]? = some ⟨file, phase⟩ ∧
    (σ (n + 1)).calls[i]? = some ⟨file, phase'⟩ ∧
    Phase.Discards l file name (σ n).desk (σ (n + 1)).desk phase phase'

/-- Whether a call holds a session's turn. -/
def HoldsTurn (t : Traffic) (i : Nat) (file name : String) : Prop :=
  ∃ phase, t.calls[i]? = some ⟨file, phase⟩ ∧ ∃ turn ∈ phase.held, turn.session = name

/-- Whether a call is running a step of a session that is not recorded yet. -/
def IsRunning (t : Traffic) (i : Nat) (file name : String) : Prop :=
  ∃ turn node run rest report, turn.session = name ∧
    t.calls[i]? = some ⟨file, .working turn (.running node run rest) report⟩

/-- A call that is running a step of a session holds the session's turn. -/
theorem IsRunning.holdsTurn {t : Traffic} {i : Nat} {file name : String}
    (h : t.IsRunning i file name) : t.HoldsTurn i file name := by
  obtain ⟨turn, node, run, rest, report, hname, hi⟩ := h
  refine ⟨_, hi, turn, ?_, hname⟩
  cases report <;> exact List.mem_cons_self ..

/-- No two calls hold the turn of one session. -/
theorem Orderly.eq_of_holdsTurn {t : Traffic} (h : Orderly t) {i j : Nat} {file name : String}
    (hi : t.HoldsTurn i file name) (hj : t.HoldsTurn j file name) : i = j := by
  obtain ⟨phase, hi, u, hu, rfl⟩ := hi
  obtain ⟨phase', hj, v, hv, hsession⟩ := hj
  exact h.eq_of_isGranted hi hj (Phase.mem_turns_of_mem_held hu) (Phase.mem_turns_of_mem_held hv)
    rfl hsession.symm (h.held _ (List.mem_of_getElem? hi) u hu)
    (h.held _ (List.mem_of_getElem? hj) v hv)

/-- A session whose turn is held stays, for it is deleted only by who has been granted its turn. -/
theorem Orderly.session?_ne_none {l : Ledger} {t t' : Traffic} {event : Event} (h : Orderly t)
    (hevent : event.ByCalls) (hmove : Moves l t event t') {i : Nat} {file name : String}
    (hi : t.HoldsTurn i file name) (hs : t.session? file name ≠ none) :
    t'.session? file name ≠ none := by
  rcases hmove.workspace with hsame | ⟨j, c, u, -, hj, hmakes, happly⟩ | ⟨_, _, rfl, -⟩
  · rw [session?, hsame]
    exact hs
  · rw [session?, happly]
    refine Workspace.session?_ne_none_apply u c.file hs ?_
    rintro rfl rfl
    obtain ⟨phase, hi, v, hv, hname⟩ := hi
    obtain ⟨file, phase'⟩ := c
    cases hmakes with
    | @removeSession turn hgranted =>
      obtain rfl : i = j := h.eq_of_isGranted hi hj (Phase.mem_turns_of_mem_held hv)
        (List.mem_singleton_self turn) rfl hname
        (h.held _ (List.mem_of_getElem? hi) v hv) hgranted
      -- one and the same call would hold the turn and wait for it
      cases hi.symm.trans hj
      cases hv
  · exact hevent.elim

/-! ## Before the deletion -/

section

variable {l : Ledger} {σ : Nat → Traffic} {events : Nat → Event} {i m : Nat} {file : String}
  {node : NodeId} {affected : List String}

/-- Whoever takes turns to delete a node has looked before which sessions ran it. -/
theorem looks_of_gathers (hinit : (σ 0).calls = [])
    (hnext : ∀ n, Moves l (σ n) (events n) (σ (n + 1))) {names : List String} (n : Nat) :
    ∀ phase, (σ n).calls[i]? = some ⟨file, phase⟩ → phase.gathers? = some (node, names) →
      ∃ a, a < n ∧ Looks σ i a file node ∧ names = (σ a).desk.world.touching file node := by
  induction n with
  | zero =>
    intro phase hi
    rw [hinit] at hi
    cases hi
  | succ n ih =>
    intro phase hi hgathers
    have hbefore : ∀ before, (σ n).calls[i]? = some ⟨file, before⟩ →
        before.gathers? = some (node, names) →
        ∃ a, a < n + 1 ∧ Looks σ i a file node ∧ names = (σ a).desk.world.touching file node := by
      intro before hold hsame
      obtain ⟨a, ha, hlooks⟩ := ih before hold hsame
      exact ⟨a, Nat.lt_succ_of_lt ha, hlooks⟩
    rcases (hnext n).call hi with ⟨hold, -⟩ | ⟨_, _, -, heq⟩ | ⟨before, -, hold, hstep⟩ |
      ⟨before, -, -, heq⟩
    · exact hbefore phase hold hgathers
    · cases heq
      cases hgathers
    · rcases Phase.of_step?_gathers hstep hgathers with hsame | ⟨rfl, hnames, rfl⟩
      · exact hbefore before hold hsame
      · exact ⟨n, Nat.lt_succ_self n, ⟨hold, hnames ▸ hi⟩, hnames⟩
    · rw [← show _ = phase from heq, Phase.gathers?_abandon] at hgathers
      cases hgathers

/-- What a call does when it deletes a node. -/
theorem Deletes.step (hnext : ∀ n, Moves l (σ n) (events n) (σ (n + 1)))
    (h : Deletes σ i m file node affected) :
    ∃ held, (σ m).calls[i]? = some ⟨file, .gathering node held []⟩ ∧
      (σ m).desk.world.workspace.removeNode file node (σ m).desk.world.now =
        (affected, (σ (m + 1)).desk.world.workspace) ∧
      (σ (m + 1)).calls[i]? = some ⟨file, .settling
        (held.filter fun t => affected.contains t.session) (.names affected)⟩ := by
  obtain ⟨held, kept, hm, hm'⟩ := h
  refine ⟨held, hm, ?_⟩
  rcases (hnext m).call_after hm with hsame | ⟨phase, hstep, hphase⟩ | hgone
  · cases hsame.symm.trans hm'
  · cases hphase.symm.trans hm'
    generalize hdesk : (σ (m + 1)).desk = d' at hstep ⊢
    cases Phase.steps_of_step? hstep with
    | removeNode hremove =>
      exact ⟨congrArg (fun p : List String × World => (p.1, p.2.workspace)) hremove, hm'⟩
  · cases hgone.symm.trans hm'

/-- Who loses steps by a deletion ran the node, and is given as one of those that did. -/
theorem Deletes.mem_affected (hnext : ∀ n, Moves l (σ n) (events n) (σ (n + 1)))
    (h : Deletes σ i m file node affected) {name : String} (hloses : LosesSteps σ m file name) :
    name ∈ affected := by
  obtain ⟨held, -, hremove, -⟩ := h.step hnext
  obtain ⟨s, s', hs, hs', hlt⟩ := hloses
  have hcases := (σ m).desk.world.workspace.session?_removeNode file node (σ m).desk.world.now file
    name
  rw [hremove] at hcases
  rcases hcases with hsame | ⟨-, _, _, _, -, -, -, -, -, hmem⟩
  · obtain rfl := Option.some.inj (hs.symm.trans (hsame.symm.trans hs'))
    exact absurd hlt (Nat.lt_irrefl _)
  · exact hmem

end

/-! ## After the deletion -/

/-- The session was settled by the call after moment `m` and before moment `n`, or dropped when it
had been run anew. -/
def WasSettled (l : Ledger) (σ : Nat → Traffic) (i m n : Nat) (file name : String) : Prop :=
  ∃ q, m < q ∧ q < n ∧ (Settles l σ i q file name ∨ Discards l σ i q file name)

/-- Where a call stands at moment `n` that went to settle some sessions after moment `m`: each of
them has been settled, or the call holds its turn yet. -/
inductive Stands (l : Ledger) (σ : Nat → Traffic) (i m n : Nat) (file : String) (answer : Answer)
    (kept : List Turn) : Phase → Prop
  /-- some sessions are not settled yet -/
  | owing {phase : Phase} {turns : List Turn} (howes : phase.Owes l answer turns)
    (hsub : turns ⊆ kept)
    (hthere : ∀ turn ∈ turns, (σ n).session? file turn.session ≠ none)
    (hrest : ∀ turn ∈ kept, turn ∈ turns ∨ WasSettled l σ i m n file turn.session) :
    Stands l σ i m n file answer kept phase
  /-- the call has given its answer -/
  | answered (hall : ∀ turn ∈ kept, WasSettled l σ i m n file turn.session) :
    Stands l σ i m n file answer kept (.finished (.ok answer))
  /-- the call gives no answer -/
  | lost {phase : Phase} (hlost : phase.IsLost) : Stands l σ i m n file answer kept phase

section

variable {l : Ledger} {σ : Nat → Traffic} {events : Nat → Event} {i m n : Nat} {file : String}
  {answer : Answer} {kept : List Turn}

theorem WasSettled.succ {name : String} (h : WasSettled l σ i m n file name) :
    WasSettled l σ i m (n + 1) file name := by
  obtain ⟨q, hmq, hqn, hdone⟩ := h
  exact ⟨q, hmq, Nat.lt_succ_of_lt hqn, hdone⟩

/-- A step of the call, of any other call, or the caller going away. -/
theorem Stands.succ (hl : l.settings.persist = true)
    (hmove : Moves l (σ n) (events n) (σ (n + 1))) (horderly : Orderly (σ n))
    (hevent : (events n).ByCalls) (hmn : m < n) {phase : Phase}
    (hn : (σ n).calls[i]? = some ⟨file, phase⟩)
    (h : Stands l σ i m n file answer kept phase) :
    ∃ phase', (σ (n + 1)).calls[i]? = some ⟨file, phase'⟩ ∧
      Stands l σ i m (n + 1) file answer kept phase' := by
  cases h with
  | lost hlost =>
    rcases hmove.call_after hn with hsame | ⟨phase', hstep, hphase⟩ | hgone
    · exact ⟨_, hsame, .lost hlost⟩
    · exact ⟨_, hphase, .lost (hlost.step hstep)⟩
    · exact ⟨_, hgone, .lost (hlost.abandon _)⟩
  | answered hall =>
    have hstill : Stands l σ i m (n + 1) file answer kept (.finished (.ok answer)) :=
      .answered fun turn hkept => (hall turn hkept).succ
    rcases hmove.call_after hn with hsame | ⟨phase', hstep, -⟩ | hgone
    · exact ⟨_, hsame, hstill⟩
    · cases hstep
    · exact ⟨_, hgone, hstill⟩
  | @owing _ turns howes hsub hthere hrest =>
    -- the turns that are still held keep their sessions from being deleted
    have hthere' : ∀ turn ∈ turns, (σ (n + 1)).session? file turn.session ≠ none :=
      fun turn hturn => horderly.session?_ne_none hevent hmove
        ⟨phase, hn, turn, howes.held ▸ hturn, rfl⟩ (hthere turn hturn)
    have hrest' : ∀ turn ∈ kept, turn ∈ turns ∨ WasSettled l σ i m (n + 1) file turn.session :=
      fun turn hkept => (hrest turn hkept).imp_right WasSettled.succ
    rcases hmove.call_after hn with hsame | ⟨phase', hstep, hphase⟩ | hgone
    · exact ⟨_, hsame, .owing howes hsub hthere' hrest'⟩
    · refine ⟨_, hphase, ?_⟩
      rcases howes.step hl (fun turn hturn => hthere turn (List.mem_of_mem_head? hturn)) hstep with
        howes' | ⟨turn, rest, rfl, howes', hdone⟩ | ⟨rfl, rfl⟩ | hlost
      · exact .owing howes' hsub hthere' hrest'
      · have hsettled : WasSettled l σ i m (n + 1) file turn.session :=
          ⟨n, hmn, Nat.lt_succ_self n, hdone.imp (⟨phase, phase', hn, hphase, ·⟩)
            (⟨phase, phase', hn, hphase, ·⟩)⟩
        refine .owing howes' (List.subset_of_cons_subset hsub)
          (fun other hother => hthere' other (List.mem_cons_of_mem _ hother)) fun other hkept => ?_
        rcases hrest' other hkept with hmem | hother
        · rcases List.mem_cons.mp hmem with rfl | hmem
          · exact .inr hsettled
          · exact .inl hmem
        · exact .inr hother
      · exact .answered fun turn hkept => (hrest' turn hkept).resolve_left List.not_mem_nil
      · exact .lost hlost
    · exact ⟨_, hgone, .lost (howes.abandon _)⟩

/-- Where the call stands at any moment after the deletion. -/
theorem Deletes.stands {node : NodeId} {affected : List String} (hl : l.settings.persist = true)
    (hnext : ∀ n, Moves l (σ n) (events n) (σ (n + 1))) (horderly : ∀ n, Orderly (σ n))
    (hevents : ∀ n, (events n).ByCalls) {held : List Turn}
    (hm : (σ m).calls[i]? = some ⟨file, .gathering node held []⟩)
    (hdeletes : Deletes σ i m file node affected) (n : Nat) (hmn : m < n) :
    ∃ phase, (σ n).calls[i]? = some ⟨file, phase⟩ ∧ Stands l σ i m n file (.names affected)
      (held.filter fun t => affected.contains t.session) phase := by
  obtain ⟨held', hm', hremove, hsettling⟩ := hdeletes.step hnext
  cases hm.symm.trans hm'
  induction hmn with
  | refl =>
    refine ⟨_, hsettling, .owing .between (List.Subset.refl _) (fun turn hturn => ?_)
      fun turn hturn => .inl hturn⟩
    have hgiven : turn.session ∈ affected := by simpa using (List.mem_filter.mp hturn).2
    exact Workspace.session?_ne_none_of_removeNode hremove hgiven
  | @step n hmn ih =>
    obtain ⟨phase, hn, hstands⟩ := ih
    exact hstands.succ hl (hnext n) (horderly n) (hevents n) hmn hn

/-- From the deletion on the call holds no turns but those that it took before. -/
theorem Deletes.mem_of_mem_held {node : NodeId} {affected : List String}
    (hl : l.settings.persist = true) (hnext : ∀ n, Moves l (σ n) (events n) (σ (n + 1)))
    (horderly : ∀ n, Orderly (σ n)) (hevents : ∀ n, (events n).ByCalls) {held : List Turn}
    (hm : (σ m).calls[i]? = some ⟨file, .gathering node held []⟩)
    (hdeletes : Deletes σ i m file node affected) {q : Nat} (hmq : m ≤ q) {phase : Phase}
    (hq : (σ q).calls[i]? = some ⟨file, phase⟩) (hnot : ¬ phase.IsLost) {name : String}
    (hname : name ∈ phase.held.map Turn.session) : name ∈ held.map Turn.session := by
  rcases Nat.eq_or_lt_of_le hmq with rfl | hlt
  · cases hm.symm.trans hq
    exact hname
  · obtain ⟨phase', hq', hstands⟩ := hdeletes.stands hl hnext horderly hevents hm q hlt
    cases hq.symm.trans hq'
    cases hstands with
    | owing howes hsub =>
      rw [howes.held] at hname
      exact (List.filter_sublist.map Turn.session).subset (List.map_subset _ hsub hname)
    | answered => cases hname
    | lost hlost => exact absurd hlost hnot

end

/-- **Which sessions a deletion waits for and settles.** Any number of calls may come in, take their
steps in any order and lose their callers. A call that deletes a node has looked before which
sessions ran it. If a session that loses steps by the deletion is one of these, nobody else holds
its turn at that moment, and when the call gives its answer, it has stored the session's state or,
where sessions are run anew, has run it anew and put it in place, unless by then a node is gone that
ran anew. If it is none of these, the call never settles it. -/
theorem deletion_settles (l : Ledger) (hl : l.settings.persist = true) (w : World)
    (events : Nat → Event) (hevents : ∀ n, (events n).ByCalls) {i m : Nat} {file : String}
    {node : NodeId} {affected : List String}
    (hdeletes : Deletes (history l w events) i m file node affected) :
    ∃ a, a < m ∧ Looks (history l w events) i a file node ∧
      ∀ name, LosesSteps (history l w events) m file name →
        name ∈ affected ∧
        (name ∈ (history l w events a).desk.world.touching file node →
          (∀ j, j ≠ i → ¬ (history l w events m).HoldsTurn j file name) ∧
          ∀ k answer, m < k → (history l w events k).phase? i = some (.finished (.ok answer)) →
            ∃ q, m < q ∧ q < k ∧ (Settles l (history l w events) i q file name ∨
              Discards l (history l w events) i q file name)) ∧
        (name ∉ (history l w events a).desk.world.touching file node →
          ∀ q, m ≤ q → ¬ Settles l (history l w events) i q file name ∧
            ¬ Discards l (history l w events) i q file name) := by
  have horderly : ∀ n, Orderly (history l w events n) := Orderly.run l w events
  have hnext : ∀ n, Moves l (history l w events n) (events n)
      (history l w events (n + 1)) := fun n => moves_next l _ (events n)
  have hinit : (history l w events 0).calls = [] := rfl
  generalize history l w events = σ at horderly hnext hinit hdeletes ⊢
  obtain ⟨held, hm, -, -⟩ := hdeletes.step hnext
  obtain ⟨a, ham, hlooks, hnames⟩ := looks_of_gathers hinit hnext m _ hm rfl
  rw [List.append_nil] at hnames
  refine ⟨a, ham, hlooks, ?_⟩
  rw [← hnames]
  intro name hloses
  have haffected := hdeletes.mem_affected hnext hloses
  refine ⟨haffected, fun hname => ⟨fun j hj hother => ?_, fun k answer hmk hk => ?_⟩,
    fun hnot q hmq => ⟨?_, ?_⟩⟩
  · obtain ⟨turn, hturn, hsession⟩ := List.mem_map.mp hname
    exact hj ((horderly m).eq_of_holdsTurn hother ⟨_, hm, turn, hturn, hsession⟩)
  · obtain ⟨phase, hphase, hstands⟩ := hdeletes.stands hl hnext horderly hevents hm k hmk
    rw [phase?, hphase, Option.map_some] at hk
    obtain rfl := Option.some.inj hk
    obtain ⟨turn, hturn, rfl⟩ := List.mem_map.mp hname
    -- of the ways in which the call can stand, only one has an answer
    cases hstands with
    | owing howes => cases howes
    | answered hall =>
      exact hall turn (List.mem_filter.mpr ⟨hturn, List.contains_iff_mem.mpr haffected⟩)
    | lost hlost => cases hlost
  · rintro ⟨phase, phase', hq, -, hsettles⟩
    exact hnot (hdeletes.mem_of_mem_held hl hnext horderly hevents hm hmq hq hsettles.not_isLost
      hsettles.mem_held)
  · rintro ⟨phase, phase', hq, -, hdiscards⟩
    exact hnot (hdeletes.mem_of_mem_held hl hnext horderly hevents hm hmq hq hdiscards.not_isLost
      hdiscards.mem_held)

/-- A runner that puts the code itself among the variables. All states are stored. -/
def keeping : Ledger := { noting with settings := {} }

/-- A node has run in one of two sessions, and the call for that is about to give up the session's
turn. A deletion of the node comes in and waits for that. Meanwhile the node runs in the other
session, and is being run there once more by the time the deletion goes on. -/
def lateRun : List Event :=
  [.ask "f" (.start "s"), .step 0, .ask "f" (.start "t"), .step 1] ++
  .ask "f" (.record "s" "a" "x") :: List.replicate 7 (.step 2) ++
  .ask "f" (.removeNode "a") :: List.replicate 2 (.step 3) ++
  .ask "f" (.record "t" "a" "y") :: List.replicate 8 (.step 4) ++
  .ask "f" (.record "t" "a" "z") :: List.replicate 4 (.step 5) ++
  .step 2 :: List.replicate 4 (.step 3)

/-- The traffic at each moment of that. -/
def lateTraffic : Nat → Traffic := history keeping onePage (Event.inOrder lateRun)

theorem byCalls_lateRun (n : Nat) : (Event.inOrder lateRun n).ByCalls := by
  refine Event.inOrder_forall ?_ (fun _ => trivial) n
  simp [lateRun, Event.ByCalls]

/-- Both sessions lose steps, and the call for one more step of the second is still under way. -/
theorem deletes_lateRun : Deletes lateTraffic 3 31 "f" "a" ["s", "t"] ∧
    LosesSteps lateTraffic 31 "f" "s" ∧ LosesSteps lateTraffic 31 "f" "t" ∧
    (lateTraffic 31).IsRunning 5 "f" "t" := by
  have hdeletes : Deletes lateTraffic 3 31 "f" "a" ["s", "t"] :=
    ⟨_, _, by with_unfolding_all rfl, by with_unfolding_all rfl⟩
  have hs : LosesSteps lateTraffic 31 "f" "s" :=
    ⟨_, _, by with_unfolding_all rfl, by with_unfolding_all rfl, by decide⟩
  have ht : LosesSteps lateTraffic 31 "f" "t" :=
    ⟨_, _, by with_unfolding_all rfl, by with_unfolding_all rfl, by decide⟩
  exact ⟨hdeletes, hs, ht, _, _, _, _, _, rfl, by with_unfolding_all rfl⟩

set_option maxRecDepth 1000 in
/-- The deletion gives its answer. -/
theorem finished_lateRun : ∃ answer, (lateTraffic 34).phase? 3 = some (.finished (.ok answer)) :=
  ⟨_, by with_unfolding_all rfl⟩

/-- When the deletion looked, the first session had run the node. -/
theorem mem_touching_of_looks_lateRun {a : Nat} (ha : a < 31)
    (h : Looks lateTraffic 3 a "f" "a") :
    "s" ∈ (lateTraffic a).desk.world.touching "f" "a" := by
  have hmoment : ∀ a < 31, ((lateTraffic a).phase? 3).bind Phase.gathers? = none →
      ((lateTraffic (a + 1)).phase? 3).bind Phase.gathers? ≠ none → a = 13 := by
    decide +kernel
  obtain rfl : a = 13 := by
    refine hmoment a ha ?_ ?_
    · rw [phase?, h.1]
      rfl
    · rw [phase?, h.2]
      exact nofun
  decide +kernel

/-- The session that had run the node by then is waited for and settled. The other, in which a step
is being run, is not. -/
theorem deletion_settles_lateRun :
    keeping.settings.persist = true ∧ (∀ n, (Event.inOrder lateRun n).ByCalls) ∧
      Deletes lateTraffic 3 31 "f" "a" ["s", "t"] ∧
      (LosesSteps lateTraffic 31 "f" "s" ∧
        (∀ j, j ≠ 3 → ¬ (lateTraffic 31).HoldsTurn j "f" "s") ∧
        ∃ q, 31 < q ∧ q < 34 ∧ Settles keeping lateTraffic 3 q "f" "s") ∧
      LosesSteps lateTraffic 31 "f" "t" ∧
        ∀ q, 31 ≤ q → ¬ Settles keeping lateTraffic 3 q "f" "t" := by
  obtain ⟨hdeletes, hs, ht, hrunning⟩ := deletes_lateRun
  obtain ⟨a, ha, hlooks, hall⟩ :=
    deletion_settles keeping rfl onePage (Event.inOrder lateRun) byCalls_lateRun hdeletes
  obtain ⟨-, hwaits, -⟩ := hall "s" hs
  obtain ⟨-, hwaits', hnever⟩ := hall "t" ht
  obtain ⟨hturn, hsettled⟩ := hwaits (mem_touching_of_looks_lateRun ha hlooks)
  -- a session that was looked at would not be in the hands of another call
  have hunseen : "t" ∉ (lateTraffic a).desk.world.touching "f" "a" :=
    fun hseen => (hwaits' hseen).1 5 (by decide) hrunning.holdsTurn
  obtain ⟨answer, hfinished⟩ := finished_lateRun
  refine ⟨rfl, byCalls_lateRun, hdeletes, ⟨hs, hturn, ?_⟩, ht, fun q hq => ?_⟩
  · obtain ⟨q, hmq, hqk, hdone | ⟨_, _, -, -, hdropped⟩⟩ := hsettled 34 _ (by decide) hfinished
    · exact ⟨q, hmq, hqk, hdone⟩
    · cases hdropped with
      | drop hmode => cases hmode
  · exact (hnever hunseen q hq).1

theorem distinct_onePage : onePage.workspace.Distinct := by
  intro file f hf
  by_cases hfile : file = "f"
  · rw [hfile] at hf
    cases hf
    exact List.nodup_nil
  · rw [onePage, Workspace.insertFile, Workspace.file?_setFile_of_ne _ _ hfile] at hf
    cases hf

/-- Not every deletion waits for all the sessions that it takes steps from, and settles them before
it gives its answer. -/
theorem not_always_settles :
    ¬ ∀ (l : Ledger) (w : World) (events : Nat → Event), l.settings.persist = true →
      w.workspace.Distinct → (∀ n, (events n).ByCalls) →
      ∀ (i m : Nat) (file : String) (node : NodeId) (affected : List String),
        Deletes (history l w events) i m file node affected →
        ∀ name, LosesSteps (history l w events) m file name →
          (∀ j, j ≠ i → ¬ (history l w events m).IsRunning j file name) ∧
            ∀ k answer, m < k →
              (history l w events k).phase? i = some (.finished (.ok answer)) →
              ∃ q, m < q ∧ q < k ∧ Settles l (history l w events) i q file name := by
  intro h
  obtain ⟨hdeletes, -, ht, hrunning⟩ := deletes_lateRun
  obtain ⟨hnobody, -⟩ := h keeping onePage (Event.inOrder lateRun) rfl distinct_onePage
    byCalls_lateRun 3 31 "f" "a" ["s", "t"] hdeletes "t" ht
  exact hnobody 5 (by decide) hrunning

end Traffic

end Ledger

end Runbook
