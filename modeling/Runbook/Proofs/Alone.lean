import Runbook.Proofs.Events
import Runbook.Proofs.Gates

/-!
# Calls that nobody comes between

What a call does when no other call is under way can be said at once, without the steps that others
may come between. Here the two are shown to agree: a call that takes all its steps by itself comes
to an end, with the answer and the world that are laid down for it, and leaves the gates as it
found them.

* `Gates.Free`: nobody is at the gate of a session
* `Task.Ends`, `Phase.Ends`: all steps of a task and of a call, up to what they give
* `Task.LeadsTo`: what a task does first, and how it goes on
* `Phase.ends_answer`: what every call ends with
* `Traffic.exists_run_ask`: so it is among other calls as long as none of these takes a step
-/

namespace Runbook

/-! ## Free gates -/

namespace Gates

variable {g : Gates} {file session : String}

/-- Nobody holds the turn of a session, or waits for it. -/
def Free (g : Gates) (file session : String) : Prop :=
  ∀ t ∈ g.turns, t.file = file → t.session ≠ session

/-- Whoever arrives at a free gate is at the head of the line. -/
theorem WellKept.isGranted_arrive_of_free (h : g.WellKept) (hfree : g.Free file session) :
    (g.arrive file session).2.isGranted (g.arrive file session).1 = true := by
  obtain ⟨hkept, hturns, hfile, hsession⟩ := h.arrive file session
  have hmem : (g.arrive file session).1 ∈ (g.arrive file session).2.turns := by
    rw [hturns]
    exact List.mem_append_right _ (List.mem_singleton_self _)
  have hline : g.line (g.arrive file session).1.gate = [] := by
    refine List.filter_eq_nil_iff.mpr fun u hu hgate => ?_
    have humem : u ∈ (g.arrive file session).2.turns := by
      rw [hturns]
      exact List.mem_append_left _ hu
    -- a gate stands for one session only
    have hentry := List.inj_on_of_nodup_map hkept.gates (hkept.placed u humem)
      (hkept.placed _ hmem) (of_decide_eq_true hgate)
    have hkey := Prod.mk.inj (Prod.mk.inj hentry).1
    exact hfree u hu (hkey.1.trans hfile) (hkey.2.trans hsession)
  rw [line] at hline
  rw [hkept.isGranted_iff hmem, line, hturns, List.filter_append, hline, List.nil_append]
  simp

/-- Whoever arrives and goes again leaves the others. -/
theorem WellKept.perm_release_arrive (h : g.WellKept) (file session : String) :
    ((g.arrive file session).2.release (g.arrive file session).1).turns.Perm g.turns := by
  obtain ⟨hkept, hturns, -, -⟩ := h.arrive file session
  refine (hkept.perm_release ?_).symm
  rw [hturns]
  exact (List.perm_append_singleton _ _).symm

end Gates

namespace Ledger

/-! ## Tasks by themselves -/

namespace Task

/-- A task takes all its steps and ends. -/
inductive Ends (l : Ledger) (file session : String) :
    Task → World → Except Fault Answer → World → Prop where
  /-- the next step is the last one -/
  | last {task : Task} {w w' : World} {result : Except Fault Answer}
    (h : task.step l file session w = (.over result, w')) : Ends l file session task w result w'
  /-- there are more -/
  | more {task task' : Task} {w w' w'' : World} {result : Except Fault Answer}
    (h : task.step l file session w = (.more task', w'))
    (hrest : Ends l file session task' w' result w'') : Ends l file session task w result w''

/-- A task does something first that gives an outcome and a world. It ends with that if it is a
fault, and goes on with it otherwise. -/
structure LeadsTo {α : Type} (l : Ledger) (file session : String) (task : Task) (w : World)
    (first : Except Fault α × World) (next : α → Task) : Prop where
  /-- a fault is the end -/
  error : ∀ {fault : Fault}, first.1 = .error fault →
    Ends l file session task w (.error fault) first.2
  /-- anything else is not -/
  ok : ∀ {a : α}, first.1 = .ok a → ∀ {result : Except Fault Answer} {w' : World},
    Ends l file session (next a) first.2 result w' → Ends l file session task w result w'

variable {l : Ledger} {file session : String}

/-- Nothing is done first. -/
theorem LeadsTo.here {α : Type} {w : World} {a : α} (next : α → Task) :
    LeadsTo l file session (next a) w (.ok a, w) next where
  error := by rintro _ ⟨⟩
  ok h _ _ hends := Except.ok.inj h ▸ hends

/-- One step more is done first. -/
theorem LeadsTo.more {α : Type} {task task' : Task} {w w' : World}
    {first : Except Fault α × World} {next : α → Task}
    (h : task.step l file session w = (.more task', w'))
    (hrest : LeadsTo l file session task' w' first next) :
    LeadsTo l file session task w first next where
  error hfault := .more h (hrest.error hfault)
  ok ha _ _ hends := .more h (hrest.ok ha hends)

/-- A fault is the end, however it would have gone on. -/
theorem LeadsTo.fault {α β : Type} {task : Task} {w w' : World} {fault : Fault}
    {next : α → Task} (h : LeadsTo l file session task w (.error fault, w') next)
    (next' : β → Task) : LeadsTo l file session task w (.error fault, w') next' where
  error hfault := Except.error.inj hfault ▸ h.error rfl
  ok := by rintro _ ⟨⟩

/-- What is done first is followed by more. -/
theorem LeadsTo.andThen {α β : Type} {task : Task} {w w' : World} {a : α} {next : α → Task}
    {first : Except Fault β × World} {next' : β → Task}
    (h : LeadsTo l file session task w (.ok a, w') next)
    (hrest : LeadsTo l file session (next a) w' first next') :
    LeadsTo l file session task w first next' where
  error hfault := h.ok rfl (hrest.error hfault)
  ok hb _ _ hends := h.ok rfl (hrest.ok hb hends)

variable (l file session)

/-- Code that is run a piece at a time is run as a whole. -/
theorem leadsTo_runFrom (task : Run → Task)
    (hmore : ∀ {run run' : Run} {w w' : World}, run.step l w = (.more run', w') →
      (task run).step l file session w = (.more (task run'), w'))
    (hbroken : ∀ {run : Run} {b : Breakdown} {w w' : World}, run.step l w = (.broken b, w') →
      (task run).step l file session w = (.over (.error b.fault), w')) (codes : List String) :
    ∀ (done : RunResult) (w : World), LeadsTo l file session
      (task { done, codes, call := none }) w
      ((l.runner.runFrom codes done w.calls).1.mapError Breakdown.fault,
        { w with calls := (l.runner.runFrom codes done w.calls).2 })
      fun r => task { done := r, codes := [], call := none } := by
  induction codes with
  | nil => exact fun done w => .here fun r => task { done := r, codes := [], call := none }
  | cons code rest ih =>
    intro done w
    refine .more (hmore rfl) ?_
    rw [Runner.runFrom_cons]
    cases hone : l.runner.runOne code done (w.calls + 1) with
    | error b =>
      have hstep : (⟨done, code :: rest, some (w.calls + 1)⟩ : Run).step l
          { w with calls := w.calls + 1 } = (.broken b, { w with calls := w.calls + 1 }) := by
        simp only [Run.step, hone]
      exact ⟨fun h => Except.error.inj h ▸ .last (hbroken hstep), by rintro _ ⟨⟩⟩
    | ok done' =>
      have hstep : (⟨done, code :: rest, some (w.calls + 1)⟩ : Run).step l
          { w with calls := w.calls + 1 } =
            (.more ⟨done', rest, none⟩, { w with calls := w.calls + 1 }) := by
        simp only [Run.step, hone]
      exact .more (hmore hstep) (ih done' { w with calls := w.calls + 1 })

/-- A run of a session's next step. -/
theorem leadsTo_running (node : NodeId) (codes : List String) (prior : Snapshot)
    (rest : List NodeId) (w : World) :
    LeadsTo l file session (running node (.start codes prior) rest) w (l.run codes prior w)
      fun r => running node { done := r, codes := [], call := none } rest :=
  leadsTo_runFrom l file session (fun run => running node run rest) (fun h => by rw [step, h])
    (fun h => by rw [step, h]) codes (.start prior) w

/-- A run of a step of a session that is run anew. -/
theorem leadsTo_replayRunning (scratch : Session) (node : NodeId) (codes : List String)
    (rest : List NodeId) (w : World) :
    LeadsTo l file session (replayRunning scratch node (.start codes scratch.overall) rest) w
      (l.run codes scratch.overall w)
      fun r => replayRunning scratch node { done := r, codes := [], call := none } rest :=
  leadsTo_runFrom l file session (fun run => replayRunning scratch node run rest)
    (fun h => by rw [step, h]) (fun h => by rw [step, h]) codes (.start scratch.overall) w

/-- A step of a session, from its state at the beginning to what is recorded at the end. -/
theorem leadsTo_dispatch (node : NodeId) (codes : List String) (rest : List NodeId) (w : World) :
    LeadsTo l file session (dispatch node codes rest) w (l.execute file session node codes w)
      fun e => path e rest := by
  rw [execute]
  cases hprior : w.workspace.prior? file session node with
  | none => exact .more (by rw [step, hprior]) (.here fun e => path e rest)
  | some prior =>
    refine .more (by rw [step, hprior]) ?_
    have hrun := leadsTo_running l file session node codes prior rest w
    simp only
    rcases hout : l.run codes prior w with ⟨fault | r, w'⟩
    · rw [hout] at hrun
      exact hrun.fault _
    · rw [hout] at hrun
      exact hrun.andThen (.more rfl (.here fun e => path e rest))

variable {l file session} in
/-- A single step is all there is to do. -/
theorem LeadsTo.ends_path {task : Task} {w : World}
    {first : Except Fault (Option Execution) × World}
    (h : LeadsTo l file session task w first fun e => path e []) :
    Ends l file session task w (first.1.map .execution) first.2 := by
  rcases first with ⟨fault | e, w'⟩
  · exact h.error rfl
  · exact h.ok rfl (.last rfl)

theorem leadsTo_executeNode (last : Option Execution) (node : NodeId) (rest : List NodeId)
    (w : World) : LeadsTo l file session (path last (node :: rest)) w
      (l.executeNode file session node w) fun e => path e rest := by
  rw [executeNode]
  cases hsteps : w.workspace.steps? file node with
  | none => exact .more (by rw [step, hsteps]) (.here fun e => path e rest)
  | some codes =>
    exact .more (by rw [step, hsteps]) (leadsTo_dispatch l file session node codes rest w)

/-- The nodes of a path are run one after another, as they are by calls of their own. -/
theorem ends_runPath (nodes : List NodeId) : ∀ (last : Option Execution) (w : World),
    ∃ last', Ends l file session (path last nodes) w
      ((l.runPath file session w nodes).1.map fun _ => .execution last')
      (l.runPath file session w nodes).2 := by
  induction nodes with
  | nil => exact fun last w => ⟨last, .last rfl⟩
  | cons node rest ih =>
    intro last w
    have hone := leadsTo_executeNode l file session last node rest w
    rw [runPath]
    rcases hout : l.executeNode file session node w with ⟨fault | e, w'⟩
    · rw [hout] at hone
      exact ⟨none, hone.error rfl⟩
    · rw [hout] at hone
      obtain ⟨last', hrest⟩ := ih e w'
      exact ⟨last', hone.ok rfl hrest⟩

theorem leadsTo_replayPath (nodes : List NodeId) : ∀ (scratch : Session) (w : World),
    LeadsTo l file session (replayPath scratch nodes) w (l.replayPath file scratch w nodes)
      fun s => replayPath s [] := by
  induction nodes with
  | nil => exact fun scratch w => .here fun s => replayPath s []
  | cons node rest ih =>
    intro scratch w
    rw [Ledger.replayPath]
    cases hsteps : w.workspace.steps? file node with
    | none => exact .more (by rw [step, hsteps]) (ih scratch w)
    | some codes =>
      refine .more (by rw [step, hsteps]) ?_
      have hrun := leadsTo_replayRunning l file session scratch node codes rest w
      simp only
      rcases hout : l.run codes scratch.overall w with ⟨fault | r, w'⟩
      · rw [hout] at hrun
        exact hrun.fault _
      · rw [hout] at hrun
        exact hrun.andThen (.more rfl (ih (scratch.push (.ofRun node r) w'.now) w'.tick))

theorem ends_replay (w : World) : Ends l file session replay w
    ((l.replay file session w).1.map .count) (l.replay file session w).2 := by
  rw [Ledger.replay]
  cases hs : w.workspace.session? file session with
  | none => exact .last (by rw [step, hs]; rfl)
  | some s =>
    refine .more (by rw [step, hs]) ?_
    have hpath := leadsTo_replayPath l file session s.path (.new session w.now) w.tick
    simp only
    rcases hout : l.replayPath file (.new session w.now) w.tick s.path with ⟨fault | scratch, w'⟩
    · rw [hout] at hpath
      exact hpath.error rfl
    · rw [hout] at hpath
      exact hpath.ok rfl (.last rfl)

end Task

/-! ## Calls by themselves -/

namespace Phase

/-- A call takes all its steps and has its answer. -/
inductive Ends (l : Ledger) (file : String) :
    Phase → Desk → Except Fault Answer → Desk → Prop where
  /-- it has its answer -/
  | finished {d : Desk} {result : Except Fault Answer} :
    Ends l file (finished result) d result d
  /-- it takes a step -/
  | step {phase phase' : Phase} {d d' d'' : Desk} {result : Except Fault Answer}
    (h : phase.step? l file d = some (phase', d')) (hrest : Ends l file phase' d' result d'') :
    Ends l file phase d result d''

/-- There is only one way to end. -/
theorem Ends.unique {l : Ledger} {file : String} {phase : Phase} {d d₁ d₂ : Desk}
    {result₁ result₂ : Except Fault Answer} (h₁ : Ends l file phase d result₁ d₁)
    (h₂ : Ends l file phase d result₂ d₂) : result₁ = result₂ ∧ d₁ = d₂ := by
  induction h₁ with
  | finished =>
    cases h₂ with
    | finished => exact ⟨rfl, rfl⟩
    | step h _ => cases h
  | step h _ ih =>
    cases h₂ with
    | finished => cases h
    | step h' hrest =>
      cases h.symm.trans h'
      exact ih hrest

variable {l : Ledger} {file : String}

/-- A task that is under way ends, and its turn is given up. -/
theorem Ends.of_task {turn : Turn} {task : Task} {report : Report} {w w' : World} {g : Gates}
    {result result' : Except Fault Answer} {d : Desk} (hreport : report ≠ .nobody)
    (h : task.Ends l file turn.session w result w')
    (hrest : Ends l file (reported turn.session report result) ⟨w', g.release turn⟩ result' d) :
    Ends l file (working turn task report) ⟨w, g⟩ result' d := by
  induction h with
  | last h =>
    refine .step ?_ hrest
    rw [step?, h]
    cases report with
    | nobody => exact absurd rfl hreport
    | _ => rfl
  | more h _ ih => exact .step (by rw [step?, h]) (ih hrest)

/-- At a free gate the turn comes at once. -/
theorem Ends.of_queueing {session : String} {aim : Aim} {d d' : Desk} {turn : Turn} {g : Gates}
    {result : Except Fault Answer} (hkept : d.gates.WellKept) (hfree : d.gates.Free file session)
    (harrive : d.gates.arrive file session = (turn, g))
    (hrest : Ends l file (act file turn aim ⟨d.world, g⟩).1 (act file turn aim ⟨d.world, g⟩).2
      result d') : Ends l file (queueing session aim) d result d' := by
  have hgranted := hkept.isGranted_arrive_of_free hfree
  rw [harrive] at hgranted
  have hjoin : (queueing session aim).step? l file d = some (waiting turn aim, ⟨d.world, g⟩) := by
    rw [step?, harrive]
  have hpass : (waiting turn aim).step? l file ⟨d.world, g⟩ =
      some (act file turn aim ⟨d.world, g⟩) := if_pos hgranted
  exact .step hjoin (.step hpass hrest)

/-- What is left of the gates is what was there. -/
structure Restores (g g' : Gates) : Prop where
  /-- they are well kept -/
  kept : g'.WellKept
  /-- the same places are taken -/
  perm : g'.turns.Perm g.turns

theorem Restores.refl {g : Gates} (h : g.WellKept) : Restores g g := ⟨h, .refl _⟩

theorem Restores.trans {g g' g'' : Gates} (h : Restores g g') (h' : Restores g' g'') :
    Restores g g'' := ⟨h'.kept, h'.perm.trans h.perm⟩

/-- A gate that was free still is. -/
theorem Restores.free {g g' : Gates} {file session : String} (h : Restores g g')
    (hfree : g.Free file session) : g'.Free file session :=
  fun t ht => hfree t (h.perm.mem_iff.mp ht)

/-- Whoever arrives and goes again leaves the gates as they were. -/
theorem Restores.of_arrive {g g' : Gates} {turn : Turn} {session : String} (hkept : g.WellKept)
    (harrive : g.arrive file session = (turn, g')) : Restores g (g'.release turn) := by
  have hperm := hkept.perm_release_arrive file session
  have hkept' := (hkept.arrive file session).1
  rw [harrive] at hperm hkept'
  exact ⟨hkept'.release turn, hperm⟩

/-- A call that takes a session's turn for a task. -/
theorem exists_ends_work (report : Report) {session : String} {task : Task} {d : Desk}
    {w' : World} {result result' : Except Fault Answer} (hkept : d.gates.WellKept)
    (hfree : d.gates.Free file session) (hreport : report ≠ .nobody)
    (h : task.Ends l file session d.world result w')
    (hrest : ∀ g, Ends l file (reported session report result) ⟨w', g⟩ result' ⟨w', g⟩) :
    ∃ g, Restores d.gates g ∧
      Ends l file (queueing session (.work task report)) d result' ⟨w', g⟩ := by
  rcases harrive : d.gates.arrive file session with ⟨turn, g⟩
  obtain rfl : turn.session = session := by
    have hsession := d.gates.session_arrive file session
    rwa [harrive] at hsession
  exact ⟨g.release turn, .of_arrive hkept harrive,
    .of_queueing hkept hfree harrive (.of_task hreport h (hrest _))⟩

/-- A call that gives back what its task gave. -/
theorem exists_ends_pass {session : String} {task : Task} {d : Desk} {w' : World}
    {result : Except Fault Answer} (hkept : d.gates.WellKept)
    (hfree : d.gates.Free file session) (h : task.Ends l file session d.world result w') :
    ∃ g, Restores d.gates g ∧
      Ends l file (queueing session (.work task .pass)) d result ⟨w', g⟩ :=
  exists_ends_work .pass hkept hfree (by rintro ⟨⟩) h fun _ => .step rfl .finished

variable (l file)

/-- What starting a session does by itself. -/
theorem ends_start (name : String) (d : Desk) : Ends l file (asked (.start name)) d
    ((d.world.start l file name).1.map (.session ∘ some))
    ⟨(d.world.start l file name).2, d.gates⟩ :=
  .step rfl .finished

/-- What running a node does by itself. -/
theorem exists_ends_execute (session : String) (node : NodeId) {d : Desk}
    (hkept : d.gates.WellKept) (hfree : d.gates.Free file session) :
    ∃ g, Restores d.gates g ∧ Ends l file (asked (.execute session node)) d
      ((l.executeNode file session node d.world).1.map .execution)
      ⟨(l.executeNode file session node d.world).2, g⟩ := by
  have htask := (Task.leadsTo_executeNode l file session none node [] d.world).ends_path
  obtain ⟨g, hg, hends⟩ := exists_ends_pass hkept hfree htask
  exact ⟨g, hg, .step rfl hends⟩

/-- Sessions whose turns are held are settled one after another, and their turns given up. -/
theorem ends_settling (answer : Answer) (turns : List Turn) : ∀ (w : World) (g : Gates),
    Ends l file (settling turns answer) ⟨w, g⟩
      ((l.settle file w (turns.map Turn.session)).1.map fun _ => answer)
      ⟨(l.settle file w (turns.map Turn.session)).2, g.releaseAll turns⟩ := by
  induction turns with
  | nil => exact fun _ _ => .step rfl .finished
  | cons turn rest ih =>
    intro w g
    rw [List.map_cons, settle]
    by_cases hmode : l.settings.replayOnRemoval = true
    · rw [if_pos hmode]
      refine .step (if_pos hmode) ?_
      have htask := Task.ends_replay l file turn.session w
      rcases hout : l.replay file turn.session w with ⟨fault | n, w'⟩
      · rw [hout] at htask
        exact .of_task (by rintro ⟨⟩) htask (.step rfl .finished)
      · rw [hout] at htask
        exact .of_task (by rintro ⟨⟩) htask (.step rfl (ih w' (g.release turn)))
    · rw [if_neg hmode]
      exact .step (if_neg hmode) (ih _ (g.release turn))

/-- The turns of several sessions are taken one after another, if nobody is at their gates. -/
theorem exists_ends_gathering (node : NodeId) (sessions : List String) :
    ∀ {d : Desk} (held : List Turn), d.gates.WellKept → sessions.Nodup →
      (∀ session ∈ sessions, d.gates.Free file session) →
      ∃ (new : List Turn) (g : Gates), new.map Turn.session = sessions ∧ g.WellKept ∧
        g.turns = d.gates.turns ++ new ∧ ∀ {result : Except Fault Answer} {d' : Desk},
          Ends l file (gathering node (held ++ new) []) ⟨d.world, g⟩ result d' →
          Ends l file (gathering node held sessions) d result d' := by
  induction sessions with
  | nil =>
    intro d held hkept _ _
    refine ⟨[], d.gates, rfl, hkept, (List.append_nil _).symm, fun hends => ?_⟩
    rwa [List.append_nil] at hends
  | cons session rest ih =>
    intro d held hkept hnodup hfree
    obtain ⟨hnew, hrest⟩ := List.nodup_cons.mp hnodup
    have hgranted := hkept.isGranted_arrive_of_free (hfree session List.mem_cons_self)
    obtain ⟨hkept', hturns, -, hsession⟩ := hkept.arrive file session
    rcases harrive : d.gates.arrive file session with ⟨turn, g⟩
    rw [harrive] at hgranted hkept' hturns hsession
    have hfree' : ∀ other ∈ rest, g.Free file other := by
      intro other hother t ht hfile
      rw [hturns] at ht
      rcases List.mem_append.mp ht with ht | ht
      · exact hfree other (List.mem_cons_of_mem _ hother) t ht hfile
      · rw [List.mem_singleton.mp ht, hsession]
        rintro rfl
        exact hnew hother
    obtain ⟨new, g', hsessions, hkept'', hturns', hends⟩ :=
      ih (d := ⟨d.world, g⟩) (held ++ [turn]) hkept' hrest hfree'
    refine ⟨turn :: new, g', ?_, hkept'', ?_, fun h => ?_⟩
    · rw [List.map_cons, hsession, hsessions]
    · rw [hturns', hturns, List.append_assoc, List.singleton_append]
    · have hjoin : (gathering node held (session :: rest)).step? l file d =
          some (gatheringNext node held turn rest, ⟨d.world, g⟩) := by
        rw [step?, harrive]
      have hpass : (gatheringNext node held turn rest).step? l file ⟨d.world, g⟩ =
          some (gathering node (held ++ [turn]) rest, ⟨d.world, g⟩) := if_pos hgranted
      refine .step hjoin (.step hpass (hends ?_))
      rwa [List.append_assoc, List.singleton_append]

/-- What a branch does by itself: it starts the session and runs the path in its turn. -/
theorem exists_ends_branch (name : String) (path : List NodeId) {d : Desk}
    (hkept : d.gates.WellKept) (hfree : d.gates.Free file name) :
    ∃ g, Restores d.gates g ∧ Ends l file (asked (.branch name path)) d
      ((l.branch file name path d.world).1.map (.session ∘ some))
      ⟨(l.branch file name path d.world).2, g⟩ := by
  rw [branch]
  rcases hstart : d.world.start l file name with ⟨fault | s, w⟩
  · have hask : (asked (.branch name path)).step? l file d =
        some (finished (.error fault), ⟨w, d.gates⟩) := by simp only [step?, ask, hstart]
    exact ⟨d.gates, .refl hkept, .step hask .finished⟩
  · have hask : (asked (.branch name path)).step? l file d =
        some (queueing name (.work (.path none path) .session), ⟨w, d.gates⟩) := by
      simp only [step?, ask, hstart]
    obtain ⟨last, htask⟩ := Task.ends_runPath l file name path none w
    simp only
    -- the caller looks at the session unless the path broke off
    rcases hrun : l.runPath file name w path with ⟨fault | u, w'⟩
    · rw [hrun] at htask
      obtain ⟨g, hg, hends⟩ := exists_ends_work (d := ⟨w, d.gates⟩) .session hkept hfree
        (by rintro ⟨⟩) htask fun _ => .step rfl .finished
      exact ⟨g, hg, .step hask hends⟩
    · rw [hrun] at htask
      have hlook : ∀ g, Ends l file (reported name .session (.ok (.execution last))) ⟨w', g⟩
          ((w'.sessionOr file name).map (.session ∘ some)) ⟨w', g⟩ :=
        fun _ => .step rfl (.step rfl .finished)
      obtain ⟨g, hg, hends⟩ := exists_ends_work (d := ⟨w, d.gates⟩) .session hkept hfree
        (by rintro ⟨⟩) htask hlook
      exact ⟨g, hg, .step hask hends⟩

theorem exists_ends_removeExecutionEdge (edge : EdgeId) {d : Desk} (hkept : d.gates.WellKept)
    (hfree : ∀ session, d.gates.Free file session) :
    ∃ g, Restores d.gates g ∧ Ends l file (asked (.removeExecutionEdge edge)) d
      ((l.removeExecutionEdge file edge d.world).1.map .removal)
      ⟨(l.removeExecutionEdge file edge d.world).2, g⟩ := by
  rw [removeExecutionEdge]
  cases howner : d.world.owner? file edge with
  | none =>
    have hask : (asked (.removeExecutionEdge edge)).step? l file d =
        some (finished (.ok (.removal none)), d) := by simp only [step?, ask, howner]
    exact ⟨d.gates, .refl hkept, .step hask .finished⟩
  | some owner =>
    have hask : (asked (.removeExecutionEdge edge)).step? l file d =
        some (queueing owner (.removeEdge edge), d) := by simp only [step?, ask, howner]
    rcases harrive : d.gates.arrive file owner with ⟨turn, g⟩
    obtain rfl : turn.session = owner := by
      have hsession := d.gates.session_arrive file owner
      rwa [harrive] at hsession
    refine ⟨g.release turn, .of_arrive hkept harrive,
      .step hask (.of_queueing hkept (hfree _) harrive ?_)⟩
    rcases hremove : d.world.removeEdge file edge with ⟨_ | removal, w⟩
    · simp only [act, hremove]
      exact .finished
    · simp only [act, hremove]
      have hsettle := ends_settling l file (.removal (some removal)) [turn] w g
      have hmap : ∀ x : Except Fault Unit, (x.map fun _ => some removal).map Answer.removal =
          x.map fun _ => .removal (some removal) := fun x => by cases x <;> rfl
      rw [hmap]
      exact hsettle

theorem exists_ends_removeSession (name : String) {d : Desk} (hkept : d.gates.WellKept)
    (hfree : d.gates.Free file name) :
    ∃ g, Restores d.gates g ∧ Ends l file (asked (.removeSession name)) d
      ((d.world.removeSession file name).1.map .session)
      ⟨(d.world.removeSession file name).2, g⟩ := by
  rcases harrive : d.gates.arrive file name with ⟨turn, g⟩
  obtain rfl : turn.session = name := by
    have hsession := d.gates.session_arrive file name
    rwa [harrive] at hsession
  have hrestores := Restores.of_arrive hkept harrive
  rcases hremove : d.world.removeSession file turn.session with ⟨fault | s, w⟩
  · refine ⟨g.release turn, hrestores, .step rfl (.of_queueing hkept hfree harrive ?_)⟩
    simp only [act, hremove]
    exact .finished
  · refine ⟨(g.release turn).prune, ⟨hrestores.kept.prune, hrestores.perm⟩,
      .step rfl (.of_queueing hkept hfree harrive ?_)⟩
    simp only [act, hremove]
    exact .finished

theorem exists_ends_removeNode (node : NodeId) {d : Desk} (hkept : d.gates.WellKept)
    (hfree : ∀ session, d.gates.Free file session)
    (hnames : ∀ f, d.world.workspace.file? file = some f → f.book.names.Nodup) :
    ∃ g, Restores d.gates g ∧ Ends l file (asked (.removeNode node)) d
      ((l.removeNode file node d.world).1.map .names)
      ⟨(l.removeNode file node d.world).2, g⟩ := by
  have hnodup : (d.world.touching file node).Nodup := by
    rw [World.touching]
    cases hf : d.world.workspace.file? file with
    | none => exact List.nodup_nil
    | some f =>
      refine (List.mergeSort_perm _ _).nodup_iff.mpr ((hnames f hf).sublist ?_)
      exact List.filter_sublist.map Session.id
  obtain ⟨turns, g, hsessions, hkept', hturns, hends⟩ := exists_ends_gathering l file node
    (d.world.touching file node) [] hkept hnodup fun session _ => hfree session
  rw [List.nil_append] at hends
  rw [removeNode]
  rcases hremove : d.world.removeNode file node with ⟨affected, w⟩
  simp only
  -- the turns of sessions that were repaired are kept until these are settled
  have hstep : (gathering node turns []).step? l file ⟨d.world, g⟩ =
      some (settling (turns.filter fun t => affected.contains t.session) (.names affected),
        ⟨w, g.releaseAll (turns.filter fun t => !affected.contains t.session)⟩) := by
    simp only [step?, hremove, List.partition_eq_filter_filter]
    rfl
  have hsettle := ends_settling l file (.names affected)
    (turns.filter fun t => affected.contains t.session) w
    (g.releaseAll (turns.filter fun t => !affected.contains t.session))
  have hkeptNames : (turns.filter fun t => affected.contains t.session).map Turn.session =
      (d.world.touching file node).filter affected.contains := by
    rw [← hsessions, List.filter_map]
    rfl
  have hmap : ∀ x : Except Fault Unit, (x.map fun _ => affected).map Answer.names =
      x.map fun _ => .names affected := fun x => by cases x <;> rfl
  rw [hkeptNames] at hsettle
  rw [hmap]
  refine ⟨_, ⟨(hkept'.releaseAll _).releaseAll _, ?_⟩, .step rfl (hends (.step hstep hsettle))⟩
  have hperm : ((turns.filter fun t => !affected.contains t.session) ++
      ((turns.filter fun t => affected.contains t.session) ++ d.gates.turns)).Perm g.turns := by
    rw [hturns, ← List.append_assoc]
    have hturnsPerm := List.filter_append_perm (fun t : Turn => affected.contains t.session) turns
    exact ((List.perm_append_comm.trans hturnsPerm).append_right _).trans List.perm_append_comm
  exact (((hkept'.releaseAll _).perm_releaseAll _ (hkept'.perm_releaseAll _ hperm))).symm

/-- **A call that nobody comes between** ends with the answer and the world that are laid down for
it, and leaves the gates as it found them. Nobody is to be at the gates of the file's sessions, and
no two of these are to share a name if a node is deleted. -/
theorem ends_answer (l : Ledger) (file : String) (request : Request) (d : Desk)
    (hkept : d.gates.WellKept) (hfree : ∀ session, d.gates.Free file session)
    (hnames : ∀ node, request = .removeNode node → ∀ f, d.world.workspace.file? file = some f →
      f.book.names.Nodup) :
    ∃ g, Restores d.gates g ∧ Ends l file (asked request) d
      (l.answer file request d.world).1 ⟨(l.answer file request d.world).2, g⟩ := by
  cases request with
  | start name => exact ⟨d.gates, .refl hkept, ends_start l file name d⟩
  | record session node code =>
    have htask := (Task.leadsTo_dispatch l file session node [code] [] d.world).ends_path
    obtain ⟨g, hg, hends⟩ := exists_ends_pass hkept (hfree session) htask
    exact ⟨g, hg, .step rfl hends⟩
  | execute session node => exact exists_ends_execute l file session node hkept (hfree session)
  | replay session =>
    have htask := Task.ends_replay l file session d.world
    obtain ⟨g, hg, hends⟩ := exists_ends_pass hkept (hfree session) htask
    exact ⟨g, hg, .step rfl hends⟩
  | branch name path => exact exists_ends_branch l file name path hkept (hfree name)
  | branchFromTree name target node placement =>
    rw [answer, branchFromTree]
    cases hpath : d.world.branchPath? file target node placement with
    | none =>
      have hask : (asked (.branchFromTree name target node placement)).step? l file d =
          some (finished (.ok (.session none)), d) := by simp only [step?, ask, hpath]
      exact ⟨d.gates, .refl hkept, .step hask .finished⟩
    | some path =>
      have hask : (asked (.branchFromTree name target node placement)).step? l file d =
          some (asked (.branch name path), d) := by simp only [step?, ask, hpath]
      obtain ⟨g, hg, hends⟩ := exists_ends_branch l file name path hkept (hfree name)
      refine ⟨g, hg, .step hask ?_⟩
      have hmap : ∀ x : Except Fault Session, (x.map some).map Answer.session =
          x.map (.session ∘ some) := fun x => by cases x <;> rfl
      simp only [hmap]
      exact hends
  | removeExecutionEdge edge => exact exists_ends_removeExecutionEdge l file edge hkept hfree
  | removeNode node => exact exists_ends_removeNode l file node hkept hfree (hnames node rfl)
  | removeSession name => exact exists_ends_removeSession l file name hkept (hfree name)

end Phase

/-! ## Among other calls -/

namespace Traffic

/-- Where only one thing happens again and again, the first time may be told apart. -/
theorem run_succ_same (l : Ledger) (t : Traffic) (event : Event) (n : Nat) :
    t.run l (fun _ => event) (n + 1) = (t.next l event).run l (fun _ => event) n := by
  induction n with
  | zero => rfl
  | succ n ih => exact congrArg (·.next l event) ih

/-- A call that ends by itself does so among others that take no step, and leaves them. -/
theorem run_of_ends {l : Ledger} {file : String} {phase : Phase} {d d' : Desk}
    {result : Except Fault Answer} (h : phase.Ends l file d result d') :
    ∀ {calls : List Call} {i : Nat}, calls[i]? = some ⟨file, phase⟩ →
      ∃ n, (Traffic.mk d calls).run l (fun _ => .step i) n =
        ⟨d', calls.set i ⟨file, .finished result⟩⟩ := by
  induction h with
  | finished =>
    intro calls i hi
    obtain ⟨hlt, hget⟩ := List.getElem?_eq_some_iff.mp hi
    exact ⟨0, by rw [run, ← hget, List.set_getElem_self]⟩
  | @step phase phase' d d₁ d' result hstep _ ih =>
    intro calls i hi
    obtain ⟨hlt, -⟩ := List.getElem?_eq_some_iff.mp hi
    have hnext : (Traffic.mk d calls).next l (.step i) = ⟨d₁, calls.set i ⟨file, phase'⟩⟩ := by
      simp only [next, step?, hi, Option.bind_some, Call.step?, hstep, Option.map_some,
        Option.getD_some]
    obtain ⟨n, hn⟩ := ih (List.getElem?_set_self hlt)
    refine ⟨n + 1, ?_⟩
    rw [run_succ_same, hnext, hn, List.set_set]

/-- A new call has its answer after some steps of its own, if nobody is at the gates of the file's
sessions and all the others wait. -/
theorem exists_run_ask (l : Ledger) (t : Traffic) (file : String) (request : Request)
    (hkept : t.desk.gates.WellKept) (hfree : ∀ session, t.desk.gates.Free file session)
    (hnames : ∀ node, request = .removeNode node →
      ∀ f, t.desk.world.workspace.file? file = some f → f.book.names.Nodup) :
    ∃ n g, Phase.Restores t.desk.gates g ∧
      (t.ask file request).run l (fun _ => .step t.calls.length) n =
        ⟨⟨(l.answer file request t.desk.world).2, g⟩,
          t.calls ++ [⟨file, .finished (l.answer file request t.desk.world).1⟩]⟩ := by
  obtain ⟨g, hg, hends⟩ := Phase.ends_answer l file request t.desk hkept hfree hnames
  have hnew : (t.calls ++ [Call.of file request])[t.calls.length]? =
      some ⟨file, .asked request⟩ := by
    rw [List.getElem?_append_right (Nat.le_refl _), Nat.sub_self]
    rfl
  obtain ⟨n, hn⟩ := run_of_ends hends hnew
  refine ⟨n, g, hg, hn.trans ?_⟩
  rw [List.set_append_right _ _ (Nat.le_refl _), Nat.sub_self]
  rfl

end Traffic

end Ledger

end Runbook
