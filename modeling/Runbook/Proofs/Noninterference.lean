import Runbook.Proofs.Concerns

/-!
# Sessions that do not interfere

Calls that run and cut one session at a time have nothing to do with those on other sessions, whose
steps may be left out. What is left is a run again, in which the calls on the session give the same
answers and leave the same behind.

* `Run.Alike`, `Task.Alike`, `Phase.Alike`: calls at the same stage; their numbers may differ
* `Phase.Alike.step?`: at desks that are alike to the session, they take the same step
* `Traffic.Parted`: calls on the session and calls on others, and none on both
* `Traffic.Mirrors`: two runs, the second with the calls on the session only
* `Traffic.interleave?_own`: the second is there whenever the first is
-/

namespace Runbook

namespace Ledger

/-! ## Calls at the same stage -/

/-- Runs at the same stage. Their calls of the runner may have different numbers. -/
structure Run.Alike (r r' : Run) : Prop where
  /-- the same has run -/
  done : r'.done = r.done
  /-- the same is left -/
  codes : r'.codes = r.codes
  /-- the runner was called for both or for neither -/
  call : r'.call.isSome = r.call.isSome

/-- What steps of such runs leave. -/
inductive Run.Next.Alike : Next → Next → Prop
  /-- both go on -/
  | more {r r' : Run} (h : r.Alike r') : Alike (more r) (more r')
  /-- both have come to the same end -/
  | done {result : RunResult} : Alike (done result) (done result)
  /-- both have broken down for the same reason -/
  | broken {breakdown : Breakdown} : Alike (broken breakdown) (broken breakdown)

theorem Run.Alike.refl (r : Run) : r.Alike r := ⟨rfl, rfl, rfl⟩

/-- With a runner that does not count its calls, runs at the same stage take the same step. All they
do to the worlds is to count. -/
theorem Run.Alike.step {l : Ledger} (hsteady : l.runner.IsSteady) {file name : String} {st : Store}
    {w w' v : World} (hw : World.Alike file name st w w') (hnow : w'.now = w.now) {r r' : Run}
    (h : r.Alike r') {next : Next} (hstep : r.step l w = (next, v)) :
    ∃ next' v', r'.step l w' = (next', v') ∧ next.Alike next' ∧ World.Alike file name st v v' ∧
      v'.now = v.now := by
  have hnext : ∃ next' v', r'.step l w' = (next', v') ∧ next.Alike next' := by
    obtain ⟨done, codes, call⟩ := r
    obtain ⟨done', codes', call'⟩ := r'
    obtain rfl : done = done' := h.done.symm
    obtain rfl : codes = codes' := h.codes.symm
    have hcall : call'.isSome = call.isSome := h.call
    cases codes with
    | nil =>
      cases hstep
      exact ⟨_, _, rfl, .done⟩
    | cons code rest =>
      cases call with
      | none =>
        obtain rfl : call' = none := Option.not_isSome_iff_eq_none.mp (Bool.eq_false_iff.mp hcall)
        cases hstep
        exact ⟨_, _, rfl, .more ⟨rfl, rfl, rfl⟩⟩
      | some number =>
        obtain ⟨number', rfl⟩ := Option.isSome_iff_exists.mp hcall
        have hsame : l.runner.runOne code done number' = l.runner.runOne code done number := by
          rw [Runner.runOne, Runner.runOne, hsteady number' number]
        simp only [Run.step] at hstep ⊢
        rw [hsame]
        cases hrun : l.runner.runOne code done number with
        | ok result =>
          rw [hrun] at hstep
          cases hstep
          exact ⟨_, _, rfl, .more (.refl _)⟩
        | error breakdown =>
          rw [hrun] at hstep
          cases hstep
          exact ⟨_, _, rfl, .broken⟩
  obtain ⟨next', v', hstep', hnext⟩ := hnext
  obtain ⟨calls, rfl⟩ := Run.world_eq hstep
  obtain ⟨calls', rfl⟩ := Run.world_eq hstep'
  exact ⟨next', _, hstep', hnext, hw.congr rfl rfl rfl rfl, hnow⟩

/-- Tasks at the same stage. -/
inductive Task.Alike : Task → Task → Prop
  /-- on a path -/
  | path {last : Option Execution} {rest : List NodeId} : Alike (path last rest) (path last rest)
  /-- about to read the state to start from -/
  | dispatch {node : NodeId} {codes : List String} {rest : List NodeId} :
    Alike (dispatch node codes rest) (dispatch node codes rest)
  /-- running a step -/
  | running {node : NodeId} {r r' : Run} {rest : List NodeId} (h : r.Alike r') :
    Alike (running node r rest) (running node r' rest)
  /-- about to run the session anew -/
  | replay : Alike replay replay
  /-- running the session anew -/
  | replayPath {scratch : Session} {rest : List NodeId} :
    Alike (replayPath scratch rest) (replayPath scratch rest)
  /-- running a step of the session anew -/
  | replayRunning {scratch : Session} {node : NodeId} {r r' : Run} {rest : List NodeId}
    (h : r.Alike r') :
    Alike (replayRunning scratch node r rest) (replayRunning scratch node r' rest)

/-- What steps of such tasks leave. -/
inductive Task.Next.Alike : Next → Next → Prop
  /-- both go on -/
  | more {task task' : Task} (h : task.Alike task') : Alike (more task) (more task')
  /-- both have given the same -/
  | ended {result : Except Fault Answer} : Alike (.over result) (.over result)

theorem Task.Alike.refl (task : Task) : task.Alike task := by
  cases task with
  | path last rest => exact .path
  | dispatch node codes rest => exact .dispatch
  | running node r rest => exact .running (.refl r)
  | replay => exact .replay
  | replayPath scratch rest => exact .replayPath
  | replayRunning scratch node r rest => exact .replayRunning (.refl r)

/-- In worlds that are alike to the session, tasks at the same stage take the same step. -/
theorem Task.Alike.step {l : Ledger} (hsteady : l.runner.IsSteady) {file name : String}
    {st : Store} {w w' v : World} (hw : World.Alike file name st w w')
    (hclock : w'.clock = w.clock) {task task' : Task} (h : task.Alike task')
    (hsound : task.Sound name) {next : Next} (hstep : task.step l file name w = (next, v)) :
    ∃ next' v', task'.step l file name w' = (next', v') ∧ next.Alike next' ∧
      World.Alike file name st v v' := by
  have hnow : w'.now = w.now := congrArg Clock.now hclock
  cases h with
  | path =>
    cases steps_of_step hstep with
    | pathEnd => exact ⟨_, _, rfl, .ended, hw⟩
    | skip hsteps =>
      refine ⟨_, _, ?_, .more .path, hw⟩
      rw [Task.step, hw.steps?, hsteps]
    | know hsteps =>
      refine ⟨_, _, ?_, .more .dispatch, hw⟩
      rw [Task.step, hw.steps?, hsteps]
  | dispatch =>
    cases steps_of_step hstep with
    | miss hprior =>
      refine ⟨_, _, ?_, .more .path, hw⟩
      rw [Task.step, hw.prior?, hprior]
    | dispatch hprior =>
      refine ⟨_, _, ?_, .more (.running (.refl _)), hw⟩
      rw [Task.step, hw.prior?, hprior]
  | @running node r r' rest hr =>
    rcases hrun : r.step l w with ⟨next₁, w₁⟩
    obtain ⟨next₁', w₁', hrun', hnext, hw₁, hnow₁⟩ := hr.step hsteady hw hnow hrun
    rw [Task.step, hrun] at hstep
    rw [Task.step, hrun']
    cases hnext with
    | more hr =>
      cases hstep
      exact ⟨_, _, rfl, .more (.running hr), hw₁⟩
    | @done result =>
      obtain ⟨e, u, u', hcommit, hcommit', hu⟩ := hw₁.commit hnow₁ l node result
      simp only [hcommit] at hstep
      simp only [hcommit']
      cases hstep
      exact ⟨_, _, rfl, .more .path, hu⟩
    | broken =>
      cases hstep
      exact ⟨_, _, rfl, .ended, hw₁⟩
  | replay =>
    cases steps_of_step hstep with
    | missAnew hs =>
      refine ⟨_, _, ?_, .ended, hw⟩
      rw [Task.step, hw.session?, hs]
    | @readPath s hs =>
      refine ⟨_, w'.tick, ?_, .more .replayPath, hw.congr rfl rfl rfl rfl⟩
      rw [Task.step, hw.session?, hs, ← hnow]
  | @replayPath scratch rest =>
    cases rest with
    | nil =>
      obtain ⟨n, u, u', hcommit, hcommit', hu⟩ := hw.commitReplay l hsound.1
      rw [Task.step, hcommit] at hstep
      rw [Task.step, hcommit']
      cases hstep
      exact ⟨_, _, rfl, .ended, hu⟩
    | cons node rest =>
      cases steps_of_step hstep with
      | skipAnew hsteps =>
        refine ⟨_, _, ?_, .more .replayPath, hw⟩
        rw [Task.step, hw.steps?, hsteps]
      | dispatchAnew hsteps =>
        refine ⟨_, _, ?_, .more (.replayRunning (.refl _)), hw⟩
        rw [Task.step, hw.steps?, hsteps]
  | @replayRunning scratch node r r' rest hr =>
    rcases hrun : r.step l w with ⟨next₁, w₁⟩
    obtain ⟨next₁', w₁', hrun', hnext, hw₁, hnow₁⟩ := hr.step hsteady hw hnow hrun
    rw [Task.step, hrun] at hstep
    rw [Task.step, hrun']
    cases hnext with
    | more hr =>
      cases hstep
      exact ⟨_, _, rfl, .more (.replayRunning hr), hw₁⟩
    | @done result =>
      cases hstep
      rw [← hnow₁]
      exact ⟨_, w₁'.tick, rfl, .more .replayPath, hw₁.congr rfl rfl rfl rfl⟩
    | broken =>
      cases hstep
      exact ⟨_, _, rfl, .ended, hw₁⟩

/-! ## Desks that are alike to a session -/

/-- Two desks that are alike to a session of a file: their worlds are, and the same calls stand in
the session's line, in the same order. For each place in it stand the number of the call, its turn
at the first desk, and that at the second. -/
structure Desk.Alike (file name : String) (st : Store) (line : List (Nat × Turn × Turn))
    (d d' : Desk) : Prop where
  /-- the worlds are alike -/
  world : World.Alike file name st d.world d'.world
  /-- the line at the first desk -/
  left : line.map (fun place => place.2.1) = d.gates.lineOf file name
  /-- the line at the second -/
  right : line.map (fun place => place.2.2) = d'.gates.lineOf file name

namespace Desk.Alike

variable {file name : String} {st : Store} {line : List (Nat × Turn × Turn)} {d d' : Desk}
  {i : Nat} {u u' : Turn}

theorem sessions (h : Alike file name st line d d') (hplace : (i, u, u') ∈ line) :
    u.session = name ∧ u'.session = name := by
  have hu : u ∈ d.gates.lineOf file name := h.left ▸ List.mem_map_of_mem hplace
  have hu' : u' ∈ d'.gates.lineOf file name := h.right ▸ List.mem_map_of_mem hplace
  exact ⟨(Gates.mem_lineOf.mp hu).2.2, (Gates.mem_lineOf.mp hu').2.2⟩

/-- Whoever has come to the head of the line at the first desk has at the second. -/
theorem head_of_isGranted (h : Alike file name st line d d') (hkept : d.gates.WellKept)
    (hplace : (i, u, u') ∈ line) (hgranted : d.gates.isGranted u = true) :
    ∃ rest, line = (i, u, u') :: rest := by
  have hu : u ∈ d.gates.lineOf file name := h.left ▸ List.mem_map_of_mem hplace
  obtain ⟨hmem, hfile, hsession⟩ := Gates.mem_lineOf.mp hu
  have hhead := (hkept.isGranted_iff_lineOf hmem).mp hgranted
  rw [hfile, hsession, ← h.left] at hhead
  have hnodup : (line.map fun place => place.2.1).Nodup := by
    rw [h.left]
    exact hkept.nodup_turns.filter _
  cases line with
  | nil => cases hplace
  | cons place rest =>
    have hfirst : place.2.1 = u := Option.some.inj hhead
    -- no other place in the line is the same turn
    rcases List.mem_cons.mp hplace with heq | hrest
    · exact ⟨rest, by rw [heq]⟩
    · rw [List.map_cons, List.nodup_cons, hfirst] at hnodup
      exact absurd (List.mem_map_of_mem hrest) hnodup.1

theorem isGranted (h : Alike file name st line d d') (hkept : d.gates.WellKept)
    (hkept' : d'.gates.WellKept) (hplace : (i, u, u') ∈ line)
    (hgranted : d.gates.isGranted u = true) : d'.gates.isGranted u' = true := by
  obtain ⟨rest, rfl⟩ := h.head_of_isGranted hkept hplace hgranted
  have hu' : u' ∈ d'.gates.lineOf file name := h.right ▸ List.mem_map_of_mem hplace
  obtain ⟨hmem, hfile, hsession⟩ := Gates.mem_lineOf.mp hu'
  rw [hkept'.isGranted_iff_lineOf hmem, hfile, hsession, ← h.right]
  rfl

/-- A call at the head of the line gives up its place at both desks. -/
theorem release (h : Alike file name st line d d') (hkept : d.gates.WellKept)
    (hkept' : d'.gates.WellKept) (hplace : (i, u, u') ∈ line)
    (hgranted : d.gates.isGranted u = true) {v v' : World} (hv : World.Alike file name st v v') :
    ∃ rest, Alike file name st rest ⟨v, d.gates.release u⟩ ⟨v', d'.gates.release u'⟩ ∧
      ∀ place ∈ line, place.1 ≠ i → place ∈ rest := by
  obtain ⟨rest, rfl⟩ := h.head_of_isGranted hkept hplace hgranted
  refine ⟨rest, ⟨hv, ?_, ?_⟩, fun place hmem hne => ?_⟩
  · exact (hkept.lineOf_release_head h.left.symm).symm
  · exact (hkept'.lineOf_release_head h.right.symm).symm
  · rcases List.mem_cons.mp hmem with rfl | hrest
    · exact absurd rfl hne
    · exact hrest

/-- A call takes a place in the session's line at both desks. -/
theorem arrive (h : Alike file name st line d d') (hkept : d.gates.WellKept)
    (hkept' : d'.gates.WellKept) (i : Nat) :
    Alike file name st
      (line ++ [(i, (d.gates.arrive file name).1, (d'.gates.arrive file name).1)])
      { d with gates := (d.gates.arrive file name).2 }
      { d' with gates := (d'.gates.arrive file name).2 } := by
  refine ⟨h.world, ?_, ?_⟩
  · rw [hkept.lineOf_arrive, if_pos ⟨rfl, rfl⟩, ← h.left, List.map_append, List.map_singleton]
  · rw [hkept'.lineOf_arrive, if_pos ⟨rfl, rfl⟩, ← h.right, List.map_append, List.map_singleton]

end Desk.Alike

/-! ## Calls at desks that are alike -/

/-- Calls at the same stage, with the same number and the same place in line. -/
inductive Phase.Alike (i : Nat) (line : List (Nat × Turn × Turn)) : Phase → Phase → Prop
  /-- nothing has been done -/
  | asked {request : Request} : Alike i line (asked request) (asked request)
  /-- about to take a place in line -/
  | queueing {session : String} {aim : Aim} :
    Alike i line (queueing session aim) (queueing session aim)
  /-- waiting in line -/
  | waiting {u u' : Turn} {aim : Aim} (hplace : (i, u, u') ∈ line) :
    Alike i line (waiting u aim) (waiting u' aim)
  /-- at work -/
  | working {u u' : Turn} {task task' : Task} {report : Report} (hplace : (i, u, u') ∈ line)
    (htask : task.Alike task') : Alike i line (working u task report) (working u' task' report)
  /-- about to take what the task gave -/
  | reported {session : String} {report : Report} {result : Except Fault Answer} :
    Alike i line (reported session report result) (reported session report result)
  /-- about to look at the session -/
  | looking {session : String} : Alike i line (looking session) (looking session)
  /-- about to settle the session -/
  | settling {u u' : Turn} {answer : Answer} (hplace : (i, u, u') ∈ line) :
    Alike i line (settling [u] answer) (settling [u'] answer)
  /-- with nothing left to settle -/
  | settled {answer : Answer} : Alike i line (settling [] answer) (settling [] answer)
  /-- with the same answer -/
  | finished {result : Except Fault Answer} : Alike i line (finished result) (finished result)

/-- A call stays in line while others come and go. -/
theorem Phase.Alike.keep {i : Nat} {line line' : List (Nat × Turn × Turn)} {phase phase' : Phase}
    (h : Alike i line phase phase') (hkeep : ∀ place ∈ line, place.1 = i → place ∈ line') :
    Alike i line' phase phase' := by
  cases h with
  | waiting hplace => exact .waiting (hkeep _ hplace rfl)
  | working hplace htask => exact .working (hkeep _ hplace rfl) htask
  | settling hplace => exact .settling (hkeep _ hplace rfl)
  | _ => constructor

/-- A call that has taken its first step has no place in line yet. -/
theorem Phase.Asks.alike {p : String → Prop} {l : Ledger} {file : String} {request : Request}
    {phase : Phase} {w w' : World} (h : Asks l file w request phase w') (hp : request.Concerns p)
    (i : Nat) (line : List (Nat × Turn × Turn)) : Alike i line phase phase := by
  cases h with
  | start => exact .finished
  | branchRefused => exact .finished
  | branchNowhere => exact .finished
  | branchFromTree => exact .asked
  | missEdge => exact .finished
  | removeNode => exact hp.elim
  | _ => exact .queueing

/-- The first step of a call is the same in worlds that are alike to the session. -/
theorem Phase.ask_alike {l : Ledger} {file name : String} {st : Store} {w w' v : World}
    (hw : World.Alike file name st w w') (hclock : w'.clock = w.clock) {request : Request}
    (hp : request.Concerns (· = name)) {phase : Phase} (h : ask l file request w = (phase, v)) :
    ∃ v', ask l file request w' = (phase, v') ∧ World.Alike file name st v v' := by
  have hnow : w'.now = w.now := congrArg Clock.now hclock
  cases request with
  | start session =>
    obtain rfl : session = name := hp
    obtain ⟨outcome, u, u', hstart, hstart', hu⟩ := hw.start hnow l
    rw [ask, hstart] at h
    rw [ask, hstart']
    cases h
    exact ⟨_, rfl, hu⟩
  | record session node code =>
    cases h
    exact ⟨_, rfl, hw⟩
  | execute session node =>
    cases h
    exact ⟨_, rfl, hw⟩
  | replay session =>
    cases h
    exact ⟨_, rfl, hw⟩
  | branch session path =>
    obtain rfl : session = name := hp
    obtain ⟨outcome, u, u', hstart, hstart', hu⟩ := hw.start hnow l
    rw [ask, hstart] at h
    rw [ask, hstart']
    cases outcome <;> cases h <;> exact ⟨_, rfl, hu⟩
  | removeExecutionEdge edge =>
    rw [ask] at h
    rw [ask, hw.owner? hp]
    cases howner : w.owner? file edge <;> rw [howner] at h <;> cases h <;> exact ⟨_, rfl, hw⟩
  | branchFromTree session target node placement => exact hp.elim
  | removeNode node => exact hp.elim
  | removeSession session => exact hp.elim

/-- Whatever step a call on the session takes at the first desk, it takes at the second. -/
theorem Phase.Alike.step? {l : Ledger} (hsteady : l.runner.IsSteady) {file name : String}
    {st : Store} {i : Nat} {line : List (Nat × Turn × Turn)} {phase phase' phase₁ : Phase}
    {d d' d₁ : Desk} (h : Alike i line phase phase') (hd : Desk.Alike file name st line d d')
    (hclock : d'.world.clock = d.world.clock) (hkept : d.gates.WellKept)
    (hkept' : d'.gates.WellKept) (hp : phase.Concerns (· = name)) (hsound : phase.Sound)
    (hheld : ∀ u ∈ phase.held, d.gates.isGranted u = true)
    (hstep : phase.step? l file d = some (phase₁, d₁)) :
    ∃ line₁ phase₁' d₁', phase'.step? l file d' = some (phase₁', d₁') ∧
      Desk.Alike file name st line₁ d₁ d₁' ∧ Alike i line₁ phase₁ phase₁' ∧
      ∀ place ∈ line, place.1 ≠ i → place ∈ line₁ := by
  have hnow : d'.world.now = d.world.now := congrArg Clock.now hclock
  have hstays : ∀ place ∈ line, place.1 ≠ i → place ∈ line := fun _ hplace _ => hplace
  cases h with
  | @asked request =>
    rcases hask : ask l file request d.world with ⟨next, v⟩
    obtain ⟨v', hask', hv⟩ := ask_alike hd.world hclock hp hask
    simp only [Phase.step?, hask] at hstep
    simp only [Phase.step?, hask']
    cases hstep
    exact ⟨line, _, _, rfl, ⟨hv, hd.left, hd.right⟩, (asks_of_ask hask).alike hp i line, hstays⟩
  | queueing =>
    obtain rfl := hp.1
    cases hstep
    exact ⟨_, _, _, rfl, hd.arrive hkept hkept' i,
      .waiting (List.mem_append_right _ (List.mem_singleton_self _)),
      fun place hplace _ => List.mem_append_left _ hplace⟩
  | @waiting u u' aim hplace =>
    obtain ⟨hu, hu'⟩ := hd.sessions hplace
    rw [Phase.step?] at hstep
    by_cases hgranted : d.gates.isGranted u = true
    · rw [if_pos hgranted] at hstep
      rw [Phase.step?, if_pos (hd.isGranted hkept hkept' hplace hgranted)]
      cases aim with
      | work task report =>
        cases hstep
        exact ⟨line, _, _, rfl, hd, .working hplace (.refl task), hstays⟩
      | removeEdge edge =>
        obtain ⟨position, rfl⟩ := hsound
        rw [hu] at hstep ⊢
        obtain ⟨removal, v, v', hremove, hremove', hv⟩ := hd.world.removeEdge hnow position
        rw [act, hremove] at hstep
        rw [act, hremove']
        cases removal with
        | none =>
          cases hstep
          obtain ⟨rest, hrest, hothers⟩ := hd.release hkept hkept' hplace hgranted hv
          exact ⟨rest, _, _, rfl, hrest, .finished, hothers⟩
        | some removal =>
          cases hstep
          exact ⟨line, _, _, rfl, ⟨hv, hd.left, hd.right⟩, .settling hplace, hstays⟩
      | removeSession => exact hp.2.elim
    · rw [if_neg hgranted] at hstep
      cases hstep
  | @working u u' task task' report hplace htask =>
    obtain ⟨hu, hu'⟩ := hd.sessions hplace
    rcases htaskstep : task.step l file name d.world with ⟨next, v⟩
    obtain ⟨next', v', htaskstep', hnext, hv⟩ :=
      htask.step hsteady hd.world hclock (hu ▸ hsound) htaskstep
    rw [Phase.step?, hu, htaskstep] at hstep
    rw [Phase.step?, hu', htaskstep']
    cases hnext with
    | more htask =>
      cases hstep
      exact ⟨line, _, _, rfl, ⟨hv, hd.left, hd.right⟩, .working hplace htask, hstays⟩
    | ended =>
      have hgranted : d.gates.isGranted u = true := by
        refine hheld u ?_
        cases report <;> exact List.mem_cons_self ..
      obtain ⟨rest, hrest, hothers⟩ := hd.release hkept hkept' hplace hgranted hv
      cases report with
      | nobody => exact hp.2.elim
      | _ =>
        cases hstep
        exact ⟨rest, _, _, rfl, hrest, .reported, hothers⟩
  | @reported session report result =>
    cases report with
    | nobody => exact hp.2.elim
    | pass =>
      cases hstep
      exact ⟨line, _, _, rfl, hd, .finished, hstays⟩
    | session =>
      cases result <;> cases hstep
      · exact ⟨line, _, _, rfl, hd, .finished, hstays⟩
      · exact ⟨line, _, _, rfl, hd, .looking, hstays⟩
    | settle turns answer =>
      obtain rfl : turns = [] := hp.2
      cases result <;> cases hstep
      · exact ⟨line, _, _, rfl, hd, .finished, hstays⟩
      · exact ⟨line, _, _, rfl, hd, .settled, hstays⟩
  | looking =>
    obtain rfl := hp
    cases hstep
    refine ⟨line, _, _, rfl, hd, ?_, hstays⟩
    rw [hd.world.sessionOr]
    exact .finished
  | @settling u u' answer hplace =>
    obtain ⟨hu, hu'⟩ := hd.sessions hplace
    have hgranted := hheld u (List.mem_cons_self ..)
    rw [Phase.step?] at hstep ⊢
    by_cases hmode : l.settings.replayOnRemoval = true
    · rw [if_pos hmode] at hstep ⊢
      cases hstep
      exact ⟨line, _, _, rfl, hd, .working hplace .replay, hstays⟩
    · rw [if_neg hmode] at hstep ⊢
      rw [hu] at hstep
      rw [hu']
      cases hstep
      obtain ⟨rest, hrest, hothers⟩ :=
        hd.release hkept hkept' hplace hgranted (hd.world.persistSession l)
      exact ⟨rest, _, _, rfl, hrest, .settled, hothers⟩
  | settled =>
    cases hstep
    exact ⟨line, _, _, rfl, hd, .finished, hstays⟩
  | finished => cases hstep

/-! ## Whole runs -/

namespace Traffic

/-- Calls that were made at once, and of which nothing has been done. -/
def atOnce (w : World) (requests : List (String × Request)) : Traffic :=
  ⟨⟨w, .empty⟩, requests.map fun r => .of r.1 r.2⟩

/-- The traffic at some other time. -/
def setClock (t : Traffic) (clock : Clock) : Traffic :=
  { t with desk := { t.desk with world := { t.desk.world with clock } } }

/-- The next step of a call, at some time. There is none while it waits and when it is over. -/
def stepAt? (l : Ledger) (t : Traffic) (step : Nat × Clock) : Option Traffic :=
  (t.setClock step.2).step? l step.1

/-- What steps of the calls in some order leave, each taken at some time. It is nothing if one of
them cannot be taken. -/
def interleave? (l : Ledger) (t : Traffic) (steps : List (Nat × Clock)) : Option Traffic :=
  steps.foldlM (stepAt? l) t

/-- Any order of steps by the clock of the desk is such a run, at the times that the clock showed. -/
theorem exists_interleave? (l : Ledger) (order : List Nat) : ∀ {t t' : Traffic},
    order.foldlM (fun t i => step? l i t) t = some t' →
      ∃ steps, steps.map Prod.fst = order ∧ t.interleave? l steps = some t' := by
  induction order with
  | nil => exact fun h => ⟨[], rfl, h⟩
  | cons i rest ih =>
    intro t t' h
    obtain ⟨u, hu, hrest⟩ := Option.bind_eq_some_iff.mp h
    obtain ⟨steps, rfl, hsteps⟩ := ih hrest
    exact ⟨(i, t.desk.world.clock) :: steps, rfl, Option.bind_eq_some_iff.mpr ⟨u, hu, hsteps⟩⟩

theorem step?_eq_some {l : Ledger} {t t₁ : Traffic} {i : Nat} (h : t.step? l i = some t₁) :
    ∃ c phase d, t.calls[i]? = some c ∧ c.phase.step? l c.file t.desk = some (phase, d) ∧
      t₁ = ⟨d, t.calls.set i ⟨c.file, phase⟩⟩ := by
  obtain ⟨c, hc, hmap⟩ := Option.bind_eq_some_iff.mp h
  obtain ⟨⟨c', d⟩, hstep, rfl⟩ := Option.map_eq_some_iff.mp hmap
  obtain ⟨⟨phase, d'⟩, hphase, heq⟩ := Option.map_eq_some_iff.mp hstep
  cases heq
  exact ⟨c, phase, d, hc, hphase, rfl⟩

theorem exists_request {w : World} {requests : List (String × Request)} {i : Nat} {c : Call}
    (h : (atOnce w requests).calls[i]? = some c) :
    ∃ r, requests[i]? = some r ∧ Call.of r.1 r.2 = c := by
  rw [atOnce, List.getElem?_map] at h
  exact Option.map_eq_some_iff.mp h

theorem orderly_atOnce (w : World) (requests : List (String × Request)) :
    Orderly (atOnce w requests) := by
  have hasked : ∀ c ∈ (atOnce w requests).calls, ∃ request, c.phase = .asked request := by
    intro c hc
    obtain ⟨r, -, rfl⟩ := List.mem_map.mp hc
    exact ⟨r.2, rfl⟩
  have hturns : ∀ c ∈ (atOnce w requests).calls, c.phase.turns = [] := by
    intro c hc
    obtain ⟨request, hphase⟩ := hasked c hc
    rw [hphase]
    rfl
  refine ⟨Gates.wellKept_empty, ?_, fun c hc u hu => ?_, fun c hc u hu => ?_, fun c hc => ?_⟩
  · rw [turns, List.flatMap_eq_nil_iff.mpr hturns]
    rfl
  · rw [hturns c hc] at hu
    cases hu
  · have hmem := Phase.mem_turns_of_mem_held hu
    rw [hturns c hc] at hmem
    cases hmem
  · obtain ⟨request, hphase⟩ := hasked c hc
    rw [hphase]
    exact trivial

/-- Only the call that takes the step is at another stage. -/
theorem getElem?_set_cases {calls : List Call} {i j : Nat} {c c' : Call}
    (h : (calls.set i c)[j]? = some c') : (j = i ∧ c' = c) ∨ (j ≠ i ∧ calls[j]? = some c') := by
  by_cases hji : j = i
  · obtain ⟨hlt, rfl⟩ := List.getElem?_eq_some_iff.mp h
    subst hji
    exact .inl ⟨rfl, List.getElem_set_self hlt⟩
  · rw [List.getElem?_set_ne (Ne.symm hji)] at h
    exact .inr ⟨hji, h⟩

theorem Guarded.setClock {t : Traffic} (h : Guarded t) (clock : Clock) :
    Guarded (t.setClock clock) where
  orderly := ⟨h.orderly.gates, h.orderly.turns, h.orderly.file, h.orderly.held, h.orderly.fit⟩
  drawn := h.drawn
  sound := h.sound
  nodes := h.nodes

theorem Guarded.step? {l : Ledger} {t t₁ : Traffic} {i : Nat} (h : Guarded t)
    (hstep : t.step? l i = some t₁) : Guarded t₁ := by
  have hmove := moves_next l t (.step i)
  rw [next, hstep, Option.getD_some] at hmove
  have hevent : (Event.step i).KeepsNodes := trivial
  exact h.moves hevent hmove

/-- The calls are parted into those on the session and those on others. -/
structure Parted (file name : String) (own : Nat → Bool) (t : Traffic) : Prop where
  /-- what they do to sessions is guarded by the turns -/
  guarded : Guarded t
  /-- those on the session -/
  mine : ∀ i c, t.calls[i]? = some c → own i = true →
    c.file = file ∧ c.phase.Concerns (· = name)
  /-- those on others -/
  others : ∀ i c, t.calls[i]? = some c → own i = false →
    c.phase.Concerns fun session => ¬ (c.file = file ∧ session = name)

/-- At first, calls are about what they are asked for. -/
theorem parted_atOnce {w : World} (hloaded : w.workspace.Loaded) {file name : String}
    {own : Nat → Bool} {requests : List (String × Request)}
    (hown : ∀ i r, requests[i]? = some r →
      if own i then r.1 = file ∧ r.2.Concerns (· = name)
      else r.2.Concerns fun session => ¬ (r.1 = file ∧ session = name)) :
    Parted file name own (atOnce w requests) := by
  refine ⟨⟨orderly_atOnce w requests, hloaded.drawn, fun c hc => ?_, fun c hc => ?_⟩,
    fun i c hc hi => ?_, fun i c hc hi => ?_⟩
  · obtain ⟨r, -, rfl⟩ := List.mem_map.mp hc
    exact trivial
  · obtain ⟨i, hi⟩ := List.getElem?_of_mem hc
    obtain ⟨⟨other, request⟩, hr, rfl⟩ := exists_request hi
    have hconcerns := hown i _ hr
    cases request with
    | removeNode node =>
      -- a node is deleted from any number of sessions, so the call is on neither side
      cases hi : own i <;> rw [hi] at hconcerns
      · exact hconcerns
      · exact hconcerns.2
    | _ => exact trivial
  · obtain ⟨r, hr, rfl⟩ := exists_request hc
    have hconcerns := hown i r hr
    rw [if_pos hi] at hconcerns
    exact hconcerns
  · obtain ⟨r, hr, rfl⟩ := exists_request hc
    have hconcerns := hown i r hr
    rw [if_neg (Bool.eq_false_iff.mp hi)] at hconcerns
    exact hconcerns

theorem Parted.setClock {file name : String} {own : Nat → Bool} {t : Traffic}
    (h : Parted file name own t) (clock : Clock) : Parted file name own (t.setClock clock) :=
  ⟨h.guarded.setClock clock, h.mine, h.others⟩

theorem Parted.step? {l : Ledger} {file name : String} {own : Nat → Bool} {t t₁ : Traffic}
    {i : Nat} (h : Parted file name own t) (hstep : t.step? l i = some t₁) :
    Parted file name own t₁ := by
  have hguarded := h.guarded.step? hstep
  obtain ⟨c, phase, d, hc, hphase, rfl⟩ := step?_eq_some hstep
  refine ⟨hguarded, fun j c' hc' hj => ?_, fun j c' hc' hj => ?_⟩
  · rcases getElem?_set_cases hc' with ⟨rfl, rfl⟩ | ⟨-, hc'⟩
    · obtain ⟨hfile, hp⟩ := h.mine j c hc hj
      exact ⟨hfile, Phase.concerns_step? hp h.guarded.drawn hphase⟩
    · exact h.mine j c' hc' hj
  · rcases getElem?_set_cases hc' with ⟨rfl, rfl⟩ | ⟨-, hc'⟩
    · exact Phase.concerns_step? (h.others j c hc hj) h.guarded.drawn hphase
    · exact h.others j c' hc' hj

theorem Parted.interleave? {l : Ledger} {file name : String} {own : Nat → Bool}
    (steps : List (Nat × Clock)) : ∀ {t u : Traffic}, Parted file name own t →
      t.interleave? l steps = some u → Parted file name own u := by
  induction steps with
  | nil =>
    rintro t u h ⟨⟩
    exact h
  | cons step rest ih =>
    intro t u h hrun
    obtain ⟨t₁, hstep, hrest⟩ := Option.bind_eq_some_iff.mp hrun
    exact ih ((h.setClock step.2).step? hstep) hrest

/-- The second traffic is what the first is to a session: their desks are alike to it, and the calls
on it are at the same stage. -/
structure Mirrors (file name : String) (own : Nat → Bool) (st : Store)
    (line : List (Nat × Turn × Turn)) (t t' : Traffic) : Prop where
  /-- the desks are alike -/
  desk : Desk.Alike file name st line t.desk t'.desk
  /-- the calls on the session are at the same stage -/
  calls : ∀ i phase, own i = true → t.calls[i]? = some ⟨file, phase⟩ →
    ∃ phase', t'.calls[i]? = some ⟨file, phase'⟩ ∧ Phase.Alike i line phase phase'
  /-- there are as many calls -/
  length : t'.calls.length = t.calls.length

namespace Mirrors

variable {l : Ledger} {file name : String} {own : Nat → Bool} {st : Store}
  {line : List (Nat × Turn × Turn)} {t t' t₁ : Traffic} {i : Nat}

theorem setClock (h : Mirrors file name own st line t t') (clock : Clock) :
    Mirrors file name own st line (t.setClock clock) (t'.setClock clock) where
  desk := ⟨h.desk.world.congr rfl rfl rfl rfl, h.desk.left, h.desk.right⟩
  calls := h.calls
  length := h.length

theorem setClock_left (h : Mirrors file name own st line t t') (clock : Clock) :
    Mirrors file name own st line (t.setClock clock) t' where
  desk := ⟨h.desk.world.congr rfl rfl rfl rfl, h.desk.left, h.desk.right⟩
  calls := h.calls
  length := h.length

/-- A step of a call on another session makes no difference. -/
theorem step_left (h : Mirrors file name own st line t t') (hparted : Parted file name own t)
    (hi : own i = false) (hstep : t.step? l i = some t₁) :
    Mirrors file name own st line t₁ t' := by
  obtain ⟨c, phase, d, hc, hphase, rfl⟩ := step?_eq_some hstep
  have hmem := List.mem_of_getElem? hc
  have hp := hparted.others i c hc hi
  have hother : c.file = file → ¬ ¬ (c.file = file ∧ name = name) := fun hfile hnot =>
    hnot ⟨hfile, rfl⟩
  have hsound := hparted.guarded.sound c hmem
  have horderly := hparted.guarded.orderly
  have hturns : ∀ u ∈ c.phase.turns, u ∈ t.desk.gates.turns := fun u hu =>
    horderly.turns.mem_iff.mp (List.mem_flatMap.mpr ⟨c, hmem, hu⟩)
  have hworkspace : d.world.workspace = t.desk.world.workspace ∨ ∃ u : Update,
      (∀ session, u.IsAbout session → ¬ (c.file = file ∧ session = name)) ∧
        d.world.workspace = u.apply c.file t.desk.world.workspace := by
    rcases Phase.workspace_step? hphase with hsame | ⟨u, hmakes, happly⟩
    · exact .inl hsame
    · exact .inr ⟨u, fun session => hmakes.of_concerns hp hsound, happly⟩
  refine ⟨⟨?_, ?_, h.desk.right⟩, fun j phase' hj hc' => ?_, ?_⟩
  · exact h.desk.world.left hother hparted.guarded.drawn hworkspace
      (Phase.stores_step? hp hsound hphase)
  · exact h.desk.left.trans (Phase.lineOf_step? hp hother (horderly.fit c hmem) horderly.gates
      hturns (horderly.file c hmem) hparted.guarded.drawn hphase).symm
  · rcases getElem?_set_cases hc' with ⟨rfl, -⟩ | ⟨-, hc'⟩
    · rw [hi] at hj
      cases hj
    · exact h.calls j phase' hj hc'
  · rw [List.length_set, h.length]

/-- A call on the session takes the same step in both. -/
theorem step_both (h : Mirrors file name own st line t t') (hsteady : l.runner.IsSteady)
    (hparted : Parted file name own t) (hguarded' : Guarded t')
    (hclock : t'.desk.world.clock = t.desk.world.clock) (hi : own i = true)
    (hstep : t.step? l i = some t₁) :
    ∃ line₁ t₁', t'.step? l i = some t₁' ∧ Mirrors file name own st line₁ t₁ t₁' := by
  obtain ⟨⟨file', phase⟩, phase₁, d₁, hc, hphase, rfl⟩ := step?_eq_some hstep
  have hmem := List.mem_of_getElem? hc
  obtain ⟨hfile, hp⟩ := hparted.mine i _ hc hi
  obtain rfl : file' = file := hfile
  obtain ⟨phase', hc', halike⟩ := h.calls i phase hi hc
  have horderly := hparted.guarded.orderly
  obtain ⟨line₁, phase₁', d₁', hphase', hdesk, halike₁, hothers⟩ :=
    halike.step? hsteady h.desk hclock horderly.gates hguarded'.orderly.gates hp
      (hparted.guarded.sound _ hmem) (horderly.held _ hmem) hphase
  refine ⟨line₁, ⟨d₁', t'.calls.set i ⟨file', phase₁'⟩⟩, ?_, ⟨hdesk, ?_, ?_⟩⟩
  · rw [Traffic.step?, hc', Option.bind_some, Call.step?, hphase']
    rfl
  · intro j phase₂ hj hc₂
    rcases getElem?_set_cases hc₂ with ⟨rfl, heq⟩ | ⟨hji, hc₂⟩
    · cases heq
      exact ⟨phase₁', List.getElem?_set_self (List.getElem?_eq_some_iff.mp hc').1, halike₁⟩
    · obtain ⟨phase₂', hc₂', halike₂⟩ := h.calls j phase₂ hj hc₂
      refine ⟨phase₂', ?_, halike₂.keep fun place hplace hnumber => ?_⟩
      · rw [List.getElem?_set_ne (Ne.symm hji), hc₂']
      · exact hothers place hplace fun heq => hji (hnumber.symm.trans heq)
  · rw [List.length_set, List.length_set, h.length]

/-- Steps of calls on other sessions may be left out of any run. -/
theorem interleave? (hsteady : l.runner.IsSteady) (steps : List (Nat × Clock)) :
    ∀ {t t' u : Traffic} {line : List (Nat × Turn × Turn)},
      Mirrors file name own st line t t' → Parted file name own t → Guarded t' →
      t.interleave? l steps = some u →
      ∃ line' u', t'.interleave? l (steps.filter fun step => own step.1) = some u' ∧
        Mirrors file name own st line' u u' := by
  induction steps with
  | nil =>
    rintro t t' u line h - - ⟨⟩
    exact ⟨line, t', rfl, h⟩
  | cons step rest ih =>
    intro t t' u line h hparted hguarded' hrun
    obtain ⟨i, clock⟩ := step
    obtain ⟨t₁, hstep, hrest⟩ := Option.bind_eq_some_iff.mp hrun
    have hset := hparted.setClock clock
    have hset' := hguarded'.setClock clock
    cases hi : own i with
    | false =>
      rw [List.filter_cons_of_neg (by simp [hi])]
      exact ih ((h.setClock_left clock).step_left hset hi hstep) (hset.step? hstep) hguarded' hrest
    | true =>
      obtain ⟨line₁, t₁', hstep', h₁⟩ :=
        (h.setClock clock).step_both hsteady hset hset' rfl hi hstep
      obtain ⟨line', u', hrun', hu⟩ := ih h₁ (hset.step? hstep) (hset'.step? hstep') hrest
      rw [List.filter_cons_of_pos (by simp [hi])]
      exact ⟨line', u', Option.bind_eq_some_iff.mpr ⟨t₁', hstep', hrun'⟩, hu⟩

/-- The calls on the session have given the same. -/
theorem result? (h : Mirrors file name own st line t t') (hparted : Parted file name own t)
    (hi : own i = true) : t'.result? i = t.result? i := by
  rw [Traffic.result?, Traffic.result?, phase?, phase?]
  cases hc : t.calls[i]? with
  | none =>
    have hc' : t'.calls[i]? = none := by
      rw [List.getElem?_eq_none_iff, h.length]
      exact List.getElem?_eq_none_iff.mp hc
    rw [hc']
  | some c =>
    obtain ⟨file', phase⟩ := c
    obtain rfl : file' = file := (hparted.mine i _ hc hi).1
    obtain ⟨phase', hc', halike⟩ := h.calls i phase hi hc
    rw [hc']
    cases halike <;> rfl

end Mirrors

/-- Calls made at once mirror themselves, as long as the worlds are alike. -/
theorem mirrors_atOnce {w : World} {file name : String} {st : Store}
    (h : World.Alike file name st w w) (own : Nat → Bool) (requests : List (String × Request)) :
    Mirrors file name own st [] (atOnce w requests) (atOnce w requests) where
  desk := ⟨h, rfl, rfl⟩
  calls i phase _ hc := by
    refine ⟨phase, hc, ?_⟩
    obtain ⟨r, -, heq⟩ := exists_request hc
    cases heq
    exact .asked
  length := rfl

/-- **Sessions do not interfere.** Take any calls that start sessions, run them or cut them, one
session at a time, and any order of their steps. If the steps of all calls on other sessions are
left out, those that are left can be taken one after another at the times they were. In the end the
session is the same, with the same steps in the file; its calls have given the same; and the states
that were stored for it are the same, so that the latest one is.

The runner must not count its calls. The file must just have been loaded, with no node that refers
to a session and no other edge that is named like a step, and no two of its sessions may share a
name. The store must not be at odds with itself if what it had before is to count. -/
theorem interleave?_own (l : Ledger) (hsteady : l.runner.IsSteady) (w : World)
    (hloaded : w.workspace.Loaded) (file name : String) (g : Graph) (b : Book)
    (hnames : b.names.Nodup) (hgraph : ∀ n ∈ g.nodes, n.graph = none)
    (hreserved : ∀ e ∈ g.edges, e.isExecution = false →
      ∀ session position, e.id ≠ Session.edgeId session position)
    (requests : List (String × Request)) (own : Nat → Bool)
    (hown : ∀ i r, requests[i]? = some r →
      if own i then r.1 = file ∧ r.2.Concerns (· = name)
      else r.2.Concerns fun session => ¬ (r.1 = file ∧ session = name))
    (steps : List (Nat × Clock)) (t : Traffic)
    (hrun : (atOnce { w with workspace := w.workspace.insertFile file g b } requests).interleave? l
      steps = some t) :
    ∃ t', (atOnce { w with workspace := w.workspace.insertFile file g b } requests).interleave? l
        (steps.filter fun step => own step.1) = some t' ∧
      t'.session? file name = t.session? file name ∧
      t'.desk.world.workspace.stepsOf file name = t.desk.world.workspace.stepsOf file name ∧
      (∀ i, own i = true → t'.result? i = t.result? i) ∧
      (∃ saves, t.desk.world.store = w.store.saveAll saves ∧
        t'.desk.world.store = w.store.saveAll (saves.filter fun save => save.1 = (file, name))) ∧
      (w.store.Tidy → t'.desk.world.store.load file name = t.desk.world.store.load file name) := by
  have hloaded' : Workspace.Loaded (w.workspace.insertFile file g b) :=
    hloaded.insertFile file g b
  have hparted : Parted file name own
      (atOnce { w with workspace := w.workspace.insertFile file g b } requests) :=
    parted_atOnce hloaded' hown
  have hmirrors := mirrors_atOnce (World.Alike.of_load
    (w := { w with workspace := w.workspace.insertFile file g b }) hnames hgraph hreserved
    (Workspace.file?_setFile_self ..) name) own requests
  obtain ⟨line, t', hrun', h⟩ :=
    hmirrors.interleave? hsteady steps hparted hparted.guarded hrun
  refine ⟨t', hrun', h.desk.world.session?, h.desk.world.stepsOf, fun i hi => ?_,
    h.desk.world.saves, h.desk.world.load⟩
  exact h.result? (hparted.interleave? steps hrun) hi

/-- Two sessions that ran the same node. -/
def twinBook : Book :=
  ⟨[Workspace.idleSession "s" ["a"], Workspace.idleSession "t" ["a"]], some "s"⟩

/-- One more step in each session. The only step of the second one is to go before that. -/
def twinCalls : List (String × Request) :=
  [("f", .record "s" "a" "x"), ("f", .removeExecutionEdge (Session.edgeId "t" 1)),
    ("f", .record "t" "a" "y")]

/-- The calls take turns. -/
def twinSteps : List (Nat × Clock) :=
  [0, 1, 2, 0, 1, 2, 0, 1, 0, 1, 2, 0, 1, 2, 0, 2, 0, 2, 0, 2, 0, 2, 2].zipIdx.map
    fun step => (step.1, ⟨step.2⟩)

/-- The world before all that. -/
def twinPage : World :=
  { World.initial default with
    workspace := Workspace.empty.insertFile "f" (Graph.empty.upsertNode (.new "a" .fragment))
      twinBook }

/-- What the second session goes through is nothing to the first. -/
theorem interleave?_own_twinSteps :
    echoing.runner.IsSteady ∧ twinBook.names.Nodup ∧
      (∀ i r, twinCalls[i]? = some r →
        if decide (i = 0) then r.1 = "f" ∧ r.2.Concerns (· = "s")
        else r.2.Concerns fun session => ¬ (r.1 = "f" ∧ session = "s")) ∧
      ∃ t t', (atOnce twinPage twinCalls).interleave? echoing twinSteps = some t ∧
        (atOnce twinPage twinCalls).interleave? echoing (twinSteps.filter fun step => step.1 = 0) =
          some t' ∧
        (t.session? "f" "s").map Session.path = some ["a", "a"] ∧
        t'.session? "f" "s" = t.session? "f" "s" ∧
        t'.desk.world.workspace.stepsOf "f" "s" = t.desk.world.workspace.stepsOf "f" "s" ∧
        t'.result? 0 = t.result? 0 ∧
        t'.desk.world.store.load "f" "s" = t.desk.world.store.load "f" "s" := by
  have hsteady : echoing.runner.IsSteady := fun _ _ => rfl
  have hnames : twinBook.names.Nodup := by decide
  have hgraph : ∀ n ∈ (Graph.empty.upsertNode (.new "a" .fragment)).nodes, n.graph = none := by
    intro n hn
    obtain rfl : n = .new "a" .fragment := List.mem_singleton.mp hn
    rfl
  have hown : ∀ i r, twinCalls[i]? = some r →
      if decide (i = 0) then r.1 = "f" ∧ r.2.Concerns (· = "s")
      else r.2.Concerns fun session => ¬ (r.1 = "f" ∧ session = "s") := by
    intro i r hr
    match i with
    | 0 =>
      cases hr
      exact ⟨rfl, rfl⟩
    | 1 =>
      cases hr
      rintro session position hid ⟨-, rfl⟩
      exact absurd (Session.edgeId_inj hid).1 (by decide)
    | 2 =>
      cases hr
      exact fun h => absurd h.2 (by decide)
    | _ + 3 => cases hr
  have hpath : (((atOnce twinPage twinCalls).interleave? echoing twinSteps).bind
      fun t => (t.session? "f" "s").map Session.path) = some ["a", "a"] := by decide +kernel
  obtain ⟨t, hrun, hpath⟩ := Option.bind_eq_some_iff.mp hpath
  obtain ⟨t', hrun', hsession, hsteps, hresults, -, hload⟩ :=
    interleave?_own echoing hsteady (World.initial default) Workspace.loaded_empty "f" "s"
      (Graph.empty.upsertNode (.new "a" .fragment)) twinBook hnames hgraph
      (fun e he => absurd he List.not_mem_nil) twinCalls (fun i => i = 0) hown twinSteps t hrun
  exact ⟨hsteady, hnames, hown, t, t', hrun, hrun', hpath, hsession, hsteps, hresults 0 rfl,
    hload trivial⟩

end Traffic

end Ledger

end Runbook
