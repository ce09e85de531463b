import Runbook.Proofs.Alone
import Runbook.Proofs.LiveRuns

/-!
# Branching at once and step by step

A branch is one call. It starts a session and runs a path in it, and holds the session's turn all
along. The same can be done by many calls, one that starts the session and one for each node, which
wait for their turn and give it up again. If nobody comes between, both leave the same world. Where
the runner breaks down, what was recorded before stays.

* `FileState.withBranch`: a file in which a session was started and steps were run
* `Ledger.Branched`: a world with such a file, and with what is stored for the session
* `Ledger.OneByOne`: calls that are made one after another, up to the first fault
* `Ledger.exists_oneByOne_path`: the nodes of a path, one by one
* `Ledger.OneByOne.unique`, `Ledger.branch_agrees`: what both give is determined, and the same
* `Ledger.branch_one_by_one`: a branch is a start and single steps
-/

namespace Runbook

/-! ## Files with a branch -/

/-- A session at the end of a book is the first of its name if the name was free before. -/
theorem Book.replaceFirst_concat {s : Session} (s' : Session) (sessions : List Session) :
    (∀ t ∈ sessions, t.id ≠ s.id) →
      replaceFirst s.id s' (sessions ++ [s]) = sessions ++ [s'] := by
  induction sessions with
  | nil => exact fun _ => if_pos rfl
  | cons t rest ih =>
    intro h
    rw [List.cons_append, replaceFirst, if_neg (h t List.mem_cons_self),
      ih fun u hu => h u (List.mem_cons_of_mem _ hu), List.cons_append]

namespace FileState

/-- The file after a session was started in it and has run some steps. -/
def withBranch (f : FileState) (s : Session) : FileState where
  graph := { f.graph with edges := f.graph.edges ++ s.edges }
  book := {
    sessions := f.book.sessions ++ [s]
    -- starting a session leaves the primary one, and running a step does not
    primary := if s.isEmpty then f.book.primary.orElse fun _ => some s.id else some s.id }

theorem withSession_eq (f : FileState) (name : String) (now : Instant) :
    f.withSession name now = f.withBranch (.new name now) := by
  have hedges : f.graph.edges ++ (Session.new name now).edges = f.graph.edges :=
    List.append_nil _
  rw [withBranch, hedges]
  rfl

variable {f : FileState} {s : Session}

theorem get?_withBranch (hfree : f.book.get? s.id = none) :
    (f.withBranch s).book.get? s.id = some s := Book.get?_concat hfree _

theorem withStep_withBranch (hfree : f.book.get? s.id = none) (e : Execution) (now : Instant) :
    (f.withBranch s).withStep s e now = f.withBranch (s.push e now) := by
  have hfirst : ∀ t ∈ f.book.sessions, t.id ≠ s.id := fun t ht => by
    simpa using List.find?_eq_none.mp hfree t ht
  have hbook : (f.withBranch s).book.replace s.id (s.push e now) =
      { (f.withBranch s).book with sessions := f.book.sessions ++ [s.push e now] } :=
    congrArg (fun sessions => { (f.withBranch s).book with sessions })
      (Book.replaceFirst_concat _ _ hfirst)
  have hthere : ((f.withBranch s).book.replace s.id (s.push e now)).contains s.id = true := by
    rw [Book.contains, Book.get?_replace_self (get?_withBranch hfree) (s.id_push e now)]
    rfl
  have hsome : (s.push e now).isEmpty = false := by simp [Session.isEmpty, Session.push]
  rw [withStep, Book.setPrimary, if_pos hthere, hbook]
  simp [withBranch, Session.edges_push, hsome]

end FileState

namespace Ledger

/-! ## Worlds with a branch -/

/-- A session was started in a file, and steps were run in it. -/
structure Branched (l : Ledger) (file : String) (f : FileState) (w₀ w : World) (s : Session) :
    Prop where
  /-- the session and the edges of its steps are there, and nothing else has changed -/
  workspace : w.workspace = w₀.workspace.setFile file (f.withBranch s)
  /-- its state is the one its last execution left -/
  current : s.Current
  /-- storing its state once more makes no difference -/
  stored : l.settings.persist = true → (w.store.save file s.id s.overall).2 = w.store
  /-- or nothing is stored at all -/
  unstored : l.settings.persist = false → w.store = w₀.store

namespace Branched

variable {l : Ledger} {file : String} {f : FileState} {w₀ w : World} {s : Session}

/-- A session that was just started has run no steps. -/
theorem exists_start (l : Ledger) (hf : w₀.workspace.file? file = some f) {name : String}
    (hfree : f.book.get? name = none) :
    ∃ w, w₀.start l file name = (.ok (.new name w₀.now), w) ∧
      l.Branched file f w₀ w (.new name w₀.now) := by
  rcases World.start_cases l file name w₀ with ⟨hf', -⟩ | ⟨f', hf', htaken, -⟩ |
    ⟨f', hf', -, heq⟩ <;> cases hf'.symm.trans hf
  · rw [Book.contains, hfree] at htaken
    cases htaken
  · refine ⟨_, heq, ?_, rfl, fun hpersist => World.save_persist hpersist file name _ _, ?_⟩
    · rw [World.workspace_persist, FileState.withSession_eq]
      rfl
    · intro hpersist
      rw [World.store_persist, if_neg (Bool.eq_false_iff.mp hpersist)]
      rfl

theorem file? (h : l.Branched file f w₀ w s) :
    w.workspace.file? file = some (f.withBranch s) := by
  rw [h.workspace, Workspace.file?_setFile_self]

theorem session? (h : l.Branched file f w₀ w s) (hfree : f.book.get? s.id = none) :
    w.workspace.session? file s.id = some s := by
  rw [Workspace.session?, h.file?, Option.bind_some, FileState.get?_withBranch hfree]

/-- One more step, run on the state of the session. -/
theorem step (h : l.Branched file f w₀ w s) (hfree : f.book.get? s.id = none) (node : NodeId)
    (r : RunResult) (calls : Nat) :
    l.Branched file f w₀ (World.persist l file s.id r.state (World.withWorkspace { w with calls }
      (w.workspace.setFile file ((f.withBranch s).withStep s (.ofRun node r) w.now))))
      (s.push (.ofRun node r) w.now) where
  workspace := by
    rw [World.workspace_persist, FileState.withStep_withBranch hfree, h.workspace]
    exact Workspace.setFile_setFile ..
  current := s.current_push _ _
  stored hpersist := World.save_persist hpersist file s.id _ _
  unstored hpersist := by
    rw [World.store_persist, if_neg (Bool.eq_false_iff.mp hpersist)]
    exact h.unstored hpersist

/-- Calling the runner changes none of this. -/
theorem pass (h : l.Branched file f w₀ w s) (calls : Nat) :
    l.Branched file f w₀ { w with calls } s := ⟨h.workspace, h.current, h.stored, h.unstored⟩

/-- If the store does not refuse the state, it holds it. -/
theorem holds (h : l.Branched file f w₀ w s) (hpersist : l.settings.persist = true)
    (haccepts : (w.store.save file s.id s.overall).1 = .ok ()) :
    w.store.Holds file s.id s.overall := by
  have hholds := Store.holds_save haccepts
  rwa [h.stored hpersist] at hholds

/-- In a file that was loaded and changed since, the steps of the session are its chain. -/
theorem stepsOf (h : l.Branched file f w₀ w s) (hf : w₀.workspace.file? file = some f)
    (hfree : f.book.get? s.id = none) (v : Workspace) (g : Graph) (b : Book)
    (us : List (String × Update)) (hloaded : w₀.workspace = (v.insertFile file g b).after us) :
    w.workspace.stepsOf file s.id = s.edges := by
  have hnone : Session.stepsIn s.id f.graph.edges = [] := by
    have hsession : w₀.workspace.session? file s.id = none := by
      rw [Workspace.session?, hf]
      exact hfree
    have hsteps := Workspace.stepsOf_after v file g b us (hloaded ▸ hsession)
    rw [← hloaded, Workspace.stepsOf, hf] at hsteps
    exact hsteps
  rw [Workspace.stepsOf, h.file?]
  simp only [FileState.withBranch, Session.stepsIn_append, hnone, List.nil_append,
    Session.stepsIn_edges]

end Branched

/-! ## One call after another -/

/-- The execution that a call gave. -/
def Answer.execution? : Answer → Option Execution
  | execution e => e
  | _ => none

/-- Calls are made one after another, each when the one before it has its answer, up to the first
that is answered by a fault. -/
inductive OneByOne (l : Ledger) (file : String) :
    List Request → Desk → List Answer → Except Fault Unit → Desk → Prop where
  /-- all calls were made -/
  | done {d : Desk} : OneByOne l file [] d [] (.ok ()) d
  /-- a call is answered by a fault, and the others are not made -/
  | fault {request : Request} {rest : List Request} {d d' : Desk} {fault : Fault}
    (h : (Phase.asked request).Ends l file d (.error fault) d') :
    OneByOne l file (request :: rest) d [] (.error fault) d'
  /-- a call is answered -/
  | answer {request : Request} {rest : List Request} {d d' d'' : Desk} {answer : Answer}
    {answers : List Answer} {outcome : Except Fault Unit}
    (h : (Phase.asked request).Ends l file d (.ok answer) d')
    (hrest : OneByOne l file rest d' answers outcome d'') :
    OneByOne l file (request :: rest) d (answer :: answers) outcome d''

/-- What calls give that are made one by one is determined. -/
theorem OneByOne.unique {l : Ledger} {file : String} {requests : List Request}
    {d d₁ d₂ : Desk} {answers₁ answers₂ : List Answer} {outcome₁ outcome₂ : Except Fault Unit}
    (h₁ : OneByOne l file requests d answers₁ outcome₁ d₁)
    (h₂ : OneByOne l file requests d answers₂ outcome₂ d₂) :
    answers₁ = answers₂ ∧ outcome₁ = outcome₂ ∧ d₁ = d₂ := by
  induction h₁ generalizing answers₂ with
  | done =>
    cases h₂
    exact ⟨rfl, rfl, rfl⟩
  | fault h =>
    cases h₂ with
    | fault h' =>
      obtain ⟨heq, rfl⟩ := h.unique h'
      exact ⟨rfl, by rw [Except.error.inj heq], rfl⟩
    | answer h' _ => cases (h.unique h').1
  | answer h _ ih =>
    cases h₂ with
    | fault h' => cases (h.unique h').1
    | answer h' hrest =>
      obtain ⟨heq, rfl⟩ := h.unique h'
      obtain ⟨rfl, houtcome, hd⟩ := ih hrest
      exact ⟨by rw [Except.ok.inj heq], houtcome, hd⟩

/-- The runner was called on the state of a session for a node, and broke down. -/
def BrokeDown (l : Ledger) (file : String) (w : World) (s : Session) (node : NodeId)
    (fault : Fault) : Prop :=
  ∃ codes b calls, w.workspace.steps? file node = some codes ∧
    l.runner.runAll codes s.overall calls = (.error b, w.calls) ∧ fault = b.fault

/-- The nodes of a path are run in a session by calls of their own as they are by a call for the
whole path. -/
theorem exists_oneByOne_path (l : Ledger) (file : String) {f : FileState} {w₀ : World}
    (path : List NodeId) : ∀ {name : String} {d : Desk} {s : Session}, s.id = name →
      d.gates.WellKept → d.gates.Free file name → f.book.get? name = none →
      l.Branched file f w₀ d.world s → ∃ answers outcome d' s',
        OneByOne l file (path.map (.execute name)) d answers outcome d' ∧
        l.runPath file name d.world path = (outcome, d'.world) ∧
        Phase.Restores d.gates d'.gates ∧ l.Branched file f w₀ d'.world s' ∧ s'.id = name ∧
        s'.executions = s.executions ++ answers.filterMap Answer.execution? ∧
        ∀ fault, outcome = .error fault → ∃ node, path[answers.length]? = some node ∧
          l.BrokeDown file d'.world s' node fault := by
  induction path with
  | nil =>
    intro name d s hid hkept _ _ h
    exact ⟨[], .ok (), d, s, .done, rfl, .refl hkept, h, hid, (List.append_nil _).symm,
      by rintro _ ⟨⟩⟩
  | cons node rest ih =>
    rintro name d s rfl hkept hgate hfree h
    obtain ⟨g, hg, hends⟩ := Phase.exists_ends_execute l file s.id node hkept hgate
    have hgate' := hg.free hgate
    rw [runPath]
    rcases l.executeNode_cases h.file? (FileState.get?_withBranch hfree) node with ⟨-, heq⟩ |
      ⟨codes, b, calls, hsteps, hrun, heq⟩ | ⟨codes, r, calls, -, -, heq⟩
    · -- the node means no code, and the session stays as it is
      rw [heq] at hends ⊢
      obtain ⟨answers, outcome, d', s', hcalls, hpath, hg', h', hid, hexecutions, hfault⟩ :=
        ih (d := ⟨d.world, g⟩) rfl hg.kept hgate' hfree h
      exact ⟨_, outcome, d', s', .answer hends hcalls, hpath, hg.trans hg', h', hid, hexecutions,
        hfault⟩
    · -- the runner breaks down, and nothing more is done
      rw [heq] at hends ⊢
      refine ⟨[], .error b.fault, _, s, .fault hends, rfl, hg, h.pass calls, rfl,
        (List.append_nil _).symm, fun fault hfault => ⟨node, rfl, codes, b, _, hsteps, hrun, ?_⟩⟩
      exact (Except.error.inj hfault).symm
    · -- one more step is recorded
      rw [heq] at hends ⊢
      obtain ⟨answers, outcome, d', s', hcalls, hpath, hg', h', hid, hexecutions, hfault⟩ :=
        ih (d := ⟨_, g⟩) (s.id_push (.ofRun node r) d.world.now) hg.kept hgate' hfree
          (h.step hfree node r calls)
      refine ⟨_, outcome, d', s', .answer hends hcalls, hpath, hg.trans hg', h', hid, ?_, hfault⟩
      rw [hexecutions, Session.push, List.append_assoc]
      rfl

/-- A session that cannot be started is refused in both ways at once, and nothing is changed. -/
theorem ends_of_refused {l : Ledger} {file name : String} {fault : Fault} {d : Desk}
    (hstart : d.world.start l file name = (.error fault, d.world)) (path : List NodeId) :
    (Phase.asked (.branch name path)).Ends l file d (.error fault) d ∧
      OneByOne l file (.start name :: path.map (.execute name)) d [] (.error fault) d := by
  have hask : (Phase.asked (.branch name path)).step? l file d =
      some (.finished (.error fault), d) := by
    simp only [Phase.step?, Phase.ask, hstart]
  have hends := Phase.ends_start l file name d
  rw [hstart] at hends
  exact ⟨.step hask .finished, .fault hends⟩

/-- A session that can be started ends up in the same world in both ways, and has the executions
that the single calls gave. -/
theorem exists_branch_oneByOne (l : Ledger) (file name : String) (path : List NodeId) {d : Desk}
    {f : FileState} (hf : d.world.workspace.file? file = some f)
    (hfree : f.book.get? name = none) (hkept : d.gates.WellKept)
    (hgate : d.gates.Free file name) :
    ∃ s answers outcome d₁ d₂,
      (Phase.asked (.branch name path)).Ends l file d
        (outcome.map fun _ => .session (some s)) d₁ ∧
      OneByOne l file (.start name :: path.map (.execute name)) d answers outcome d₂ ∧
      d₁.world = d₂.world ∧ Phase.Restores d.gates d₁.gates ∧
      Phase.Restores d.gates d₂.gates ∧ s.id = name ∧
      s.executions = answers.filterMap Answer.execution? ∧
      l.Branched file f d.world d₁.world s ∧
      ∀ fault, outcome = .error fault → ∃ k node, answers.length = k + 1 ∧
        path[k]? = some node ∧ l.BrokeDown file d₁.world s node fault := by
  obtain ⟨w, hstart, hbranched⟩ := Branched.exists_start l hf hfree
  obtain ⟨g, hg, hends⟩ := Phase.exists_ends_branch l file name path hkept hgate
  have hends₀ := Phase.ends_start l file name d
  rw [hstart] at hends₀
  have hnew : (Session.new name d.world.now).id = name := rfl
  obtain ⟨answers, outcome, d₂, s, hcalls, hpath, hg', h, hid, hexecutions, hfault⟩ :=
    exists_oneByOne_path l file path (d := ⟨w, d.gates⟩) hnew hkept hgate hfree hbranched
  have hsession : d₂.world.sessionOr file name = .ok s := by
    rw [World.sessionOr, ← hid, h.session? (hid.symm ▸ hfree)]
  have hbranch : l.branch file name path d.world = (outcome.map fun _ => s, d₂.world) := by
    simp only [branch, hstart, hpath]
    rcases outcome with fault | u
    · rfl
    · exact Prod.ext hsession rfl
  rw [hbranch] at hends
  refine ⟨s, _, outcome, ⟨d₂.world, g⟩, d₂, ?_, .answer hends₀ hcalls, rfl, hg, hg', hid,
    hexecutions, h, ?_⟩
  · rcases outcome with fault | u <;> exact hends
  · intro fault hfailed
    obtain ⟨node, hnode, hbroke⟩ := hfault fault hfailed
    exact ⟨_, node, rfl, hnode, hbroke⟩

/-- **A branch agrees with the single calls.** However both end, where the gates are well kept and
nobody is at the gate of the session, they have the same outcome and leave the same world. -/
theorem branch_agrees {l : Ledger} {file name : String} {path : List NodeId} {d d₁ d₂ : Desk}
    {result : Except Fault Answer} {answers : List Answer} {outcome : Except Fault Unit}
    (hkept : d.gates.WellKept) (hgate : d.gates.Free file name)
    (hbranch : (Phase.asked (.branch name path)).Ends l file d result d₁)
    (hcalls : OneByOne l file (.start name :: path.map (.execute name)) d answers outcome d₂) :
    result.map (fun _ => ()) = outcome ∧ d₁.world = d₂.world := by
  have hrefused : ∀ fault, d.world.start l file name = (.error fault, d.world) →
      result.map (fun _ => ()) = outcome ∧ d₁.world = d₂.world := by
    intro fault hstart
    obtain ⟨hends, hone⟩ := ends_of_refused hstart path
    obtain ⟨rfl, rfl⟩ := hbranch.unique hends
    obtain ⟨-, rfl, rfl⟩ := hcalls.unique hone
    exact ⟨rfl, rfl⟩
  rcases World.start_cases l file name d.world with ⟨-, hstart⟩ | ⟨_, -, -, hstart⟩ |
    ⟨f, hf, hfree, -⟩
  · exact hrefused _ hstart
  · exact hrefused _ hstart
  · obtain ⟨s, _, outcome, _, _, hends, hone, hworld, -⟩ :=
      exists_branch_oneByOne l file name path hf hfree hkept hgate
    obtain ⟨rfl, rfl⟩ := hbranch.unique hends
    obtain ⟨-, rfl, rfl⟩ := hcalls.unique hone
    refine ⟨?_, hworld⟩
    cases outcome <;> rfl

/-- **A branch is a start and single steps.** If the file is unknown or the name is taken, both
are refused and change nothing. Otherwise, where the gates are well kept, as they are at all times,
and nobody is at the gate of the session, both end with the same fault, if any, and leave the same
world. The new session then has the executions that the single steps gave, and is drawn and stored
as such. A fault is a breakdown of the runner at the node after those that were answered. -/
theorem branch_one_by_one (l : Ledger) (file name : String) (path : List NodeId) (d : Desk) :
    (∀ fault, (d.world.workspace.file? file = none ∧ fault = .fileNotFound file ∨
        ∃ f, d.world.workspace.file? file = some f ∧ f.book.contains name = true ∧
          fault = .duplicateSession file name) →
      (Phase.asked (.branch name path)).Ends l file d (.error fault) d ∧
      OneByOne l file (.start name :: path.map (.execute name)) d [] (.error fault) d) ∧
    ∀ f, d.world.workspace.file? file = some f → f.book.contains name = false →
      d.gates.WellKept → d.gates.Free file name →
      ∃ s answers outcome d₁ d₂,
        (Phase.asked (.branch name path)).Ends l file d
          (outcome.map fun _ => .session (some s)) d₁ ∧
        OneByOne l file (.start name :: path.map (.execute name)) d answers outcome d₂ ∧
        d₁.world = d₂.world ∧ Phase.Restores d.gates d₁.gates ∧
        Phase.Restores d.gates d₂.gates ∧ s.id = name ∧
        s.executions = answers.filterMap Answer.execution? ∧
        l.Branched file f d.world d₁.world s ∧
        (∀ (v : Workspace) (g : Graph) (b : Book) (us : List (String × Update)),
          d.world.workspace = (v.insertFile file g b).after us →
          d₁.world.workspace.stepsOf file name = s.edges) ∧
        (l.settings.persist = true → (d₁.world.store.save file name s.overall).1 = .ok () →
          d₁.world.store.Holds file name s.overall) ∧
        ∀ fault, outcome = .error fault → ∃ k node, answers.length = k + 1 ∧
          path[k]? = some node ∧ l.BrokeDown file d₁.world s node fault := by
  constructor
  · intro fault hrefused
    refine ends_of_refused ?_ path
    rcases World.start_cases l file name d.world with ⟨hf, heq⟩ | ⟨f, hf, htaken, heq⟩ |
      ⟨f, hf, hfree, heq⟩ <;> rcases hrefused with ⟨hf', rfl⟩ | ⟨f', hf', htaken', rfl⟩ <;>
      cases hf'.symm.trans hf
    · exact heq
    · exact heq
    · rw [Book.contains, hfree] at htaken'
      cases htaken'
  · intro f hf hnot hkept hgate
    have hfree : f.book.get? name = none := by simpa [Book.contains] using hnot
    obtain ⟨s, answers, outcome, d₁, d₂, hbranch, hcalls, hworld, hg, hg', hid, hexecutions, h,
      hfault⟩ := exists_branch_oneByOne l file name path hf hfree hkept hgate
    exact ⟨s, answers, outcome, d₁, d₂, hbranch, hcalls, hworld, hg, hg', hid, hexecutions, h,
      fun v g b us => hid ▸ h.stepsOf hf (hid.symm ▸ hfree) v g b us,
      fun hpersist => hid ▸ h.holds hpersist, hfault⟩

/-- A runner that is gone when one piece of code is to be run. -/
def breaking : Ledger where
  runner n code prior :=
    if code = "y" then .error (.unavailable "gone") else echoing.runner n code prior
  settings := {}

/-- A file with a node that runs, one that has no code, one that the runner breaks down at, and one
that runs the first and the last of these as one step. -/
def breakFile : FileState :=
  .load { Graph.empty with nodes := [{ Node.new "a" .fragment with code := some "x" },
    .new "b" .fragment, { Node.new "c" .fragment with code := some "y" },
    .graphRef "g" ⟨"f", "lib"⟩] } ⟨[Workspace.idleSession "lib" ["a", "c"]], some "lib"⟩

/-- The file is loaded, and nobody calls. -/
def breakDesk : Desk where
  world := { World.initial default with workspace := Workspace.empty.setFile "f" breakFile }
  gates := .empty

/-- A path with a node that is not there, one without code, and one that comes again and again. -/
def breakPath : List NodeId := ["z", "a", "b", "a", "g", "a"]

/-- Two steps are recorded before the runner breaks down within a third. -/
theorem branch_one_by_one_breakDesk :
    breakDesk.world.workspace.file? "f" = some breakFile ∧ breakFile.book.contains "s" = false ∧
      breakDesk.gates.WellKept ∧ breakDesk.gates.Free "f" "s" ∧ ∃ s answers d₁ d₂,
        (Phase.asked (.branch "s" breakPath)).Ends breaking "f" breakDesk
          (.error (.runnerUnavailable "gone")) d₁ ∧
        OneByOne breaking "f" (.start "s" :: breakPath.map (.execute "s")) breakDesk answers
          (.error (.runnerUnavailable "gone")) d₂ ∧
        d₁.world = d₂.world ∧ s.path = ["a", "a"] ∧
        breaking.Branched "f" breakFile breakDesk.world d₁.world s ∧
        d₁.world.workspace.stepsOf "f" "s" = s.edges := by
  have hf : breakDesk.world.workspace.file? "f" = some breakFile :=
    Workspace.file?_setFile_self ..
  have hnot : breakFile.book.contains "s" = false := by decide
  have hkept : breakDesk.gates.WellKept := Gates.wellKept_empty
  have hgate : breakDesk.gates.Free "f" "s" := fun _ ht => absurd ht List.not_mem_nil
  obtain ⟨s, answers, outcome, d₁, d₂, hbranch, hcalls, hworld, -, -, hid, -, h, hsteps, -, -⟩ :=
    (branch_one_by_one breaking "f" "s" breakPath breakDesk).2 breakFile hf hnot hkept hgate
  -- what the call gives and leaves can be computed
  have hgives : (breaking.branch "f" "s" breakPath breakDesk.world).1.map (fun _ => ()) =
      .error (.runnerUnavailable "gone") := by decide +kernel
  have hleaves : ((breaking.branch "f" "s" breakPath breakDesk.world).2.workspace.session?
      "f" "s").map Session.path = some ["a", "a"] := by decide +kernel
  obtain ⟨g, -, hends⟩ := Phase.exists_ends_branch breaking "f" "s" breakPath hkept hgate
  obtain ⟨hresult, rfl⟩ := hbranch.unique hends
  have hsession := h.session? (hid.symm ▸ by decide)
  rw [hid] at hsession
  rw [hsession] at hleaves
  rcases hout : (breaking.branch "f" "s" breakPath breakDesk.world).1 with fault | s' <;>
    rw [hout] at hgives hresult <;> cases hgives
  rcases outcome with fault | u <;> cases hresult
  exact ⟨hf, hnot, hkept, hgate, s, answers, _, d₂, hbranch, hcalls, hworld,
    Option.some.inj hleaves, h, hsteps _ _ _ [] rfl⟩

end Ledger

end Runbook
