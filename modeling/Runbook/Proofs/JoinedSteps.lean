import Runbook.Proofs.LiveRuns

/-!
# Many steps as one

A graph node runs the code of a whole path as one step. The runner gets one piece of code after
another, just as if each were recorded on its own; only what is kept differs. One execution is
recorded for all of them, with all their output, the time they took together and the last state. If
one of them breaks down, nothing is kept, though those before it would have been.

* `Duration.add?_eq_some_iff`: adding times
* `Ledger.Recorded`: pieces of code are run and recorded one by one
* `Ledger.Recorded.runFrom`: then they can be run as one, as long as the times can be added
* `Ledger.executeNode_as_one`: so a node with these steps gives what they give one by one
-/

namespace Runbook

/-! ## Adding times -/

namespace Duration

variable {a b c : Duration}

/-- The whole time in nanoseconds. -/
def total (d : Duration) : Nat := d.secs * nanosPerSec + d.nanos

theorem total_zero : zero.total = 0 := rfl

theorem total_lt (d : Duration) : d.total < UInt64.size * nanosPerSec := by
  have hsecs := Nat.mul_le_mul_right nanosPerSec (Nat.le_sub_one_of_lt d.secs_lt)
  have hnanos := d.nanos_lt
  simp only [total, UInt64.size, nanosPerSec] at *
  omega

theorem eq_of_total (h : a.total = b.total) : a = b := by
  obtain ⟨secs, nanos, _, hnanos⟩ := a
  obtain ⟨secs', nanos', _, hnanos'⟩ := b
  simp only [total, nanosPerSec] at h hnanos hnanos'
  obtain rfl : secs = secs' := by omega
  obtain rfl : nanos = nanos' := by omega
  rfl

/-- Times can be added exactly if there is a time for the sum. -/
theorem add?_eq_some_iff : a.add? b = some c ↔ c.total = a.total + b.total := by
  rw [add?, ofParts?]
  split
  · rename_i hfits
    have hsum : total ⟨a.secs + b.secs + (a.nanos + b.nanos) / nanosPerSec,
        (a.nanos + b.nanos) % nanosPerSec, hfits, Nat.mod_lt _ (by decide)⟩ =
          a.total + b.total := by
      simp only [total, nanosPerSec]
      omega
    constructor
    · rintro h
      cases h
      exact hsum
    · intro h
      exact congrArg some (eq_of_total (hsum.trans h.symm))
  · rename_i hlong
    refine iff_of_false (Option.some_ne_none c).symm fun h => ?_
    have hlt := c.total_lt
    simp only [total, UInt64.size, nanosPerSec] at *
    omega

theorem exists_total {n : Nat} (h : n < UInt64.size * nanosPerSec) : ∃ d : Duration, d.total = n :=
  ⟨⟨n / nanosPerSec, n % nanosPerSec, Nat.div_lt_of_lt_mul (Nat.mul_comm .. ▸ h),
    Nat.mod_lt _ (by decide)⟩, Nat.div_add_mod' n nanosPerSec⟩

theorem exists_add? (h : a.total + b.total ≤ c.total) : ∃ sum, a.add? b = some sum := by
  obtain ⟨sum, hsum⟩ := exists_total (Nat.lt_of_le_of_lt h c.total_lt)
  exact ⟨sum, add?_eq_some_iff.mpr hsum⟩

end Duration

/-! ## Running one piece of code after another -/

namespace Runner

variable {runner : Runner} {done done' : RunResult} {n n' : Nat}

/-- A single piece of code gives what the runner gives. -/
theorem runAll_singleton (runner : Runner) (code : String) (prior : Snapshot) (calls : Nat) :
    runner.runAll [code] prior calls = (runner (calls + 1) code prior, calls + 1) := by
  rw [runAll, runFrom_cons, runOne, RunResult.start]
  cases runner (calls + 1) code prior with
  | error b => rfl
  | ok r =>
    have hzero : Duration.zero.add? r.time = some r.time :=
      Duration.add?_eq_some_iff.mpr (by rw [Duration.total_zero, Nat.zero_add])
    simp only [Except.bind, RunResult.append, hzero, String.empty_append, runFrom_nil]

/-- What ran first has no part in what is run after it but for the result that it gave. -/
theorem runFrom_append (front rest : List String) : ∀ {done : RunResult} {n : Nat},
    runner.runFrom front done n = (.ok done', n') →
      runner.runFrom (front ++ rest) done n = runner.runFrom rest done' n' := by
  induction front with
  | nil =>
    intro done n h
    cases h
    rfl
  | cons code front ih =>
    intro done n h
    rw [runFrom_cons] at h
    rw [List.cons_append, runFrom_cons]
    cases hone : runner.runOne code done (n + 1) with
    | error b =>
      rw [hone] at h
      cases h
    | ok next =>
      rw [hone] at h
      exact ih h

end Runner

/-! ## What is recorded -/

theorem World.calls_persist (l : Ledger) (file session : String) (state : Snapshot) (w : World) :
    (w.persist l file session state).calls = w.calls := by
  rw [persist]
  split <;> rfl

/-- One more step of a session leaves the other sessions. -/
theorem Workspace.session?_withStep_of_ne {w : Workspace} {file session other name : String}
    {f : FileState} {s : Session} (hf : w.file? file = some f)
    (hs : f.book.get? session = some s) (e : Execution) (now : Instant)
    (hne : (other, name) ≠ (file, session)) :
    (w.setFile file (f.withStep s e now)).session? other name = w.session? other name := by
  by_cases hfile : other = file
  · subst hfile
    have hname : name ≠ s.id := by
      rintro rfl
      exact hne (congrArg (other, ·) (Book.exists_split hs).1)
    rw [session?, session?, file?_setFile_self, hf, Option.bind_some, Option.bind_some,
      FileState.withStep, Book.get?_setPrimary, Book.get?_replace_of_ne _ (s.id_push e now) hname]
  · rw [session?, session?, file?_setFile_of_ne _ _ hfile]

theorem Session.lastState_eq_getLastD {es : List Execution} (h : es ≠ []) {state : Snapshot} :
    lastState es = (es.map Execution.state).getLastD state := by
  obtain ⟨pre, e, rfl⟩ := List.eq_nil_or_concat' es |>.resolve_left h
  rw [lastState, List.getLast?_concat, List.map_append, List.map_singleton, List.getLastD_concat]

/-! ## Recording one by one -/

/-- Some executions as one of a node, which took some time. -/
def Execution.asOne (node : NodeId) (es : List Execution) (time : Duration) : Execution :=
  { node, stdout := String.join (es.map stdout), stderr := String.join (es.map stderr),
    state := Session.lastState es, time }

/-- The time that executions took together, in nanoseconds. -/
def Execution.totalTime : List Execution → Nat
  | [] => 0
  | e :: es => e.time.total + totalTime es

namespace Ledger

/-- Pieces of code are run and recorded one by one in a session, each as a step of any node. -/
inductive Recorded (l : Ledger) (file session : String) :
    World → List String → List Execution → World → Prop where
  /-- there is no more -/
  | nil {w : World} : Recorded l file session w [] [] w
  /-- one is recorded, and then the others -/
  | cons {w w₁ w₂ : World} (node : NodeId) {code : String} {codes : List String} {e : Execution}
    {es : List Execution} (hone : l.execute file session node [code] w = (.ok (some e), w₁))
    (hrest : Recorded l file session w₁ codes es w₂) :
    Recorded l file session w (code :: codes) (e :: es) w₂

variable {l : Ledger} {file session : String} {node : NodeId} {w w₁ : World} {s : Session}
  {code : String} {codes : List String} {e : Execution} {es : List Execution} {fault : Fault}

/-- What is recorded is what the runner gave on the session's state. -/
theorem execute_eq_ok (hs : w.workspace.session? file session = some s)
    (h : l.execute file session node [code] w = (.ok (some e), w₁)) :
    ∃ r, l.runner (w.calls + 1) code s.overall = .ok r ∧ e = .ofRun node r ∧
      w₁.workspace.session? file session = some (s.push e w.now) := by
  obtain ⟨f, hf, hget⟩ := Option.bind_eq_some_iff.mp hs
  rcases l.execute_cases hf hget node [code] with ⟨-, heq⟩ | ⟨b, calls, -, heq⟩ |
    ⟨r, calls, hrun, heq⟩ <;> cases heq.symm.trans h
  rw [Runner.runAll_singleton] at hrun
  refine ⟨r, congrArg Prod.fst hrun, rfl, ?_⟩
  rw [World.workspace_persist, Workspace.session?, World.withWorkspace,
    Workspace.file?_setFile_self]
  exact FileState.get?_withStep hget _ _

/-- If it fails, the runner broke down on the session's state. -/
theorem execute_eq_error (hs : w.workspace.session? file session = some s)
    (h : l.execute file session node [code] w = (.error fault, w₁)) :
    ∃ b, l.runner (w.calls + 1) code s.overall = .error b ∧ fault = b.fault := by
  obtain ⟨f, hf, hget⟩ := Option.bind_eq_some_iff.mp hs
  rcases l.execute_cases hf hget node [code] with ⟨-, heq⟩ | ⟨b, calls, hrun, heq⟩ |
    ⟨r, calls, -, heq⟩ <;> cases heq.symm.trans h
  rw [Runner.runAll_singleton] at hrun
  exact ⟨b, congrArg Prod.fst hrun, rfl⟩

/-- What is recorded one by one can be run in one go after something that left the same state, as
long as the times can be added. -/
theorem Recorded.runFrom (hsteady : l.runner.IsSteady) (h : l.Recorded file session w codes es w₁) :
    ∀ (s : Session) (done : RunResult) (n : Nat) (time : Duration),
      w.workspace.session? file session = some s → done.state = s.overall →
      time.total = done.time.total + Execution.totalTime es →
      ∃ t, w₁.workspace.session? file session = some t ∧ t.executions = s.executions ++ es ∧
        t.overall = (es.map Execution.state).getLastD s.overall ∧
        l.runner.runFrom codes done n = (.ok {
          stdout := done.stdout ++ String.join (es.map Execution.stdout)
          stderr := done.stderr ++ String.join (es.map Execution.stderr)
          state := t.overall, time }, n + codes.length) := by
  induction h with
  | nil =>
    intro s done n time hs hstate htime
    rw [Execution.totalTime, Nat.add_zero] at htime
    obtain rfl := Duration.eq_of_total htime
    refine ⟨s, hs, (List.append_nil _).symm, rfl, ?_⟩
    rw [← hstate, List.map_nil, List.map_nil, String.join_nil, String.append_empty,
      String.append_empty]
    rfl
  | @cons w _ _ node code codes e es hone _ ih =>
    intro s done n time hs hstate htime
    obtain ⟨r, hr, rfl, hs'⟩ := execute_eq_ok hs hone
    rw [Execution.totalTime, ← Nat.add_assoc] at htime
    obtain ⟨sum, hsum⟩ := Duration.exists_add? (htime ▸ Nat.le_add_right ..)
    have htotal := Duration.add?_eq_some_iff.mp hsum
    obtain ⟨t, ht, hexecutions, hoverall, hrun⟩ := ih _
      ⟨done.stdout ++ r.stdout, done.stderr ++ r.stderr, r.state, sum⟩ (n + 1) time hs' rfl
      (htime.trans (congrArg (· + _) htotal.symm))
    have hnext : l.runner.runOne code done (n + 1) =
        .ok ⟨done.stdout ++ r.stdout, done.stderr ++ r.stderr, r.state, sum⟩ := by
      rw [Runner.runOne, hstate, hsteady (n + 1) (w.calls + 1), hr]
      simp only [Except.bind, RunResult.append, Execution.ofRun] at hsum ⊢
      rw [hsum]
    refine ⟨t, ht, ?_, ?_, ?_⟩
    · rw [hexecutions, Session.push, List.append_assoc, List.singleton_append]
    · rw [hoverall, List.map_cons, List.getLastD_cons]
      rfl
    · rw [Runner.runFrom_cons, hnext]
      simp only [hrun, List.map_cons, String.join_cons, String.append_assoc, Execution.ofRun,
        List.length_cons]
      rw [Nat.add_right_comm]
      rfl

/-! ## Running as one -/

/-- What is recorded one by one can be run as one. -/
theorem Recorded.runAll (hsteady : l.runner.IsSteady) (h : l.Recorded file session w codes es w₁)
    (hs : w.workspace.session? file session = some s) {time : Duration}
    (htime : time.total = Execution.totalTime es) (n : Nat) :
    ∃ t, w₁.workspace.session? file session = some t ∧ t.executions = s.executions ++ es ∧
      t.overall = (es.map Execution.state).getLastD s.overall ∧
      l.runner.runAll codes s.overall n = (.ok {
        stdout := String.join (es.map Execution.stdout)
        stderr := String.join (es.map Execution.stderr)
        state := t.overall, time }, n + codes.length) := by
  have hsum : time.total = (RunResult.start s.overall).time.total + Execution.totalTime es := by
    rw [RunResult.start, Duration.total_zero, Nat.zero_add, htime]
  obtain ⟨t, ht, hexecutions, hlast, hrun⟩ :=
    h.runFrom hsteady s (.start s.overall) n time hs rfl hsum
  simp only [RunResult.start, String.empty_append] at hrun
  exact ⟨t, ht, hexecutions, hlast, hrun⟩

theorem Recorded.ne_nil (h : l.Recorded file session w codes es w₁) (hcodes : codes ≠ []) :
    es ≠ [] := by
  cases h with
  | nil => exact absurd rfl hcodes
  | cons => exact List.cons_ne_nil _ _

/-- What is recorded one by one can be run as one up to a piece of code that breaks down. -/
theorem Recorded.runAll_of_error (hsteady : l.runner.IsSteady)
    (h : l.Recorded file session w codes es w₁) (hs : w.workspace.session? file session = some s)
    {time : Duration} (htime : time.total = Execution.totalTime es) {t : Session}
    (ht : w₁.workspace.session? file session = some t) {b : Breakdown}
    (hfails : ∀ done n, done.state = t.overall → done.time = time →
      l.runner.runOne code done n = .error b) (rest : List String) (n : Nat) :
    l.runner.runAll (codes ++ code :: rest) s.overall n = (.error b, n + codes.length + 1) := by
  obtain ⟨t', ht', -, -, hrun⟩ := h.runAll hsteady hs htime n
  cases ht'.symm.trans ht
  rw [Runner.runAll, Runner.runFrom_append codes _ hrun, Runner.runFrom_cons, hfails _ _ rfl rfl]

/-- A node whose run breaks down leaves nothing but the count of the calls. -/
theorem executeNode_of_error (hsteps : w.workspace.steps? file node = some codes)
    (hs : w.workspace.session? file session = some s) {b : Breakdown} {calls : Nat}
    (hrun : l.runner.runAll codes s.overall w.calls = (.error b, calls)) :
    l.executeNode file session node w = (.error b.fault, { w with calls }) := by
  obtain ⟨f, hf, hget⟩ := Option.bind_eq_some_iff.mp hs
  rcases l.executeNode_cases hf hget node with ⟨hnone, -⟩ | ⟨_, b', calls', hcodes, hrun', heq⟩ |
    ⟨_, r, calls', hcodes, hrun', -⟩
  · cases hsteps.symm.trans hnone
  · cases hcodes.symm.trans hsteps
    cases hrun'.symm.trans hrun
    exact heq
  · cases hcodes.symm.trans hsteps
    cases hrun'.symm.trans hrun

/-- A node whose run goes through is recorded as one execution, and no other session changes. -/
theorem executeNode_of_ok (hsteps : w.workspace.steps? file node = some codes)
    (hs : w.workspace.session? file session = some s) {r : RunResult} {calls : Nat}
    (hrun : l.runner.runAll codes s.overall w.calls = (.ok r, calls)) :
    ∃ w₂, l.executeNode file session node w = (.ok (some (.ofRun node r)), w₂) ∧
      w₂.workspace.session? file session = some (s.push (.ofRun node r) w.now) ∧
      (∀ other name, (other, name) ≠ (file, session) →
        w₂.workspace.session? other name = w.workspace.session? other name) ∧
      w₂.calls = calls := by
  obtain ⟨f, hf, hget⟩ := Option.bind_eq_some_iff.mp hs
  rcases l.executeNode_cases hf hget node with ⟨hnone, -⟩ | ⟨_, b, calls', hcodes, hrun', -⟩ |
    ⟨_, r', calls', hcodes, hrun', heq⟩
  · cases hsteps.symm.trans hnone
  · cases hcodes.symm.trans hsteps
    cases hrun'.symm.trans hrun
  · cases hcodes.symm.trans hsteps
    cases hrun'.symm.trans hrun
    refine ⟨_, heq, ?_, ?_, World.calls_persist ..⟩
    · rw [World.workspace_persist, World.withWorkspace, Workspace.session?,
        Workspace.file?_setFile_self]
      exact FileState.get?_withStep hget _ _
    · intro other name hne
      rw [World.workspace_persist, World.withWorkspace]
      exact Workspace.session?_withStep_of_ne hf hget _ _ hne

/-- **A node is its steps as one.** Take a node that means some pieces of code, and a runner for
which it makes no difference how often it was called. If each piece is run and recorded on its own,
one after another from the session's state on, and their times can be added, then running the node
records one execution in place of them, with all their output, their time and the last of their
states. If the runner breaks down at one of them, so does the node: it runs no later one and records
nothing. The same goes for times that cannot be added. -/
theorem executeNode_as_one (l : Ledger) (hsteady : l.runner.IsSteady) (file session : String)
    (node : NodeId) (w : World) (codes : List String) (s : Session)
    (hsteps : w.workspace.steps? file node = some codes)
    (hs : w.workspace.session? file session = some s) :
    (∀ es w₁ (time : Duration), l.Recorded file session w codes es w₁ →
      time.total = Execution.totalTime es →
      ∃ t w₂, l.executeNode file session node w = (.ok (some (.asOne node es time)), w₂) ∧
        w₂.workspace.session? file session = some (s.push (.asOne node es time) w.now) ∧
        (∀ other name, (other, name) ≠ (file, session) →
          w₂.workspace.session? other name = w.workspace.session? other name) ∧
        w₂.calls = w.calls + codes.length ∧
        w₁.workspace.session? file session = some t ∧ t.executions = s.executions ++ es ∧
        t.overall = Session.lastState es) ∧
    (∀ front code rest es w₁ w₂ (time : Duration) node' fault,
      codes = front ++ code :: rest →
      l.Recorded file session w front es w₁ → time.total = Execution.totalTime es →
      l.execute file session node' [code] w₁ = (.error fault, w₂) →
      l.executeNode file session node w =
        (.error fault, { w with calls := w.calls + front.length + 1 })) ∧
    ∀ front code rest es w₁ w₂ (time : Duration) node' e,
      codes = front ++ code :: rest →
      l.Recorded file session w front es w₁ → time.total = Execution.totalTime es →
      l.execute file session node' [code] w₁ = (.ok (some e), w₂) →
      (∀ sum : Duration, sum.total ≠ time.total + e.time.total) →
      l.executeNode file session node w =
        (.error .brokenTask, { w with calls := w.calls + front.length + 1 }) := by
  refine ⟨?_, ?_, ?_⟩
  · intro es w₁ time h htime
    obtain ⟨t, ht, hexecutions, hlast, hrun⟩ := h.runAll hsteady hs htime w.calls
    have hstate : t.overall = Session.lastState es := by
      rw [hlast, Session.lastState_eq_getLastD (h.ne_nil (Workspace.ne_nil_of_steps? hsteps))]
    rw [hstate] at hrun
    obtain ⟨w₂, hnode, hsession, hothers, hcalls⟩ := executeNode_of_ok hsteps hs hrun
    exact ⟨t, w₂, hnode, hsession, hothers, hcalls, ht, hexecutions, hstate⟩
  · rintro front code rest es w₁ w₂ time node' fault rfl h htime hfault
    obtain ⟨t, ht, -, -, -⟩ := h.runAll hsteady hs htime w.calls
    obtain ⟨b, hb, rfl⟩ := execute_eq_error ht hfault
    have hfails : ∀ done n, done.state = t.overall → done.time = time →
        l.runner.runOne code done n = .error b := by
      intro done n hstate _
      rw [Runner.runOne, hstate, hsteady n (w₁.calls + 1), hb]
      rfl
    exact executeNode_of_error hsteps hs (h.runAll_of_error hsteady hs htime ht hfails rest w.calls)
  · rintro front code rest es w₁ w₂ time node' e rfl h htime hone hlong
    obtain ⟨t, ht, -, -, -⟩ := h.runAll hsteady hs htime w.calls
    obtain ⟨r, hr, rfl, -⟩ := execute_eq_ok ht hone
    have hnone : time.add? r.time = none :=
      Option.eq_none_iff_forall_ne_some.mpr fun sum hsum =>
        hlong sum (Duration.add?_eq_some_iff.mp hsum)
    have hfails : ∀ done n, done.state = t.overall → done.time = time →
        l.runner.runOne code done n = .error .crashed := by
      intro done n hstate hdone
      rw [Runner.runOne, hstate, hsteady n (w₁.calls + 1), hr]
      simp only [Except.bind, RunResult.append, hdone, hnone]
    exact executeNode_of_error hsteps hs (h.runAll_of_error hsteady hs htime ht hfails rest w.calls)

/-- As many seconds as there can be. -/
def ages : Duration := ⟨0xffffffffffffffff, 0, by decide, Duration.zero.nanos_lt⟩

/-- A runner that repeats the code, remembers it, and takes its time: a little for most code, and
ages for `"z"`. It breaks down at `"y"`. -/
def timed : Ledger where
  runner _ code prior :=
    if code = "y" then .error (.unavailable "gone")
    else .ok {
      stdout := code, stderr := "", state := prior.insert code .null trivial
      time := if code = "z" then ages else .milli }
  settings := {}

/-- A session was started, next to three that nodes refer to. -/
def hub : World :=
  (World.start timed "f" "s" { World.initial default with
    workspace := Workspace.empty.insertFile "f"
      { Graph.empty with nodes := [{ Node.new "a" .fragment with code := some "x" },
        { Node.new "b" .fragment with code := some "y" },
        { Node.new "c" .fragment with code := some "z" },
        .graphRef "g" ⟨"f", "fine"⟩, .graphRef "h" ⟨"f", "odd"⟩, .graphRef "i" ⟨"f", "long"⟩] }
      ⟨[Workspace.idleSession "fine" ["a", "c", "a"], Workspace.idleSession "odd" ["a", "b", "c"],
        Workspace.idleSession "long" ["c", "c", "a"]], none⟩ }).2

/-- One node runs through, one breaks down at its second step, and one takes too long. -/
theorem executeNode_as_one_hub :
    timed.runner.IsSteady ∧ hub.workspace.steps? "f" "g" = some ["x", "z", "x"] ∧
      hub.workspace.steps? "f" "h" = some ["x", "y", "z"] ∧
      hub.workspace.steps? "f" "i" = some ["z", "z", "x"] ∧
      ∃ es w₁ time s w₂, timed.Recorded "f" "s" hub ["x", "z", "x"] es w₁ ∧
        time.total = Execution.totalTime es ∧
        timed.executeNode "f" "s" "g" hub = (.ok (some (.asOne "g" es time)), w₂) ∧
        (Execution.asOne "g" es time).stdout = "xzx" ∧
        w₂.workspace.session? "f" "s" = some s ∧ s.executions = [.asOne "g" es time] ∧
        timed.executeNode "f" "s" "h" hub =
          (.error (.runnerUnavailable "gone"), { hub with calls := 2 }) ∧
        timed.executeNode "f" "s" "i" hub = (.error .brokenTask, { hub with calls := 2 }) := by
  have hsteady : timed.runner.IsSteady := fun _ _ => rfl
  have hfine : hub.workspace.steps? "f" "g" = some ["x", "z", "x"] := by decide +kernel
  have hodd : hub.workspace.steps? "f" "h" = some ["x", "y", "z"] := by decide +kernel
  have hlong : hub.workspace.steps? "f" "i" = some ["z", "z", "x"] := by decide +kernel
  have hs : hub.workspace.session? "f" "s" = some (.new "s" (Clock.now ⟨0⟩)) := rfl
  obtain ⟨es, w₁, h, htime, hstdout⟩ : ∃ es w₁,
      timed.Recorded "f" "s" hub ["x", "z", "x"] es w₁ ∧
        Duration.total ⟨ages.secs, 2000000, ages.secs_lt, by decide⟩ = Execution.totalTime es ∧
        String.join (es.map Execution.stdout) = "xzx" :=
    ⟨_, _, .cons "a" rfl (.cons "c" rfl (.cons "a" rfl .nil)), by decide +kernel, rfl⟩
  obtain ⟨t, w₂, hnode, hsession, -⟩ :=
    (executeNode_as_one timed hsteady "f" "s" "g" hub _ _ hfine hs).1 es w₁ _ h htime
  have hfails := (executeNode_as_one timed hsteady "f" "s" "h" hub _ _ hodd hs).2.1
    ["x"] "y" ["z"] _ _ _ .milli "b" _ rfl (.cons "a" rfl .nil) rfl rfl
  have hages : ∀ sum : Duration, sum.total ≠ ages.total + ages.total := by
    intro sum hsum
    have hlt := sum.total_lt
    rw [hsum] at hlt
    exact absurd hlt (by decide)
  have hcrashes := (executeNode_as_one timed hsteady "f" "s" "i" hub _ _ hlong hs).2.2
    ["z"] "z" ["x"] _ _ _ ages "c" _ rfl (.cons "c" rfl .nil) (by decide +kernel) rfl hages
  exact ⟨hsteady, hfine, hodd, hlong, es, w₁, _, _, w₂, h, htime, hnode, hstdout, hsession, rfl,
    hfails, hcrashes⟩

end Ledger

end Runbook
