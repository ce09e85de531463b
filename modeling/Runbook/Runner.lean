import Runbook.Session
import Runbook.Fault

/-!
# Runners

A runner executes code on top of a prior state. Code that fails is no breakdown of the runner;
what it complains about is part of the result.

* `Runner`: any function of the number of the call, the code and the prior state
* `Runner.runAll`: several pieces of code as one run, each on the state the one before it left
-/

namespace Runbook

/-- Why a runner gave no result. -/
inductive Breakdown where
  /-- it could not be reached -/
  | unavailable (message : String)
  /-- it crashed -/
  | crashed
  deriving DecidableEq, Repr

/-- The fault that a breakdown is to whoever asked for the run. -/
def Breakdown.fault : Breakdown → Fault
  | unavailable message => .runnerUnavailable message
  | crashed => .brokenTask

/-- What a runner does, by the number of the call counted from one, the code, and the prior
state. -/
abbrev Runner := Nat → String → Snapshot → Except Breakdown RunResult

namespace RunResult

/-- Nothing run yet. -/
def start (prior : Snapshot) : RunResult :=
  { stdout := "", stderr := "", state := prior, time := .zero }

/-- A run after which another one followed. What they print and complain is joined and their
times are added; a time that is too long crashes. -/
def append (a b : RunResult) : Except Breakdown RunResult :=
  match a.time.add? b.time with
  | some time => .ok {
      stdout := a.stdout ++ b.stdout, stderr := a.stderr ++ b.stderr, state := b.state, time }
  | none => .error .crashed

end RunResult

namespace Runner

/-- Runs one more piece of code after `done`, as the call of this number. -/
def runOne (runner : Runner) (code : String) (done : RunResult) (number : Nat) :
    Except Breakdown RunResult :=
  (runner number code done.state).bind done.append

/-- Runs pieces of code after `done`, up to the first breakdown. Also gives the number of calls
made so far. -/
def runFrom (runner : Runner) : List String → RunResult → Nat → Except Breakdown RunResult × Nat
  | [], done, calls => (.ok done, calls)
  | code :: rest, done, calls =>
    match runner.runOne code done (calls + 1) with
    | .ok done => runFrom runner rest done (calls + 1)
    | .error b => (.error b, calls + 1)

/-- Runs pieces of code as one. -/
def runAll (runner : Runner) (codes : List String) (prior : Snapshot) (calls : Nat) :
    Except Breakdown RunResult × Nat :=
  runner.runFrom codes (.start prior) calls

@[simp] theorem runFrom_nil (runner : Runner) (done : RunResult) (calls : Nat) :
    runner.runFrom [] done calls = (.ok done, calls) := rfl

theorem runFrom_cons (runner : Runner) (code : String) (rest : List String) (done : RunResult)
    (calls : Nat) : runner.runFrom (code :: rest) done calls =
      match runner.runOne code done (calls + 1) with
      | .ok done => runner.runFrom rest done (calls + 1)
      | .error b => (.error b, calls + 1) := rfl

end Runner

end Runbook
