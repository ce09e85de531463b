import Runbook.Ledger.Traffic

/-!
# Pools

Many calls run by one hand: the call at the head of a line goes on until it has to wait, and those
it lets through a gate line up behind the others. A call lines up anew when its task begins and
when it is over, so calls that were there before have a go in between.

* `Pool.ask`: a new call at the end of the line
* `Pool.next?`: the next step of the pool, if any call can go on
* `Pool.keep`, `Pool.letGo`: keeps a call waiting for the runner, as one that takes long does
-/

namespace Runbook

namespace Ledger

/-- Calls that are run by one hand. -/
structure Pool where
  /-- the calls -/
  traffic : Traffic
  /-- which of them go on, in this order -/
  ready : List Nat
  /-- the call that is kept waiting for the runner, and how often the runner answers it before -/
  kept : Option (Nat × Nat)

namespace Pool

/-- A pool without calls. -/
def of (desk : Desk) : Pool := { traffic := .of desk, ready := [], kept := none }

instance : Inhabited Pool := ⟨of default⟩

/-- What the calls read and change. -/
def world (p : Pool) : World := p.traffic.desk.world

/-- The pool in another world. -/
def withWorld (p : Pool) (world : World) : Pool :=
  { p with traffic := { p.traffic with desk := { p.traffic.desk with world } } }

/-- How many calls were started. -/
def size (p : Pool) : Nat := p.traffic.calls.length

/-- What a call gave. -/
def result? (p : Pool) (i : Nat) : Option (Except Fault Answer) := p.traffic.result? i

/-- Starts a call, which lines up behind the others; its number is the count of those before. -/
def ask (p : Pool) (file : String) (request : Request) : Pool :=
  { p with traffic := p.traffic.ask file request, ready := p.ready ++ [p.size] }

/-- Whether a call waits for the runner. -/
def isCalling (p : Pool) (i : Nat) : Bool := (p.traffic.phase? i).any Phase.isCalling

/-- Whether a call is kept where it stands. -/
def isKept (p : Pool) (i : Nat) : Bool := p.kept == some (i, 0) && p.isCalling i

/-- The call that is kept, after a step of call `i`: the runner answers it once less if it just
did. -/
def keptAfter (p : Pool) (i : Nat) : Option (Nat × Nat) :=
  p.kept.map fun (k, left) => if k = i && p.isCalling i then (k, left - 1) else (k, left)

/-- The calls that come to the head of a gate's line, for each place that was given up. -/
def woken (before after : Traffic) : List Nat :=
  let given := before.desk.gates.turns.filter fun t => !after.desk.gates.turns.contains t
  given.filterMap fun t =>
    (after.desk.gates.line t.gate).head?.bind fun first =>
      after.calls.findIdx? fun c => c.phase.awaited? == some first

/-- Those who go on after a step of call `i`, with `rest` in line behind it. -/
def lineUp (before after : Traffic) (i : Nat) (rest : List Nat) : List Nat :=
  let woken := woken before after
  if (after.phase? i).any Phase.isOver then rest ++ woken
  else if (before.phase? i).any Phase.isWorking = (after.phase? i).any Phase.isWorking then
    i :: rest ++ woken
  else rest ++ woken ++ [i]

/-- The next step of the pool: a step of the call at the head of the line, or its leaving the line
if it can take none. -/
def next? (l : Ledger) (p : Pool) : Option Pool :=
  match p.ready with
  | [] => none
  | i :: rest =>
    match if p.isKept i then none else p.traffic.step? l i with
    | none => some { p with ready := rest }
    | some traffic =>
      some { traffic, ready := lineUp p.traffic traffic i rest, kept := p.keptAfter i }

/-- Keeps a call waiting for the runner, after this has answered it `before` times. -/
def keep (p : Pool) (i before : Nat) : Pool := { p with kept := some (i, before) }

/-- Lets the call that was kept go on. -/
def letGo (p : Pool) : Pool :=
  match p.kept with
  | some (i, _) => { p with kept := none, ready := p.ready ++ [i] }
  | none => p

/-- The caller of a call goes away. -/
def abandon (p : Pool) (i : Nat) : Pool :=
  let traffic := p.traffic.abandon i
  { p with traffic, ready := p.ready ++ woken p.traffic traffic }

end Pool

end Ledger

end Runbook
