/-!
# Gates

Calls on one session take turns. Every session with a holder or a waiter has one gate; who arrives
at it first passes first.

* `Turn`: a place at a gate, waited for or held
* `Gates.arrive`, `Gates.release`: taking a place at the end of the line, giving it up
* `Gates.isGranted`: whether a place is at the head of its line
* `Gates.prune`: forgets the gates nobody is at
-/

namespace Runbook

/-- A place at the gate of a session. -/
structure Turn where
  /-- tells this place from all others -/
  serial : Nat
  /-- the file of the session -/
  file : String
  /-- the session -/
  session : String
  /-- the gate -/
  gate : Nat
  deriving DecidableEq, Repr

/-- The gates of all sessions, and who is at them. -/
structure Gates where
  /-- which gate stands for which file and session -/
  table : List ((String × String) × Nat)
  /-- every place that was taken and not given up, in order of arrival -/
  turns : List Turn
  /-- the next gate to be made -/
  nextGate : Nat
  /-- the serial of the next place -/
  nextSerial : Nat

namespace Gates

/-- No gates yet. -/
def empty : Gates := { table := [], turns := [], nextGate := 0, nextSerial := 0 }

instance : Inhabited Gates := ⟨empty⟩

/-- The gate that stands for a session. -/
def gate? (g : Gates) (file session : String) : Option Nat :=
  (g.table.find? fun entry => entry.1 = (file, session)).map Prod.snd

/-- How many places at a gate are taken. -/
def refs (g : Gates) (gate : Nat) : Nat := g.turns.countP fun t => t.gate = gate

/-- The line at a gate, its head first. -/
def line (g : Gates) (gate : Nat) : List Turn := g.turns.filter fun t => t.gate = gate

/-- Forgets the gates nobody is at. -/
def prune (g : Gates) : Gates :=
  { g with table := g.table.filter fun entry => 0 < g.refs entry.2 }

/-- The gates with one more, which stands for a session. -/
def addGate (g : Gates) (file session : String) : Gates :=
  { g with table := g.table ++ [((file, session), g.nextGate)], nextGate := g.nextGate + 1 }

/-- Takes a place at the end of a gate's line. -/
def join (g : Gates) (file session : String) (gate : Nat) : Turn × Gates :=
  let turn : Turn := { serial := g.nextSerial, file, session, gate }
  (turn, { g with turns := g.turns ++ [turn], nextSerial := g.nextSerial + 1 })

/-- Takes a place at the end of a session's line, after a `prune`. The gate is made if there is
none. -/
def arrive (g : Gates) (file session : String) : Turn × Gates :=
  let g := g.prune
  match g.gate? file session with
  | some gate => g.join file session gate
  | none => (g.addGate file session).join file session g.nextGate

/-- Gives up a place, held or still waited for. -/
def release (g : Gates) (t : Turn) : Gates :=
  { g with turns := g.turns.filter fun u => u.serial ≠ t.serial }

/-- Gives up several places, one after another. -/
def releaseAll (g : Gates) (ts : List Turn) : Gates := ts.foldl release g

/-- Whether a place is at the head of its line, so that its session's turn is its own. -/
def isGranted (g : Gates) (t : Turn) : Bool :=
  match (g.line t.gate).head? with
  | some u => u.serial = t.serial
  | none => false

end Gates

end Runbook
