import Runbook.Ledger.Call

/-!
# Calls under way together

Any number of calls at one desk. Which of them takes the next step is not laid down here: a run of
the traffic is any sequence of events.

* `Ledger.Traffic`: the calls and what they share
* `Ledger.Traffic.ask`, `Ledger.Traffic.step?`, `Ledger.Traffic.abandon`: a new call, the next step
  of a call, and a caller that goes away
* `Ledger.Traffic.isOver`: every call has its answer, or nobody who waits for it
-/

namespace Runbook

namespace Ledger

/-- Calls under way together. -/
structure Traffic where
  /-- what they share -/
  desk : Desk
  /-- all calls, the oldest first -/
  calls : List Call

namespace Traffic

/-- A desk without calls. -/
def of (desk : Desk) : Traffic := ⟨desk, []⟩

instance : Inhabited Traffic := ⟨of default⟩

/-- Where a call stands. -/
def phase? (t : Traffic) (i : Nat) : Option Phase := t.calls[i]?.map Call.phase

/-- What a call gave. -/
def result? (t : Traffic) (i : Nat) : Option (Except Fault Answer) :=
  (t.phase? i).bind Phase.result?

/-- A new call; its number is the count of those before. -/
def ask (t : Traffic) (file : String) (request : Request) : Traffic :=
  { t with calls := t.calls ++ [.of file request] }

/-- The next step of a call. There is none while it waits and when it is over. -/
def step? (l : Ledger) (i : Nat) (t : Traffic) : Option Traffic :=
  t.calls[i]?.bind fun c => (c.step? l t.desk).map fun (c, desk) => ⟨desk, t.calls.set i c⟩

/-- The caller of a call goes away. -/
def abandon (t : Traffic) (i : Nat) : Traffic :=
  match t.calls[i]? with
  | some c =>
    let (phase, gates) := c.phase.abandon t.desk.gates
    ⟨{ t.desk with gates }, t.calls.set i { c with phase }⟩
  | none => t

/-- Whether every call is over. -/
def isOver (t : Traffic) : Bool := t.calls.all fun c => c.phase.isOver

end Traffic

end Ledger

end Runbook
