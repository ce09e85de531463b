import Runbook.Store.Archive

/-!
# Stores

Where the latest state of every session is kept between steps.

* `Store`: in memory, on disk, or out of order
* `Store.save`, `Store.load`, `Store.remove`: what every store can do
* `Store.loadOrEmpty`: a state no matter what
-/

namespace Runbook

/-- Where states are kept. -/
inductive Store where
  /-- in memory -/
  | memory (m : MemoryStore)
  /-- in an archive on a disk -/
  | disk (a : Archive) (d : Disk)
  /-- a store that refuses everything -/
  | broken (fault : Fault)

namespace Store

instance : Inhabited Store := ⟨memory .empty⟩

/-- Does some work on a disk and keeps what it did, refused or not. -/
def onDisk (a : Archive) (d : Disk) (work : OnDisk Unit) : Except Fault Unit × Store :=
  let (outcome, d) := work.run.run d
  (outcome, disk a d)

/-- Stores the state of a session. -/
def save (st : Store) (file session : String) (state : Snapshot) : Except Fault Unit × Store :=
  match st with
  | memory m => (.ok (), memory (m.save file session state))
  | disk a d => onDisk a d (a.saveState file session state)
  | broken fault => (.error fault, st)

/-- The state stored for a session. -/
def load (st : Store) (file session : String) : Except Fault (Option Snapshot) :=
  match st with
  | memory m => m.load file session
  | disk a d => a.loadState file session d
  | broken fault => .error fault

/-- Forgets what is stored for a session. -/
def remove (st : Store) (file session : String) : Except Fault Unit × Store :=
  match st with
  | memory m => (.ok (), memory (m.remove file session))
  | disk a d => onDisk a d (a.removeSession file session)
  | broken fault => (.error fault, st)

/-- The state stored for a session; the empty one if there is none or it cannot be had. -/
def loadOrEmpty (st : Store) (file session : String) : Snapshot :=
  match st.load file session with
  | .ok (some state) => state
  | _ => .empty

end Store

end Runbook
