import Runbook.Snapshot
import Runbook.Fault

/-!
# States in memory

The latest state of every session, kept as text.

* `MemoryStore`: texts by file and session
* `MemoryStore.load`, `MemoryStore.save`, `MemoryStore.remove`: states through their texts
-/

namespace Runbook

/-- Texts by file and session. -/
structure MemoryStore where
  /-- the texts, at most one for each file and session -/
  entries : List ((String × String) × String)
  deriving DecidableEq, Repr

/-- The snapshot in a session's stored text. -/
def Snapshot.parse (session text : String) : Except Fault Snapshot :=
  match Snapshot.parse? text with
  | some s => .ok s
  | none => .error (.malformedState session)

namespace MemoryStore

/-- The store with nothing in it. -/
def empty : MemoryStore := ⟨[]⟩

instance : Inhabited MemoryStore := ⟨empty⟩

/-- The text stored for a session. -/
def text? (m : MemoryStore) (file session : String) : Option String :=
  (m.entries.find? fun e => e.1 = (file, session)).map Prod.snd

/-- The store with nothing stored for a session. -/
def remove (m : MemoryStore) (file session : String) : MemoryStore :=
  ⟨m.entries.filter fun e => e.1 ≠ (file, session)⟩

/-- The store with a text stored for a session, whatever it says. -/
def putText (m : MemoryStore) (file session text : String) : MemoryStore :=
  ⟨((file, session), text) :: (m.remove file session).entries⟩

/-- The store with a state stored for a session. -/
def save (m : MemoryStore) (file session : String) (state : Snapshot) : MemoryStore :=
  m.putText file session state.compact

/-- The state stored for a session. -/
def load (m : MemoryStore) (file session : String) : Except Fault (Option Snapshot) :=
  match m.text? file session with
  | some text => (Snapshot.parse session text).map some
  | none => .ok none

/-- The number of sessions that something is stored for. -/
def size (m : MemoryStore) : Nat := m.entries.length

theorem text?_putText_self (m : MemoryStore) (file session text : String) :
    (m.putText file session text).text? file session = some text := by
  simp [text?, putText]

theorem text?_remove_self (m : MemoryStore) (file session : String) :
    (m.remove file session).text? file session = none := by
  simp [text?, remove, List.find?_filter]

theorem text?_remove_of_ne (m : MemoryStore) {file session file' session' : String}
    (h : (file', session') ≠ (file, session)) :
    (m.remove file session).text? file' session' = m.text? file' session' := by
  simp only [text?, remove, List.find?_filter]
  congr 2
  funext e
  by_cases he : e.1 = (file', session')
  · simp [he, h]
  · simp [he]

theorem text?_putText_of_ne (m : MemoryStore) {file session file' session' : String}
    (text : String) (h : (file', session') ≠ (file, session)) :
    (m.putText file session text).text? file' session' = m.text? file' session' := by
  rw [← text?_remove_of_ne m h]
  simp only [text?, putText]
  rw [List.find?_cons_of_neg (by simpa only [decide_eq_true_eq] using fun h' => h (Eq.symm h'))]

end MemoryStore

end Runbook
