import Runbook.Ledger.World
import Runbook.Proofs.Updates

/-!
# What changes do to the workspace and the store

Each change of a world is one update of its workspace, and then what is stored for one session.

* `World.workspace_start`, `World.workspace_commit`, …: the updates
* `World.store_persist`: what is stored
* `World.mem_touching`: the sessions that ran a node
-/

namespace Runbook

namespace World

/-! ## Workspaces -/

@[simp] theorem workspace_persist (w : World) (l : Ledger) (file session : String)
    (state : Snapshot) : (w.persist l file session state).workspace = w.workspace := by
  rw [persist]
  split <;> rfl

theorem workspace_start (l : Ledger) (file name : String) (w : World) :
    (w.start l file name).2.workspace = (Update.start name w.now).apply file w.workspace := by
  rw [start, Update.apply]
  cases w.workspace.startSession file name w.now with
  | ok p => exact workspace_persist ..
  | error fault => rfl

theorem workspace_commit (l : Ledger) (file session : String) (node : NodeId) (r : RunResult)
    (w : World) : (w.commit l file session node r).2.workspace =
      (Update.commit session node r w.now).apply file w.workspace := by
  rw [commit, Update.apply]
  cases w.workspace.commit? file session node r w.now with
  | some p => exact workspace_persist ..
  | none => rfl

theorem workspace_commitReplay (l : Ledger) (file : String) (scratch : Session) (w : World) :
    (w.commitReplay l file scratch).2.workspace =
      (Update.commitReplay scratch).apply file w.workspace := by
  rw [commitReplay, Update.apply]
  cases w.workspace.commitReplay? file scratch with
  | some workspace => exact workspace_persist ..
  | none => rfl

theorem workspace_removeEdge (file : String) (id : EdgeId) (w : World) :
    (w.removeEdge file id).2.workspace = (Update.removeEdge id w.now).apply file w.workspace := rfl

theorem workspace_removeNode (file : String) (node : NodeId) (w : World) :
    (w.removeNode file node).2.workspace =
      (Update.removeNode node w.now).apply file w.workspace := rfl

theorem workspace_removeSession (file name : String) (w : World) :
    (w.removeSession file name).2.workspace =
      (Update.removeSession name).apply file w.workspace := by
  rw [removeSession, Update.apply]
  cases w.workspace.removeSession? file name with
  | some p => rfl
  | none => rfl

theorem workspace_persistSession (l : Ledger) (file name : String) (w : World) :
    (w.persistSession l file name).workspace = w.workspace := by
  rw [persistSession]
  split
  · exact workspace_persist ..
  · rfl

/-! ## Stores -/

theorem store_persist (l : Ledger) (file session : String) (state : Snapshot) (w : World) :
    (w.persist l file session state).store =
      if l.settings.persist then (w.store.save file session state).2 else w.store := by
  rw [persist]
  split <;> rfl

/-! ## Looks -/

theorem mem_touching {w : World} {file : String} {f : FileState} {node : NodeId} {name : String}
    (hf : w.workspace.file? file = some f) :
    name ∈ w.touching file node ↔ name ∈ f.book.touching node := by
  rw [touching, hf, List.mem_mergeSort]

end World

end Runbook
