import Runbook.Text.Quoted
import Runbook.Edge

/-!
# Faults

What can go wrong, and the words for it. Code that fails when it runs is not a fault: what it
complains about is part of its record.
-/

namespace Runbook

/-- A reason why a call gave nothing. -/
inductive Fault where
  /-- the file has a session of this name -/
  | duplicateSession (file session : String)
  /-- there is no edge of this name -/
  | unknownEdge (edge : EdgeId)
  /-- no file is loaded under this name -/
  | fileNotFound (file : String)
  /-- the file has no session of this name -/
  | sessionNotFound (file session : String)
  /-- the runner cannot be reached -/
  | runnerUnavailable (message : String)
  /-- the stored state of the session is no snapshot -/
  | malformedState (session : String)
  /-- the task that ran the code broke down -/
  | brokenTask
  /-- a stored text is not what it should be -/
  | malformedText
  /-- the disk refused -/
  | disk
  /-- a setting is wrong -/
  | setting (message : String)
  deriving DecidableEq, Repr

namespace Fault

/-- Whether people should see the fault, and not only the log. -/
def isUserFacing : Fault → Bool
  | duplicateSession .. | runnerUnavailable .. => true
  | _ => false

/-- The words for the fault, as far as this library chooses them. -/
def message? : Fault → Option String
  | duplicateSession file session =>
    some ("session " ++ Text.quoted session ++ " already exists for " ++ file)
  | unknownEdge edge => some ("unknown edge: " ++ edge)
  | fileNotFound file => some ("file not loaded: " ++ file)
  | sessionNotFound file session =>
    some ("session " ++ Text.quoted session ++ " not found for " ++ file)
  | runnerUnavailable message => some ("execution runner unavailable: " ++ message)
  | malformedState session =>
    some ("malformed state snapshot for session " ++ Text.quoted session)
  | setting message => some ("configuration error: " ++ message)
  | brokenTask | malformedText | disk => none

end Fault

end Runbook
