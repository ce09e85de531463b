import Runbook.Fault
import Runbook.Json.Record
import Runbook.Json.Reader
import Runbook.Json.Printer
import Runbook.Text.Blank

/-!
# Settings

How sessions are kept: where, whether at all, and whether a session is run again after a step
was taken out of it.

* `Settings`: the three settings and their defaults
* `Settings.get?`, `Settings.set`: one setting by its key
* `Settings.withEnvironment`, `Settings.ofText`, `Settings.load`: settings from elsewhere
-/

namespace Runbook

/-- How sessions are kept. -/
structure Settings where
  /-- the folder for sessions, seen from the project's top folder -/
  sessionsDir : String := ".sessions"
  /-- whether every session's state is stored after each step -/
  persist : Bool := true
  /-- whether a session is run again after a step was taken out of it -/
  replayOnRemoval : Bool := false
  deriving DecidableEq, Inhabited, Repr

namespace Settings

/-- The settings no one has changed. -/
def standard : Settings := {}

/-- A setting as text. -/
def get? (s : Settings) (key : String) : Option String :=
  match key with
  | "sessions_dir" => some s.sessionsDir
  | "persist" => some (toString s.persist)
  | "replay_on_removal" => some (toString s.replayOnRemoval)
  | _ => none

/-- The truth value that a text stands for, whatever blanks are around it and whatever the case
of its letters. -/
def flag (key value : String) : Except Fault Bool :=
  let word := String.ofList ((Text.trim value.toList).map Char.toLower)
  if ["1", "true", "yes", "on"].contains word then .ok true
  else if ["0", "false", "no", "off"].contains word then .ok false
  else .error (.setting ("Invalid boolean for " ++ key ++ ": " ++ value))

/-- The settings with one of them changed. -/
def set (s : Settings) (key value : String) : Except Fault Settings :=
  match key with
  | "sessions_dir" =>
    if (Text.trim value.toList).isEmpty then .error (.setting "sessions_dir must not be empty")
    else .ok { s with sessionsDir := value }
  | "persist" => (flag key value).map fun b => { s with persist := b }
  | "replay_on_removal" => (flag key value).map fun b => { s with replayOnRemoval := b }
  | _ => .error (.setting ("Unknown config key: " ++ key))

/-- What the environment says about settings. -/
structure Environment where
  /-- the folder for sessions -/
  sessionsDir : Option String
  /-- whether states are stored -/
  persist : Option String

/-- The settings with those changed that the environment speaks of. -/
def withEnvironment (s : Settings) (env : Environment) : Except Fault Settings := do
  let s ← match env.sessionsDir with
    | some dir => s.set "sessions_dir" dir
    | none => .ok s
  match env.persist with
  | some value => s.set "persist" value
  | none => .ok s

/-- The settings that a document holds. -/
def ofDocument? (doc : Document) : Option Settings := do
  match ← doc.record? ["sessions_dir", "persist", "replay_on_removal"] with
  | [sessionsDir, persist, replayOnRemoval] =>
    return {
      sessionsDir := ← Document.defaulted? standard.sessionsDir Document.str? sessionsDir
      persist := ← Document.defaulted? standard.persist Document.bool? persist
      replayOnRemoval :=
        ← Document.defaulted? standard.replayOnRemoval Document.bool? replayOnRemoval }
  | _ => none

/-- The settings as a value. -/
def toJson (s : Settings) : Json := .obj [
  ("sessions_dir", .str s.sessionsDir), ("persist", .bool s.persist),
  ("replay_on_removal", .bool s.replayOnRemoval)]

/-- The settings in the text of a file, which may be missing. -/
def ofText (text : Option String) : Except Fault Settings :=
  match text with
  | none => .error .disk
  | some text =>
    match (Document.read? text).bind ofDocument? with
    | some s => .ok s
    | none => .error .malformedText

/-- The settings a program starts with: those saved, or else the standard ones, with the changes
that the environment asks for. -/
def load (saved : Option String) (env : Environment) : Except Fault Settings := do
  let s ← if saved.isSome then ofText saved else .ok standard
  s.withEnvironment env

/-- The text to save. -/
def text (s : Settings) : String := s.toJson.pretty

/-- The file that settings are saved in, seen from the user's folder for such files. -/
def path : String := "incr-graph/engine.json"

end Settings

end Runbook
