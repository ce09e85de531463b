import Runbook.Runner
import Runbook.Text.Blank
import Runbook.Text.Lines
import Runbook.Text.Numeral

/-!
# A small scripting language

A runner for trying out sessions without a real interpreter. Code is a list of lines with one
command each:

```text
x = 1          sets a variable, to a whole number if it is one and else to the text
x += 2         adds to a whole number
print x        prints the value of a variable
del x          removes a variable
raise          complains
time 5         takes five seconds longer
notime         claims to have taken no time at all
down message   cannot be reached
panic          crashes
```

* `Script.Command`: the commands, with `Script.Command.ofLine`
* `Script.run`: all lines of a script
* `Script.runner`: scripts as a runner
-/

namespace Runbook.Script

/-! ## Commands -/

/-- A value that a script can write down. -/
inductive Value where
  /-- a whole number -/
  | whole (i : Int)
  /-- a text -/
  | text (s : String)

/-- The value as one of a snapshot. -/
def Value.toJson : Value → Json
  | whole i => .int i
  | text s => .str s

theorem Value.canonical_toJson (v : Value) : v.toJson.Canonical := by cases v <;> trivial

/-- What a line asks for. -/
inductive Command where
  /-- complain -/
  | raise
  /-- crash -/
  | panic
  /-- say that no time has passed -/
  | notime
  /-- be out of reach -/
  | down (message : String)
  /-- take some seconds longer, if the text is a number -/
  | time (secs : Option Nat)
  /-- print a variable -/
  | print (name : String)
  /-- remove a variable -/
  | del (name : String)
  /-- add to a variable, if the text is a number -/
  | add (name : String) (amount : Option Int)
  /-- set a variable -/
  | set (name : String) (value : Value)
  /-- do nothing -/
  | skip

/-- What follows a word at the start of a line. -/
def after? (word : String) (line : List Char) : Option (List Char) :=
  if word.toList.isPrefixOf line then some (line.drop word.length) else none

/-- A text without blanks at its ends. -/
def trimmed (cs : List Char) : String := String.ofList (Text.trim cs)

/-- The value that a text stands for: a whole number if it is one, or else the text. -/
def valueOf (cs : List Char) : Value :=
  match Text.int64? (Text.trim cs) with
  | some i => .whole i
  | none => .text (trimmed cs)

/-- What sets or changes a variable in a line. -/
def ofAssignment (line : List Char) : Command :=
  match Text.breakAtPlusEq line with
  | some (name, amount) => .add (trimmed name) (Text.int64? (Text.trim amount))
  | none =>
    match Text.breakAt '=' line with
    | some (name, value) => .set (trimmed name) (valueOf value)
    | none => .skip

/-- What a line without blanks at its ends asks for. -/
def Command.ofLine (line : List Char) : Command :=
  if line = "raise".toList then .raise
  else if line = "panic".toList then .panic
  else if line = "notime".toList then .notime
  else
    match after? "down " line, after? "time " line, after? "print " line, after? "del " line with
    | some message, _, _, _ => .down (String.ofList message)
    | _, some secs, _, _ => .time (Text.word64? secs)
    | _, _, some name, _ => .print (String.ofList name)
    | _, _, _, some name => .del (String.ofList name)
    | _, _, _, _ => ofAssignment line

/-! ## Running -/

/-- A run with one more complaint. -/
def complain (r : RunResult) (text : String) : RunResult :=
  { r with stderr := r.stderr ++ text ++ "\n" }

/-- A run after which a variable is set. -/
def setVariable (r : RunResult) (name : String) (value : Value) : RunResult :=
  { r with state := r.state.insert name value.toJson value.canonical_toJson }

/-- Carries out a command. -/
def Command.run (r : RunResult) : Command → Except Breakdown RunResult
  | raise => .ok (complain r "RuntimeError")
  | panic => .error .crashed
  | notime => .ok { r with time := .zero }
  | down message => .error (.unavailable message)
  | time secs =>
    match secs.bind fun n => (Duration.ofParts? n 0).bind r.time.add? with
    | some t => .ok { r with time := t }
    | none => .ok (complain r "TimeError")
  | print name =>
    match r.state.get? name with
    | some value => .ok { r with stdout := r.stdout ++ value.compact ++ "\n" }
    | none => .ok (complain r ("NameError: " ++ name))
  | del name =>
    match r.state.get? name with
    | some _ => .ok { r with state := r.state.erase name }
    | none => .ok (complain r ("NameError: " ++ name))
  | add name amount =>
    match (r.state.get? name).bind Json.int64?, amount with
    | some old, some n =>
      if -0x8000000000000000 ≤ old + n ∧ old + n < 0x8000000000000000 then
        .ok (setVariable r name (.whole (old + n)))
      else .ok (complain r "OverflowError")
    | _, _ => .ok (complain r ("NameError: " ++ name))
  | set name value => .ok (setVariable r name value)
  | skip => .ok r

/-- Carries out the commands of some lines. -/
def runLines (r : RunResult) : List (List Char) → Except Breakdown RunResult
  | [] => .ok r
  | line :: rest => ((Command.ofLine line).run r).bind fun r => runLines r rest

/-- The lines of a script that are not blank, without blanks at their ends. -/
def lines (code : String) : List (List Char) :=
  ((Text.lines code.toList).map Text.trim).filter fun line => !line.isEmpty

/-- Runs a script on top of a state. It takes a millisecond unless it says otherwise. -/
def run (code : String) (prior : Snapshot) : Except Breakdown RunResult :=
  runLines { RunResult.start prior with time := .milli } (lines code)

/-- A run that claims to have taken no time is said to have taken the time it was seen to take. -/
def timed (seen : Duration) (r : RunResult) : RunResult :=
  if r.time = .zero then { r with time := seen } else r

/-- Scripts as a runner that cannot be reached from some call on. -/
def runner (failFrom : Option Nat) : Runner := fun call code prior =>
  if failFrom.any fun n => n ≤ call then .error (.unavailable "interpreter not found")
  else (run code prior).map (timed .nano)

end Runbook.Script
