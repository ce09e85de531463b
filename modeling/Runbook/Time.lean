import Runbook.Json.Record

/-!
# Time

* `Duration`: a length of time in whole nanoseconds, below `2 ^ 64` seconds
* `Instant`: a point in time from the year 1970 on, below `2 ^ 63` seconds

Both are written as seconds and nanoseconds. What is read may have more nanoseconds than a
second; they carry over.
-/

namespace Runbook

/-- The nanoseconds of a second. -/
def nanosPerSec : Nat := 1000000000

/-! ## Durations -/

/-- A length of time. -/
structure Duration where
  /-- whole seconds -/
  secs : Nat
  /-- nanoseconds beyond them -/
  nanos : Nat
  /-- the seconds fit 64 bits -/
  secs_lt : secs < UInt64.size
  /-- the nanoseconds are less than a second -/
  nanos_lt : nanos < nanosPerSec

namespace Duration

instance : DecidableEq Duration := fun a b =>
  if h : a.secs = b.secs ∧ a.nanos = b.nanos then
    isTrue (by cases a; cases b; obtain ⟨rfl, rfl⟩ := h; rfl)
  else
    isFalse fun hab => h (hab ▸ ⟨rfl, rfl⟩)

/-- No time. -/
def zero : Duration := ⟨0, 0, by decide, by decide⟩

instance : Inhabited Duration := ⟨zero⟩

/-- A thousandth of a second. -/
def milli : Duration := ⟨0, 1000000, by decide, by decide⟩

/-- A billionth of a second. -/
def nano : Duration := ⟨0, 1, by decide, by decide⟩

/-- Seconds and nanoseconds, of which there may be more than a second's. -/
def ofParts? (secs nanos : Nat) : Option Duration :=
  if h : secs + nanos / nanosPerSec < UInt64.size then
    some ⟨secs + nanos / nanosPerSec, nanos % nanosPerSec, h, Nat.mod_lt _ (by decide)⟩
  else none

/-- The sum, unless it is too long. -/
def add? (a b : Duration) : Option Duration := ofParts? (a.secs + b.secs) (a.nanos + b.nanos)

/-- The duration that a document holds. -/
def ofDocument? (doc : Document) : Option Duration := do
  match ← doc.exactRecord? ["secs", "nanos"] with
  | [secs, nanos] =>
    ofParts? (← Document.required? (Document.below? UInt64.size) secs)
      (← Document.required? (Document.below? UInt32.size) nanos)
  | _ => none

/-- The duration as a value. -/
def toJson (d : Duration) : Json := .obj [("secs", .nat d.secs), ("nanos", .nat d.nanos)]

theorem ofParts?_self (d : Duration) : ofParts? d.secs d.nanos = some d := by
  have h := d.nanos_lt
  have hs := d.secs_lt
  have hdiv : d.nanos / nanosPerSec = 0 := Nat.div_eq_of_lt h
  have hmod : d.nanos % nanosPerSec = d.nanos := Nat.mod_eq_of_lt h
  simp only [ofParts?, hdiv, hmod, Nat.add_zero, hs, dite_true]

end Duration

/-! ## Instants -/

/-- A point in time. -/
structure Instant where
  /-- whole seconds since the start of 1970 -/
  secs : Nat
  /-- nanoseconds beyond them -/
  nanos : Nat
  /-- the seconds fit 64 bits with a sign -/
  secs_lt : secs < 0x8000000000000000
  /-- the nanoseconds are less than a second -/
  nanos_lt : nanos < nanosPerSec

namespace Instant

instance : DecidableEq Instant := fun a b =>
  if h : a.secs = b.secs ∧ a.nanos = b.nanos then
    isTrue (by cases a; cases b; obtain ⟨rfl, rfl⟩ := h; rfl)
  else
    isFalse fun hab => h (hab ▸ ⟨rfl, rfl⟩)

/-- Seconds and nanoseconds, of which there may be more than a second's. -/
def ofParts? (secs nanos : Nat) : Option Instant :=
  if h : secs + nanos / nanosPerSec < 0x8000000000000000 then
    some ⟨secs + nanos / nanosPerSec, nanos % nanosPerSec, h, Nat.mod_lt _ (by decide)⟩
  else none

/-- Whether one instant is not after another. -/
def le (a b : Instant) : Bool := a.secs < b.secs || (a.secs = b.secs && a.nanos ≤ b.nanos)

/-- The instant that a document holds. -/
def ofDocument? (doc : Document) : Option Instant := do
  match ← doc.exactRecord? ["secs_since_epoch", "nanos_since_epoch"] with
  | [secs, nanos] =>
    ofParts? (← Document.required? (Document.below? UInt64.size) secs)
      (← Document.required? (Document.below? UInt32.size) nanos)
  | _ => none

/-- The instant as a value. -/
def toJson (t : Instant) : Json :=
  .obj [("secs_since_epoch", .nat t.secs), ("nanos_since_epoch", .nat t.nanos)]

theorem ofParts?_self (t : Instant) : ofParts? t.secs t.nanos = some t := by
  have h := t.nanos_lt
  have hs := t.secs_lt
  have hdiv : t.nanos / nanosPerSec = 0 := Nat.div_eq_of_lt h
  have hmod : t.nanos % nanosPerSec = t.nanos := Nat.mod_eq_of_lt h
  simp only [ofParts?, hdiv, hmod, Nat.add_zero, hs, dite_true]

end Instant

/-! ## The clock -/

/-- A clock that shows a later second at every tick, up to the last second there is. -/
structure Clock where
  /-- the ticks so far -/
  ticks : Nat
  deriving DecidableEq, Inhabited

namespace Clock

/-- The second the clock starts at. -/
def origin : Nat := 2000000000

/-- What the clock shows. -/
def now (c : Clock) : Instant :=
  ⟨min (origin + c.ticks) 0x7fffffffffffffff, 0, by omega, by decide⟩

/-- The clock one tick later. -/
def tick (c : Clock) : Clock := ⟨c.ticks + 1⟩

end Clock

end Runbook
