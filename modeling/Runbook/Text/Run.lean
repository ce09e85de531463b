/-!
# Runs of characters

Character classes are kept as short lists of runs, each a stretch of code points a fixed
distance apart.
-/

namespace Runbook.Text

/-- The code points from `first` to `last`, `step` apart. -/
structure Run where
  /-- the first code point -/
  first : Nat
  /-- the last code point -/
  last : Nat
  /-- the distance between neighbours -/
  step : Nat

/-- Whether a code point lies in the run. -/
def Run.contains (r : Run) (code : Nat) : Bool :=
  r.first ≤ code && code ≤ r.last && (code - r.first) % r.step = 0

/-- Whether a character lies in one of the runs. -/
def inRuns (runs : List Run) (c : Char) : Bool := runs.any fun r => r.contains c.toNat

end Runbook.Text
