/-!
# Decimal numerals

* `natural?`: digits, at least one, behind an optional plus sign
* `integer?`: the same, behind an optional sign of either kind
* `word64?`, `int64?`: the numerals whose value fits 64 bits, without or with a sign
-/

namespace Runbook.Text

/-- The value of digits read from the left. -/
def digitsValue (cs : List Char) : Nat :=
  cs.foldl (fun n c => 10 * n + (c.toNat - '0'.toNat)) 0

/-- The value of a list of digits, not empty. -/
def digits? (cs : List Char) : Option Nat :=
  if cs.isEmpty || !cs.all Char.isDigit then none else some (digitsValue cs)

/-- The value of an unsigned numeral. -/
def natural? : List Char → Option Nat
  | '+' :: cs => digits? cs
  | cs => digits? cs

/-- The value of a signed numeral. -/
def integer? : List Char → Option Int
  | '-' :: cs => (digits? cs).map fun n => -(n : Int)
  | cs => (natural? cs).map Int.ofNat

/-- The value of an unsigned numeral below `2 ^ 64`. -/
def word64? (cs : List Char) : Option Nat := (natural? cs).filter (· < UInt64.size)

/-- The value of a signed numeral from `-2 ^ 63` up to, but not including, `2 ^ 63`. -/
def int64? (cs : List Char) : Option Int :=
  (integer? cs).filter fun i => -0x8000000000000000 ≤ i && i < 0x8000000000000000

end Runbook.Text
