/-!
# Names as folder names

Any text becomes the name of a folder of its own, from which it can be read back. Letters, digits,
`_` and `-` stand for themselves; every other byte of the text's UTF-8 form is written as a
percent sign and two capital hexadecimal digits; the empty text is a percent sign alone.

* `Component.encode`, `Component.decode?`: to and from the folder's name
-/

namespace Runbook.Component

/-- Whether a byte stands for itself. -/
def isPlain (b : UInt8) : Bool :=
  ('a'.toNat ≤ b.toNat && b.toNat ≤ 'z'.toNat) || ('A'.toNat ≤ b.toNat && b.toNat ≤ 'Z'.toNat) ||
    ('0'.toNat ≤ b.toNat && b.toNat ≤ '9'.toNat) || b.toNat = '_'.toNat || b.toNat = '-'.toNat

/-- The capital hexadecimal digit of a number below sixteen. -/
def hexDigit (n : Nat) : Char :=
  Char.ofNat (if n < 10 then '0'.toNat + n else 'A'.toNat + (n - 10))

/-- The value of a capital hexadecimal digit. -/
def hexValue? (c : Char) : Option Nat :=
  if '0' ≤ c ∧ c ≤ '9' then some (c.toNat - '0'.toNat)
  else if 'A' ≤ c ∧ c ≤ 'F' then some (c.toNat - 'A'.toNat + 10)
  else none

/-- A byte as it is written. -/
def encodeByte (b : UInt8) : List Char :=
  if isPlain b then [Char.ofNat b.toNat]
  else ['%', hexDigit (b.toNat / 16), hexDigit (b.toNat % 16)]

/-- The name of the folder for a text. -/
def encode (name : String) : String :=
  if name.isEmpty then "%" else String.ofList (name.toUTF8.toList.flatMap encodeByte)

/-- The bytes that were written, as long as each is written the one right way. -/
def decodeBytes? : List Char → Option (List UInt8)
  | [] => some []
  | '%' :: high :: low :: rest => do
    let b := UInt8.ofNat (16 * (← hexValue? high) + (← hexValue? low))
    if isPlain b then none else return b :: (← decodeBytes? rest)
  | c :: rest => do
    let b := UInt8.ofNat c.toNat
    if c.toNat < 0x80 && isPlain b then return b :: (← decodeBytes? rest) else none

/-- The text whose folder has this name. -/
def decode? (component : String) : Option String :=
  if component = "%" then some ""
  else if component.isEmpty then none
  else do String.fromUTF8? ⟨(← decodeBytes? component.toList).toArray⟩

end Runbook.Component
