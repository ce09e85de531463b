import Runbook.Text.Printable

/-!
# Quoted names

The form in which a message shows a name: between quotes, with a backslash before quotes and
backslashes, letters for the usual controls, and the code point of every character that would
not show or would join its neighbour.
-/

namespace Runbook.Text

/-- A character by its code point. -/
def codePoint (c : Char) : List Char :=
  ['\\', 'u', '{'] ++ Nat.toDigits 16 c.toNat ++ ['}']

/-- A character as it stands inside a quoted name. -/
def shown (c : Char) : List Char :=
  if c = '\x00' then ['\\', '0']
  else if c = '\t' then ['\\', 't']
  else if c = '\r' then ['\\', 'r']
  else if c = '\n' then ['\\', 'n']
  else if c = '"' || c = '\\' then ['\\', c]
  else if isExtending c || !isPrintable c then codePoint c
  else [c]

/-- A name between quotes. -/
def quoted (name : String) : String :=
  String.ofList ('"' :: name.toList.flatMap shown ++ ['"'])

end Runbook.Text
