import Runbook.Json

/-!
# Writing JSON text

Two written forms of a value, both of which read back as the value:

* `Json.compact`: on one line, without blanks
* `Json.pretty`: one item or field a line, indented by two blanks a level

Characters beyond ASCII are written as they are.
-/

namespace Runbook

namespace Json

/-- The hexadecimal digit of a number below sixteen. -/
def hexDigit (n : Nat) : Char :=
  Char.ofNat (if n < 10 then '0'.toNat + n else 'a'.toNat + (n - 10))

/-- A character as it stands inside quotes. -/
def quotedChar (c : Char) : List Char :=
  if c = '"' then ['\\', '"']
  else if c = '\\' then ['\\', '\\']
  else if c = '\x08' then ['\\', 'b']
  else if c = '\x0c' then ['\\', 'f']
  else if c = '\n' then ['\\', 'n']
  else if c = '\r' then ['\\', 'r']
  else if c = '\t' then ['\\', 't']
  else if c.toNat < 0x20 then
    ['\\', 'u', '0', '0', hexDigit (c.toNat / 16), hexDigit (c.toNat % 16)]
  else [c]

/-- A text in quotes. -/
def quoted (s : String) : String :=
  String.ofList ('"' :: s.toList.flatMap quotedChar ++ ['"'])

/-- The written form of a number. -/
def Number.text : Number → String
  | .whole i => toString i
  | .binary x => x.text

mutual

/-- The value on one line, without blanks. -/
def compact : Json → String
  | null => "null"
  | bool true => "true"
  | bool false => "false"
  | num n => n.text
  | str s => quoted s
  | arr items => "[" ++ ",".intercalate (compactItems items) ++ "]"
  | obj fields => "\x7b" ++ ",".intercalate (compactFields fields) ++ "\x7d"

/-- The items on one line each. -/
def compactItems : List Json → List String
  | [] => []
  | item :: rest => compact item :: compactItems rest

/-- The fields on one line each. -/
def compactFields : List (String × Json) → List String
  | [] => []
  | field :: rest => compactField field :: compactFields rest

/-- A field on one line. -/
def compactField : String × Json → String
  | (key, value) => quoted key ++ ":" ++ compact value

end

/-- A line break and the blanks of the next line. -/
def lineBreak (level : Nat) : String := "\n" ++ String.ofList (List.replicate (2 * level) ' ')

/-- Parts between brackets, each on a line of its own. -/
def block (level : Nat) (opening closing : String) (parts : List String) : String :=
  if parts.isEmpty then opening ++ closing
  else opening ++ lineBreak (level + 1) ++ ("," ++ lineBreak (level + 1)).intercalate parts ++
    lineBreak level ++ closing

mutual

/-- The value with its parts on lines of their own, nested `level` deep. -/
def prettyAt (level : Nat) : Json → String
  | null => "null"
  | bool true => "true"
  | bool false => "false"
  | num n => n.text
  | str s => quoted s
  | arr items => block level "[" "]" (prettyItems (level + 1) items)
  | obj fields => block level "\x7b" "\x7d" (prettyFields (level + 1) fields)

/-- The items, nested `level` deep. -/
def prettyItems (level : Nat) : List Json → List String
  | [] => []
  | item :: rest => prettyAt level item :: prettyItems level rest

/-- The fields, nested `level` deep. -/
def prettyFields (level : Nat) : List (String × Json) → List String
  | [] => []
  | field :: rest => prettyField level field :: prettyFields level rest

/-- A field, nested `level` deep. -/
def prettyField (level : Nat) : String × Json → String
  | (key, value) => quoted key ++ ": " ++ prettyAt level value

end

/-- The value with its parts on lines of their own. -/
def pretty (value : Json) : String := prettyAt 0 value

end Json

end Runbook
