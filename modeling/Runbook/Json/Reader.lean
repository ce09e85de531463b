import Runbook.Json.Document

/-!
# Reading JSON text

The grammar is the strict one: no comments, no trailing commas, no leading zeros, no control
characters inside a text. Three things are good grammar and still stand for no value; they are
read as `Document.beyond`:

* a number whose magnitude is too large for a binary number
* a text, or the key of a field, with an unpaired half of a surrogate pair
* an array or object inside 127 others

Main definition: `Document.read?`.
-/

namespace Runbook

namespace Document

/-! ## Quoted texts -/

/-- A piece of a quoted text. -/
inductive Piece where
  /-- a character -/
  | char (c : Char)
  /-- one half of a surrogate pair -/
  | half (code : Nat)
  deriving Repr

/-- The value of a hexadecimal digit. -/
def hexDigit? (c : Char) : Option Nat :=
  if '0' ≤ c ∧ c ≤ '9' then some (c.toNat - '0'.toNat)
  else if 'a' ≤ c ∧ c ≤ 'f' then some (c.toNat - 'a'.toNat + 10)
  else if 'A' ≤ c ∧ c ≤ 'F' then some (c.toNat - 'A'.toNat + 10)
  else none

/-- The value of four hexadecimal digits. -/
def hexQuad? (a b c d : Char) : Option Nat := do
  return (((← hexDigit? a) * 16 + (← hexDigit? b)) * 16 + (← hexDigit? c)) * 16 + (← hexDigit? d)

/-- The piece that a sixteen-bit code stands for. -/
def Piece.ofCode (code : Nat) : Piece :=
  if 0xD800 ≤ code ∧ code ≤ 0xDFFF then .half code else .char (Char.ofNat code)

/-- The character that a letter after a backslash stands for. -/
def escaped? : Char → Option Char
  | '"' => some '"'
  | '\\' => some '\\'
  | '/' => some '/'
  | 'b' => some '\x08'
  | 'f' => some '\x0c'
  | 'n' => some '\n'
  | 'r' => some '\r'
  | 't' => some '\t'
  | _ => none

/-- The pieces up to the closing quote, and the rest after it. -/
def pieces? : List Char → Option (List Piece × List Char)
  | [] => none
  | '"' :: rest => some ([], rest)
  | '\\' :: 'u' :: a :: b :: c :: d :: rest => do
    let code ← hexQuad? a b c d
    let (ps, rest) ← pieces? rest
    return (.ofCode code :: ps, rest)
  | '\\' :: c :: rest => do
    let e ← escaped? c
    let (ps, rest) ← pieces? rest
    return (.char e :: ps, rest)
  | c :: rest =>
    if c.toNat < 0x20 then none
    else do
      let (ps, rest) ← pieces? rest
      return (.char c :: ps, rest)

/-- The characters of the pieces; `none` when half of a pair stands alone. -/
def Piece.join? : List Piece → Option (List Char)
  | [] => some []
  | .char c :: rest => (join? rest).map (c :: ·)
  | .half high :: .half low :: rest =>
    if high < 0xDC00 ∧ 0xDC00 ≤ low then
      (join? rest).map (Char.ofNat ((high - 0xD800) * 0x400 + (low - 0xDC00) + 0x10000) :: ·)
    else none
  | .half _ :: _ => none

/-- The text after an opening quote, if it is one, and the rest. -/
def quoted? (cs : List Char) : Option (Option String × List Char) := do
  let (ps, rest) ← pieces? cs
  return ((Piece.join? ps).map String.ofList, rest)

/-! ## Numbers -/

/-- The value of a decimal digit. -/
def digit (c : Char) : Nat := c.toNat - '0'.toNat

/-- Takes in digits as long as the value fits 64 bits; the digits left over are returned. -/
def takeIn : List Char → Nat → Nat × List Char
  | [], n => (n, [])
  | c :: rest, n =>
    if 10 * n + digit c < UInt64.size then takeIn rest (10 * n + digit c) else (n, c :: rest)

/-- The number with these digits before the point, after it, and in the exponent. A whole number
that fits 64 bits stays whole, but minus zero does not. Digits that no longer fit count as zeros
before the point and are dropped after it. -/
def numberOf? (negative : Bool) (whole : List Char) (fraction exponent : Option (List Char))
    (exponentNegative : Bool) : Option Json.Number :=
  let (n, left) := takeIn whole 0
  match fraction, exponent, left with
  | none, none, [] =>
    if negative then
      if n = 0 ∨ 0x8000000000000000 < n then (Binary64.ofDecimal? true n 0).map .binary
      else some (.whole (-n))
    else some (.whole n)
  | _, _, _ =>
    let digits := fraction.getD []
    let (n, dropped) := takeIn digits n
    let power := (exponent.getD []).foldl (fun p c => 10 * p + digit c) 0
    let shift : Int := left.length - (digits.length - dropped.length : Nat)
    (Binary64.ofDecimal? negative n
      (shift + if exponentNegative then -(power : Int) else power)).map .binary

/-- The digits at the front, at least one, and the rest. -/
def digits? (cs : List Char) : Option (List Char × List Char) :=
  match cs.takeWhile Char.isDigit with
  | [] => none
  | ds => some (ds, cs.dropWhile Char.isDigit)

/-- The digits after a point, if there is a point, and the rest. -/
def fraction? : List Char → Option (Option (List Char) × List Char)
  | '.' :: rest => (digits? rest).map fun (ds, rest) => (some ds, rest)
  | cs => some (none, cs)

/-- The digits of an exponent, whether it is negative, and the rest. -/
def exponent? : List Char → Option (Option (List Char) × Bool × List Char)
  | c :: cs =>
    if c = 'e' ∨ c = 'E' then
      match cs with
      | '-' :: rest => (digits? rest).map fun (ds, rest) => (some ds, true, rest)
      | '+' :: rest => (digits? rest).map fun (ds, rest) => (some ds, false, rest)
      | rest => (digits? rest).map fun (ds, rest) => (some ds, false, rest)
    else some (none, false, c :: cs)
  | [] => some (none, false, [])

/-- A number and the rest. -/
def number? (cs : List Char) : Option (Document × List Char) := do
  let (negative, cs) := match cs with
    | '-' :: rest => (true, rest)
    | cs => (false, cs)
  let (whole, cs) ← digits? cs
  if whole.head? = some '0' ∧ whole ≠ ['0'] then none
  else
    let (fraction, cs) ← fraction? cs
    let (exponent, exponentNegative, cs) ← exponent? cs
    match numberOf? negative whole fraction exponent exponentNegative with
    | some n => return (.num n, cs)
    | none => return (.beyond, cs)

/-! ## Values -/

/-- Whether a character separates tokens. -/
def isBlank (c : Char) : Bool := c = ' ' || c = '\n' || c = '\t' || c = '\r'

/-- The text without the separators at its front. -/
def skipBlanks (cs : List Char) : List Char := cs.dropWhile isBlank

/-- An array or object, if there is room to open it. -/
def opened (room : Nat) (doc : Document) : Document := if room = 0 then .beyond else doc

/-- An object with these fields; one unreadable key makes all of it unreadable. -/
def ofFields (fields : List (Option String × Document)) : Document :=
  match fields.mapM fun (key, doc) => key.map (·, doc) with
  | some fs => .obj fs
  | none => .beyond

mutual

/-- A value at the front of the text, and the rest. `room` arrays and objects may be opened.
Every second call takes a character, so twice the length is fuel enough. -/
def value (room : Nat) : Nat → List Char → Option (Document × List Char)
  | 0, _ => none
  | fuel + 1, cs =>
    match skipBlanks cs with
    | 'n' :: 'u' :: 'l' :: 'l' :: rest => some (.null, rest)
    | 't' :: 'r' :: 'u' :: 'e' :: rest => some (.bool true, rest)
    | 'f' :: 'a' :: 'l' :: 's' :: 'e' :: rest => some (.bool false, rest)
    | '"' :: rest => do
      let (text, rest) ← quoted? rest
      return (match text with | some s => .str s | none => .beyond, rest)
    | '[' :: rest =>
      match skipBlanks rest with
      | ']' :: rest => some (opened room (.arr []), rest)
      | rest => do
        let (items, rest) ← values (room - 1) fuel rest
        return (opened room (.arr items), rest)
    | '{' :: rest =>
      match skipBlanks rest with
      | '}' :: rest => some (opened room (.obj []), rest)
      | rest => do
        let (fields, rest) ← members (room - 1) fuel rest
        return (opened room (ofFields fields), rest)
    | rest => number? rest

/-- The items of an array up to its closing bracket, and the rest. -/
def values (room : Nat) : Nat → List Char → Option (List Document × List Char)
  | 0, _ => none
  | fuel + 1, cs => do
    let (item, cs) ← value room fuel cs
    match skipBlanks cs with
    | ',' :: cs =>
      let (items, cs) ← values room fuel cs
      return (item :: items, cs)
    | ']' :: cs => return ([item], cs)
    | _ => none

/-- The fields of an object up to its closing brace, and the rest. -/
def members (room : Nat) : Nat → List Char → Option (List (Option String × Document) × List Char)
  | 0, _ => none
  | fuel + 1, cs =>
    match skipBlanks cs with
    | '"' :: cs => do
      let (key, cs) ← quoted? cs
      match skipBlanks cs with
      | ':' :: cs =>
        let (item, cs) ← value room fuel cs
        match skipBlanks cs with
        | ',' :: cs =>
          let (fields, cs) ← members room fuel cs
          return ((key, item) :: fields, cs)
        | '}' :: cs => return ([(key, item)], cs)
        | _ => none
      | _ => none
    | _ => none

end

/-- How many arrays and objects may be open at once. -/
def maxDepth : Nat := 127

/-- The document a text holds: one value and nothing after it. -/
def read? (text : String) : Option Document := do
  let cs := text.toList
  let (doc, rest) ← value maxDepth (2 * cs.length + 2) cs
  if (skipBlanks rest).isEmpty then some doc else none

end Document

/-- The value a text holds. -/
def Json.read? (text : String) : Option Json := do (← Document.read? text).value?

end Runbook
