import Runbook.Json.Document

/-!
# Records in documents

How the parts of a record are found in a document. A record is an object with named fields, or
an array with the fields in their order.

* `Document.record?`: fields without a place in the record are skipped
* `Document.exactRecord?`: such fields are refused
* `Document.required?`, `Document.defaulted?`: a field that must be there, or may be missing
-/

namespace Runbook

namespace Document

/-- The field of that name, if it is there; `none` when it is there twice. -/
def field? (fields : List (String × Document)) (name : String) : Option (Option Document) :=
  match fields.filter fun f => f.1 = name with
  | [] => some none
  | [f] => some (some f.2)
  | _ => none

/-- The fields of a record, by name or by place. An array may leave out fields at the end and
has no more items than there are fields. -/
def record? (names : List String) : Document → Option (List (Option Document))
  | obj fields => names.mapM (field? fields)
  | arr items =>
    if items.length ≤ names.length then
      some (items.map some ++ List.replicate (names.length - items.length) none)
    else none
  | _ => none

/-- The fields of a record that has no others. -/
def exactRecord? (names : List String) (doc : Document) : Option (List (Option Document)) :=
  match doc with
  | obj fields => if fields.all fun f => names.contains f.1 then record? names doc else none
  | _ => record? names doc

/-- A field that must be there. -/
def required? {α : Type} (read : Document → Option α) (field : Option Document) : Option α :=
  field.bind read

/-- A field that may be missing, but is read if it is there. -/
def defaulted? {α : Type} (default : α) (read : Document → Option α) :
    Option Document → Option α
  | some doc => read doc
  | none => some default

/-- A value or nothing. -/
def option? {α : Type} (read : Document → Option α) : Document → Option (Option α)
  | null => some none
  | doc => (read doc).map some

/-- A text. -/
def str? : Document → Option String
  | str s => some s
  | _ => none

/-- A truth value. -/
def bool? : Document → Option Bool
  | bool b => some b
  | _ => none

/-- A whole number from zero up to, but not including, the bound. -/
def below? (bound : Nat) : Document → Option Nat
  | num (.whole i) => if 0 ≤ i ∧ i < bound then some i.toNat else none
  | _ => none

/-- An array whose items can all be read. -/
def list? {α : Type} (read : Document → Option α) : Document → Option (List α)
  | arr items => items.mapM read
  | _ => none

/-- An array of names, taken as a set. -/
def nameSet? (doc : Document) : Option NameSet := (list? str? doc).map NameSet.ofList

/-- One of a few words: the word itself, or an object with the word as its only field and
nothing under it. -/
def word? {α : Type} (meaning : String → Option α) : Document → Option α
  | str s => meaning s
  | obj [(s, null)] => meaning s
  | _ => none

@[simp] theorem str?_document (s : String) : str? (Json.str s).document = some s := by
  simp [Json.document, str?]

@[simp] theorem bool?_document (b : Bool) : bool? (Json.bool b).document = some b := by
  simp [Json.document, bool?]

theorem below?_document {bound n : Nat} (h : n < bound) :
    below? bound (Json.nat n).document = some n := by
  have hn : (n : Int) < (bound : Int) := by exact_mod_cast h
  simp [Json.document, Json.nat, Json.int, below?, hn]

end Document

end Runbook
