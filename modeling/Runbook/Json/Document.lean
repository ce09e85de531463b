import Runbook.Json

/-!
# JSON documents

What a JSON text says before anything is asked of it. A document keeps the fields of an object
as written, repetitions included, and it holds a mark, `beyond`, for a part that is good grammar
but stands for no value. A reader that skips such a part never notices it; a reader that wants
its value fails.

* `Document`: a text's contents
* `Document.value?`: the value they stand for
* `Json.document`: a value as a document
-/

namespace Runbook

/-- The contents of a JSON text. -/
inductive Document where
  /-- no value -/
  | null
  /-- a truth value -/
  | bool (value : Bool)
  /-- a number -/
  | num (value : Json.Number)
  /-- a text -/
  | str (value : String)
  /-- an array -/
  | arr (items : List Document)
  /-- an object, its fields as written -/
  | obj (fields : List (String × Document))
  /-- a number too large, a text with an unpaired surrogate, or a part nested too deeply -/
  | beyond
  deriving Repr

namespace Document

instance : Inhabited Document := ⟨null⟩

mutual

/-- The value of a document. An object's fields are put in order, and of two with one name the
later one counts. -/
def value? : Document → Option Json
  | null => some .null
  | bool b => some (.bool b)
  | num n => some (.num n)
  | str s => some (.str s)
  | arr items => (values? items).map .arr
  | obj fields => (fieldValues? fields).map fun fs => .obj (Fields.sorted fs)
  | beyond => none

/-- The values of the items. -/
def values? : List Document → Option (List Json)
  | [] => some []
  | item :: rest => do return (← value? item) :: (← values? rest)

/-- The values of the fields. -/
def fieldValues? : List (String × Document) → Option (List (String × Json))
  | [] => some []
  | field :: rest => do return (← fieldValue? field) :: (← fieldValues? rest)

/-- The value of the field. -/
def fieldValue? : String × Document → Option (String × Json)
  | (key, doc) => do return (key, ← value? doc)

end

mutual

/-- The value of a document is canonical. -/
theorem value?_canonical : ∀ {d : Document} {j : Json}, d.value? = some j → j.Canonical
  | null, _, h => by simp only [value?, Option.some.injEq] at h; subst h; trivial
  | bool _, _, h => by simp only [value?, Option.some.injEq] at h; subst h; trivial
  | num _, _, h => by simp only [value?, Option.some.injEq] at h; subst h; trivial
  | str _, _, h => by simp only [value?, Option.some.injEq] at h; subst h; trivial
  | arr items, _, h => by
    simp only [value?, Option.map_eq_some_iff] at h
    obtain ⟨js, hjs, rfl⟩ := h
    exact values?_canonical hjs
  | obj fields, _, h => by
    simp only [value?, Option.map_eq_some_iff] at h
    obtain ⟨fs, hfs, rfl⟩ := h
    exact Json.canonical_obj_sorted (fieldValues?_canonical hfs)
  | beyond, _, h => by simp [value?] at h

/-- The values of items are canonical. -/
theorem values?_canonical :
    ∀ {ds : List Document} {js : List Json}, values? ds = some js → Json.AllCanonical js
  | [], _, h => by simp only [values?, Option.some.injEq] at h; subst h; trivial
  | d :: ds, _, h => by
    simp only [values?, Option.bind_eq_bind, Option.bind_eq_some_iff, Option.pure_def,
      Option.some.injEq] at h
    obtain ⟨j, hj, js, hjs, rfl⟩ := h
    exact ⟨value?_canonical hj, values?_canonical hjs⟩

/-- The values of fields are canonical. -/
theorem fieldValues?_canonical : ∀ {ds : List (String × Document)} {fs : List (String × Json)},
    fieldValues? ds = some fs → Json.FieldsCanonical fs
  | [], _, h => by simp only [fieldValues?, Option.some.injEq] at h; subst h; trivial
  | d :: ds, _, h => by
    simp only [fieldValues?, Option.bind_eq_bind, Option.bind_eq_some_iff, Option.pure_def,
      Option.some.injEq] at h
    obtain ⟨f, hf, fs, hfs, rfl⟩ := h
    exact ⟨fieldValue?_canonical hf, fieldValues?_canonical hfs⟩

/-- The value of a field is canonical. -/
theorem fieldValue?_canonical : ∀ {d : String × Document} {f : String × Json},
    fieldValue? d = some f → Json.FieldCanonical f
  | (key, d), _, h => by
    simp only [fieldValue?, Option.bind_eq_bind, Option.bind_eq_some_iff, Option.pure_def,
      Option.some.injEq] at h
    obtain ⟨j, hj, rfl⟩ := h
    exact value?_canonical hj

end

end Document

/-! ## Values as documents -/

mutual

/-- A value as the document that says it. -/
def Json.document : Json → Document
  | .null => .null
  | .bool b => .bool b
  | .num n => .num n
  | .str s => .str s
  | .arr items => .arr (Json.documents items)
  | .obj fields => .obj (Json.fieldDocuments fields)

/-- The items as documents. -/
def Json.documents : List Json → List Document
  | [] => []
  | item :: rest => item.document :: Json.documents rest

/-- The fields as documents. -/
def Json.fieldDocuments : List (String × Json) → List (String × Document)
  | [] => []
  | field :: rest => Json.fieldDocument field :: Json.fieldDocuments rest

/-- The field as a document. -/
def Json.fieldDocument : String × Json → String × Document
  | (key, value) => (key, value.document)

end

end Runbook
