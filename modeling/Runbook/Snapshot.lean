import Runbook.Json.Printer
import Runbook.Json.Reader
import Runbook.Json.Record

/-!
# State snapshots

A snapshot is what an interpreter's variables hold after a run: a canonical JSON object from
names to values.

* `Snapshot`: the type, with `empty`, `get?`, `insert`, `erase`
* `Snapshot.ofDocument?`, `Snapshot.toJson`: its form in documents
* `Snapshot.parse?`: reading one from text
-/

namespace Runbook

/-- The values of an interpreter's variables. -/
structure Snapshot where
  /-- the variables in order of name -/
  fields : List (String × Json)
  /-- the object of these fields is canonical -/
  canonical : (Json.obj fields).Canonical

namespace Snapshot

@[ext] theorem ext {a b : Snapshot} (h : a.fields = b.fields) : a = b := by
  cases a; cases b; cases h; rfl

/-- No variables. -/
def empty : Snapshot := ⟨[], List.Pairwise.nil, trivial⟩

instance : Inhabited Snapshot := ⟨empty⟩

/-- The snapshot as a value. -/
def toJson (s : Snapshot) : Json := .obj s.fields

/-- The value of a variable. -/
def get? (s : Snapshot) (name : String) : Option Json := Fields.get? s.fields name

/-- The number of variables. -/
def size (s : Snapshot) : Nat := s.fields.length

/-- Whether there are no variables. -/
def isEmpty (s : Snapshot) : Bool := s.fields.isEmpty

/-- The snapshot with a variable set to a canonical value. -/
def insert (s : Snapshot) (name : String) (value : Json) (h : value.Canonical) : Snapshot :=
  ⟨Fields.put name value s.fields, s.canonical.1.put name value, s.canonical.2.put name h⟩

/-- The snapshot without a variable. -/
def erase (s : Snapshot) (name : String) : Snapshot :=
  ⟨s.fields.filter fun f => f.1 ≠ name, s.canonical.1.filter _,
    Json.fieldsCanonical_iff.mpr fun f hf =>
      Json.fieldsCanonical_iff.mp s.canonical.2 f (List.mem_filter.mp hf).1⟩

/-- The snapshot that a document holds: an object of any values. -/
def ofDocument? (doc : Document) : Option Snapshot :=
  match h : doc.value? with
  | some (.obj fields) => some ⟨fields, Document.value?_canonical h⟩
  | _ => none

/-- The snapshot that a text holds. -/
def parse? (text : String) : Option Snapshot := do ofDocument? (← Document.read? text)

/-- The snapshot on one line. -/
def compact (s : Snapshot) : String := s.toJson.compact

/-- The snapshot on several lines. -/
def pretty (s : Snapshot) : String := s.toJson.pretty

end Snapshot

end Runbook
