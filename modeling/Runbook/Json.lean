import Runbook.Table
import Runbook.Json.Binary64

/-!
# JSON values

* `Json`: the values a snapshot may hold
* `Json.Canonical`: every object has its keys in order, none twice
* `Json.depth`: how deeply arrays and objects are nested
-/

namespace Runbook

/-- A number: a whole one that fits 64 bits with or without a sign, or a binary one. -/
inductive Json.Number where
  /-- a whole number -/
  | whole (value : Int)
  /-- a binary floating-point number -/
  | binary (value : Binary64)
  deriving DecidableEq, Repr

/-- A JSON value. -/
inductive Json where
  /-- no value -/
  | null
  /-- a truth value -/
  | bool (value : Bool)
  /-- a number -/
  | num (value : Json.Number)
  /-- a text -/
  | str (value : String)
  /-- an array -/
  | arr (items : List Json)
  /-- an object -/
  | obj (fields : List (String × Json))
  deriving BEq, Repr

namespace Json

instance : Inhabited Json := ⟨null⟩

/-- A whole number as a value. -/
def int (value : Int) : Json := num (.whole value)

/-- A natural number as a value. -/
def nat (value : Nat) : Json := int value

/-- An array of texts. -/
def strings (names : List String) : Json := arr (names.map str)

/-- A text or nothing. -/
def optionStr : Option String → Json
  | some s => str s
  | none => null

/-- The field of a record that is left out when it has no value. -/
def whenSome (key : String) : Option Json → List (String × Json)
  | some value => [(key, value)]
  | none => []

/-! ## Canonical values -/

mutual

/-- Every object in the value has its keys in order, none twice. -/
def Canonical : Json → Prop
  | arr items => AllCanonical items
  | obj fields => Fields.Increasing fields ∧ FieldsCanonical fields
  | _ => True

/-- Every item is canonical. -/
def AllCanonical : List Json → Prop
  | [] => True
  | item :: rest => Canonical item ∧ AllCanonical rest

/-- Every field's value is canonical. -/
def FieldsCanonical : List (String × Json) → Prop
  | [] => True
  | field :: rest => FieldCanonical field ∧ FieldsCanonical rest

/-- The field's value is canonical. -/
def FieldCanonical : String × Json → Prop
  | (_, value) => Canonical value

end

theorem fieldsCanonical_iff {fields : List (String × Json)} :
    FieldsCanonical fields ↔ ∀ f ∈ fields, Canonical f.2 := by
  induction fields with
  | nil => simp [FieldsCanonical]
  | cons f rest ih =>
    obtain ⟨key, value⟩ := f
    simp only [FieldsCanonical, FieldCanonical, ih, List.forall_mem_cons]

/-- Writing a canonical value into canonical fields keeps them so. -/
theorem FieldsCanonical.put {fields : List (String × Json)} (h : FieldsCanonical fields)
    (key : String) {value : Json} (hv : Canonical value) :
    FieldsCanonical (Fields.put key value fields) := by
  rw [fieldsCanonical_iff] at h ⊢
  intro f hf
  rcases Fields.mem_put hf with rfl | hf
  · exact hv
  · exact h f hf

/-- Putting canonical fields in order makes a canonical object. -/
theorem canonical_obj_sorted {fields : List (String × Json)} (h : FieldsCanonical fields) :
    Canonical (obj (Fields.sorted fields)) := by
  refine ⟨Fields.increasing_sorted fields, ?_⟩
  suffices H : ∀ (fields acc : List (String × Json)), FieldsCanonical fields →
      FieldsCanonical acc →
      FieldsCanonical (fields.foldl (fun acc f => Fields.put f.1 f.2 acc) acc) from
    H fields [] h trivial
  intro fields
  induction fields with
  | nil => exact fun _ _ h => h
  | cons f rest ih =>
    obtain ⟨key, value⟩ := f
    intro acc hf hacc
    exact ih _ hf.2 (hacc.put key hf.1)

/-! ## Nesting -/

mutual

/-- The greatest number of arrays and objects that are open at once. -/
def depth : Json → Nat
  | arr items => 1 + listDepth items
  | obj fields => 1 + fieldsDepth fields
  | _ => 0

/-- The greatest depth of the items. -/
def listDepth : List Json → Nat
  | [] => 0
  | item :: rest => max (depth item) (listDepth rest)

/-- The greatest depth of the fields. -/
def fieldsDepth : List (String × Json) → Nat
  | [] => 0
  | field :: rest => max (fieldDepth field) (fieldsDepth rest)

/-- The depth of the field's value. -/
def fieldDepth : String × Json → Nat
  | (_, value) => depth value

end

/-- The value as a whole number that fits 64 bits with a sign. -/
def int64? : Json → Option Int
  | num (.whole i) => if -0x8000000000000000 ≤ i ∧ i < 0x8000000000000000 then some i else none
  | _ => none

end Json

end Runbook
