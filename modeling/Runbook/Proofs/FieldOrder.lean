import Mathlib.Data.List.Perm.Basic
import Runbook.Json.Record

/-!
# Fields in any order

A value is said by a document that has its items in their order and its fields in any order. What
is read from a record does not depend on that order.

* `Fields.sorted_of_perm`: fields in order are found again, however they are mixed
* `Json.SaidBy`: the documents that say a value
* `Document.value?_of_saidBy`: they stand for the value itself if it is canonical
* `Json.SaidBy.record?_eq`: the fields of a record are found by their names
* `Document.Reads`, `Document.ReadsField`: what a reader makes of every document that says a value
-/

namespace Runbook

/-! ## Sorting -/

namespace Fields

variable {α : Type}

theorem put_perm {key : String} {value : α} : ∀ {fields : List (String × α)},
    key ∉ fields.map Prod.fst → (put key value fields).Perm ((key, value) :: fields)
  | [], _ => .refl _
  | (k, v) :: rest, h => by
    rw [List.map_cons, List.mem_cons, not_or] at h
    rw [put]
    split
    · exact .refl _
    · rw [if_neg h.1]
      exact ((put_perm h.2).cons _).trans (.swap ..)

/-- Sorting fields with different names only changes their order. -/
theorem sorted_perm {fields : List (String × α)} (h : (fields.map Prod.fst).Nodup) :
    (sorted fields).Perm fields := by
  suffices H : ∀ (fields acc : List (String × α)), ((fields ++ acc).map Prod.fst).Nodup →
      (fields.foldl (fun acc f => put f.1 f.2 acc) acc).Perm (fields ++ acc) by
    have hsorted := H fields [] (by rwa [List.append_nil])
    rwa [List.append_nil] at hsorted
  intro fields
  induction fields with
  | nil => exact fun acc _ => .refl acc
  | cons f rest ih =>
    intro acc h
    rw [List.cons_append, List.map_cons, List.nodup_cons, List.map_append, List.mem_append,
      not_or] at h
    have hput : (rest ++ put f.1 f.2 acc).Perm (f :: (rest ++ acc)) :=
      ((put_perm h.1.2).append_left rest).trans List.perm_middle
    refine (ih _ ?_).trans hput
    refine (hput.map Prod.fst).nodup_iff.mpr (List.nodup_cons.mpr ⟨?_, ?_⟩)
    · rw [List.map_append, List.mem_append, not_or]
      exact h.1
    · rw [List.map_append]
      exact h.2

theorem Increasing.nodup {fields : List (String × α)} (h : Increasing fields) :
    (fields.map Prod.fst).Nodup := by
  refine List.pairwise_map.mpr (List.Pairwise.imp ?_ h)
  intro a b hlt heq
  exact String.lt_irrefl _ (heq ▸ hlt)

/-- Fields in order are found again, however they are mixed. -/
theorem sorted_of_perm {fields mixed : List (String × α)} (h : Increasing fields)
    (hmixed : mixed.Perm fields) : sorted mixed = fields := by
  have hnodup : (mixed.map Prod.fst).Nodup := (hmixed.map Prod.fst).nodup_iff.mpr h.nodup
  refine List.Perm.eq_of_pairwise (fun a b _ _ hab hba => ?_) (increasing_sorted mixed) h
    ((sorted_perm hnodup).trans hmixed)
  exact absurd (String.lt_trans hab hba) (String.lt_irrefl _)

end Fields

theorem Table.ofList_of_perm {α : Type} (t : Table α) {mixed : List (String × α)}
    (h : mixed.Perm t.entries) : Table.ofList mixed = t := by
  obtain ⟨entries, hentries⟩ := t
  simp only [ofList, Fields.sorted_of_perm hentries h]

theorem NameSet.ofList_names (s : NameSet) : NameSet.ofList s.names = s := by
  obtain ⟨names, hnames⟩ := s
  have hsorted : Fields.sorted (names.map fun n => (n, ())) = names.map fun n => (n, ()) :=
    Fields.sorted_of_perm (List.pairwise_map.mpr hnames) (.refl _)
  have hkeys : (Table.ofList (names.map fun n => (n, ()))).keys = names := by
    show (Fields.sorted _).map Prod.fst = names
    rw [hsorted, List.map_map]
    exact List.map_id names
  simp only [ofList, hkeys]

/-! ## Lists in any order -/

theorem mapM_eq_some_iff {α β : Type} {f : α → Option β} {xs : List α} {ys : List β} :
    xs.mapM f = some ys ↔ List.Forall₂ (fun x y => f x = some y) xs ys := by
  induction xs generalizing ys with
  | nil => simp [eq_comm]
  | cons x rest ih =>
    simp only [List.mapM_cons, Option.bind_eq_bind, Option.bind_eq_some_iff, Option.pure_def,
      Option.some.injEq, ih, List.forall₂_cons_left_iff]
    grind

/-- What is made of things one by one comes in the order of the things. -/
theorem mapM_of_perm {α β : Type} {f : α → Option β} {xs xs' : List α} {ys : List β}
    (h : xs.Perm xs') (hys : xs'.mapM f = some ys) :
    ∃ mixed, xs.mapM f = some mixed ∧ mixed.Perm ys := by
  obtain ⟨mixed, hmixed, hperm⟩ := List.perm_comp_forall₂ h (mapM_eq_some_iff.mp hys)
  exact ⟨mixed, mapM_eq_some_iff.mpr hmixed, hperm⟩

/-! ## Documents that say a value -/

namespace Json

mutual

/-- The document says the value, with the fields of objects in any order. -/
def SaidBy : Json → Document → Prop
  | null, d => d = .null
  | bool b, d => d = .bool b
  | num n, d => d = .num n
  | str s, d => d = .str s
  | arr items, d => ∃ docs, d = .arr docs ∧ AllSaidBy items docs
  | obj fields, d => ∃ docs inOrder, d = .obj docs ∧ docs.Perm inOrder ∧
      FieldsSaidBy fields inOrder

/-- The documents say the items, one by one. -/
def AllSaidBy : List Json → List Document → Prop
  | [], docs => docs = []
  | item :: rest, docs => ∃ doc more, docs = doc :: more ∧ SaidBy item doc ∧ AllSaidBy rest more

/-- The documents say the fields, one by one. -/
def FieldsSaidBy : List (String × Json) → List (String × Document) → Prop
  | [], docs => docs = []
  | field :: rest, docs => ∃ doc more, docs = doc :: more ∧ FieldSaidBy field doc ∧
      FieldsSaidBy rest more

/-- The document says the field, under the same name. -/
def FieldSaidBy : String × Json → String × Document → Prop
  | (key, value), doc => doc.1 = key ∧ SaidBy value doc.2

end

theorem fieldsSaidBy_iff {fields : List (String × Json)} {docs : List (String × Document)} :
    FieldsSaidBy fields docs ↔ List.Forall₂ FieldSaidBy fields docs := by
  induction fields generalizing docs with
  | nil => simp [FieldsSaidBy]
  | cons field rest ih =>
    simp only [FieldsSaidBy, ih, List.forall₂_cons_left_iff]
    exact exists_congr fun doc => exists_congr fun more => by tauto

mutual

/-- A value is said by the document with its fields as they are. -/
theorem saidBy_document : ∀ j : Json, j.SaidBy j.document
  | null => rfl
  | bool _ => rfl
  | num _ => rfl
  | str _ => rfl
  | arr items => ⟨_, rfl, allSaidBy_documents items⟩
  | obj fields => ⟨_, _, rfl, .refl _, fieldsSaidBy_documents fields⟩

theorem allSaidBy_documents : ∀ items : List Json, AllSaidBy items (documents items)
  | [] => rfl
  | item :: rest => ⟨_, _, rfl, saidBy_document item, allSaidBy_documents rest⟩

theorem fieldsSaidBy_documents : ∀ fields : List (String × Json),
    FieldsSaidBy fields (fieldDocuments fields)
  | [] => rfl
  | field :: rest => ⟨_, _, rfl, fieldSaidBy_document field, fieldsSaidBy_documents rest⟩

theorem fieldSaidBy_document : ∀ field : String × Json, FieldSaidBy field (fieldDocument field)
  | (_, value) => ⟨rfl, saidBy_document value⟩

end

end Json

/-! ## The value again -/

namespace Document

theorem fieldValues?_eq_mapM : ∀ docs : List (String × Document),
    fieldValues? docs = docs.mapM fieldValue?
  | [] => rfl
  | doc :: rest => by rw [fieldValues?, List.mapM_cons, fieldValues?_eq_mapM rest]

mutual

/-- A document that says a value stands for one, and for that value itself if it is canonical. -/
theorem value?_of_saidBy : ∀ {j : Json} {d : Document}, j.SaidBy d →
    ∃ v, d.value? = some v ∧ (j.Canonical → v = j)
  | .null, _, rfl => ⟨.null, rfl, fun _ => rfl⟩
  | .bool b, _, rfl => ⟨.bool b, rfl, fun _ => rfl⟩
  | .num n, _, rfl => ⟨.num n, rfl, fun _ => rfl⟩
  | .str s, _, rfl => ⟨.str s, rfl, fun _ => rfl⟩
  | .arr items, _, ⟨docs, rfl, h⟩ => by
    obtain ⟨values, hvalues, hcanonical⟩ := values?_of_saidBy h
    exact ⟨.arr values, by rw [value?, hvalues, Option.map_some],
      fun hc => by rw [hcanonical hc]⟩
  | .obj fields, _, ⟨docs, inOrder, rfl, hperm, h⟩ => by
    obtain ⟨values, hvalues, hcanonical⟩ := fieldValues?_of_saidBy h
    rw [fieldValues?_eq_mapM] at hvalues
    obtain ⟨mixed, hmixed, hmixedPerm⟩ := mapM_of_perm hperm hvalues
    refine ⟨.obj (Fields.sorted mixed), ?_, fun hc => ?_⟩
    · rw [value?, fieldValues?_eq_mapM, hmixed, Option.map_some]
    · rw [hcanonical hc.2] at hmixedPerm
      rw [Fields.sorted_of_perm hc.1 hmixedPerm]

theorem values?_of_saidBy : ∀ {items : List Json} {docs : List Document},
    Json.AllSaidBy items docs → ∃ values, values? docs = some values ∧
      (Json.AllCanonical items → values = items)
  | [], _, rfl => ⟨[], rfl, fun _ => rfl⟩
  | item :: rest, _, ⟨doc, more, rfl, hdoc, hmore⟩ => by
    obtain ⟨value, hvalue, hcanonical⟩ := value?_of_saidBy hdoc
    obtain ⟨values, hvalues, hcanonicals⟩ := values?_of_saidBy hmore
    exact ⟨value :: values, by simp [values?, hvalue, hvalues],
      fun hc => by rw [hcanonical hc.1, hcanonicals hc.2]⟩

theorem fieldValues?_of_saidBy : ∀ {fields : List (String × Json)}
    {docs : List (String × Document)}, Json.FieldsSaidBy fields docs →
      ∃ values, fieldValues? docs = some values ∧ (Json.FieldsCanonical fields → values = fields)
  | [], _, rfl => ⟨[], rfl, fun _ => rfl⟩
  | field :: rest, _, ⟨doc, more, rfl, hdoc, hmore⟩ => by
    obtain ⟨value, hvalue, hcanonical⟩ := fieldValue?_of_saidBy hdoc
    obtain ⟨values, hvalues, hcanonicals⟩ := fieldValues?_of_saidBy hmore
    exact ⟨value :: values, by simp [fieldValues?, hvalue, hvalues],
      fun hc => by rw [hcanonical hc.1, hcanonicals hc.2]⟩

theorem fieldValue?_of_saidBy : ∀ {field : String × Json} {doc : String × Document},
    Json.FieldSaidBy field doc →
      ∃ value, fieldValue? doc = some value ∧ (Json.FieldCanonical field → value = field)
  | (key, value), (_, doc), ⟨rfl, hdoc⟩ => by
    obtain ⟨v, hv, hcanonical⟩ := value?_of_saidBy hdoc
    exact ⟨(key, v), by simp [fieldValue?, hv], fun hc => by rw [hcanonical hc]⟩

end

end Document

/-! ## Fields of records -/

namespace Json

@[simp] theorem whenSome_some (key : String) (value : Json) :
    whenSome key (some value) = [(key, value)] := rfl

@[simp] theorem filter_whenSome (key name : String) (value : Option Json) :
    (whenSome key value).filter (fun f => f.1 = name) =
      if key = name then whenSome key value else [] := by
  cases value with
  | none => simp [whenSome]
  | some value => by_cases h : key = name <;> simp [whenSome, h]

theorem SaidBy.exists_fields {fields : List (String × Json)} {d : Document}
    (h : (obj fields).SaidBy d) : ∃ docs, d = .obj docs := by
  obtain ⟨docs, _, rfl, -⟩ := h
  exact ⟨docs, rfl⟩

/-- The field of a name is found, if there is just one, and else it is missed. -/
theorem SaidBy.field?_eq {fields : List (String × Json)} {docs : List (String × Document)}
    (h : (obj fields).SaidBy (.obj docs)) (name : String) (value : Option Json)
    (hvalue : fields.filter (fun f => f.1 = name) = whenSome name value) :
    ∃ doc, Document.field? docs name = some doc ∧ Option.Rel SaidBy value doc := by
  obtain ⟨_, inOrder, ⟨rfl⟩, hperm, h⟩ := h
  have hsame : ∀ {f : String × Json} {doc : String × Document}, FieldSaidBy f doc →
      (decide (f.1 = name) = true ↔ decide (doc.1 = name) = true) := by
    rintro ⟨key, j⟩ ⟨_, doc⟩ ⟨rfl, -⟩
    rfl
  have hfound := List.rel_filter (p := fun f => f.1 = name) (q := fun doc => doc.1 = name)
    (fun _ _ => hsame) (fieldsSaidBy_iff.mp h)
  have hmixed := hperm.filter fun doc => doc.1 = name
  rw [hvalue] at hfound
  cases value with
  | none =>
    rw [List.forall₂_nil_left_iff.mp hfound] at hmixed
    exact ⟨none, by rw [Document.field?, hmixed.eq_nil], .none⟩
  | some value =>
    obtain ⟨⟨_, doc⟩, _, ⟨rfl, hdoc⟩, hnone, hdocs⟩ := List.forall₂_cons_left_iff.mp hfound
    rw [hdocs, List.forall₂_nil_left_iff.mp hnone] at hmixed
    exact ⟨some doc, by rw [Document.field?, List.perm_singleton.mp hmixed], .some hdoc⟩

/-- The fields of a record are found by their names. -/
theorem SaidBy.record?_eq {fields : List (String × Json)} {d : Document}
    (h : (obj fields).SaidBy d) (names : List String) (values : List (Option Json))
    (hvalues : List.Forall₂ (fun name value =>
      fields.filter (fun f => f.1 = name) = whenSome name value) names values) :
    ∃ docs, d.record? names = some docs ∧ List.Forall₂ (Option.Rel SaidBy) values docs := by
  obtain ⟨docs, rfl⟩ := h.exists_fields
  rw [Document.record?]
  induction hvalues with
  | nil => exact ⟨[], rfl, .nil⟩
  | cons hvalue _ ih =>
    obtain ⟨doc, hdoc, hrel⟩ := h.field?_eq _ _ hvalue
    obtain ⟨more, hmore, hrels⟩ := ih
    exact ⟨doc :: more, by simp [hdoc, hmore], .cons hrel hrels⟩

theorem map_fst_of_saidBy : ∀ {fields : List (String × Json)} {docs : List (String × Document)},
    FieldsSaidBy fields docs → docs.map Prod.fst = fields.map Prod.fst
  | [], _, rfl => rfl
  | (_, _) :: _, _, ⟨(_, _), _, rfl, ⟨rfl, _⟩, hrest⟩ => by
    rw [List.map_cons, List.map_cons, map_fst_of_saidBy hrest]

/-- So are those of a record that has no others. -/
theorem SaidBy.exactRecord?_eq {fields : List (String × Json)} {d : Document}
    (h : (obj fields).SaidBy d) (names : List String) (values : List (Option Json))
    (hvalues : List.Forall₂ (fun name value =>
      fields.filter (fun f => f.1 = name) = whenSome name value) names values)
    (hnames : fields.map Prod.fst ⊆ names) :
    ∃ docs, d.exactRecord? names = some docs ∧ List.Forall₂ (Option.Rel SaidBy) values docs := by
  have hrecord := h.record?_eq names values hvalues
  obtain ⟨docs, inOrder, rfl, hperm, hfields⟩ := h
  have hall : docs.all (fun f => names.contains f.1) = true := by
    rw [List.all_eq_true]
    intro f hf
    have hkey := List.mem_map_of_mem (f := Prod.fst) (hperm.mem_iff.mp hf)
    rw [map_fst_of_saidBy hfields] at hkey
    exact List.contains_iff_mem.mpr (hnames hkey)
  rw [Document.exactRecord?, if_pos hall]
  exact hrecord

end Json

namespace Document

theorem filter_of_field? {docs : List (String × Document)} {name : String} {doc : Document}
    (h : field? docs name = some (some doc)) :
    docs.filter (fun f => f.1 = name) = [(name, doc)] := by
  rw [field?] at h
  split at h
  · cases h
  · next f hf =>
    have hname := (List.mem_filter.mp (hf ▸ List.mem_singleton_self f)).2
    rw [hf, ← of_decide_eq_true hname, ← Option.some.inj (Option.some.inj h)]
  · cases h

/-! ## Readers -/

variable {α : Type} {read : Document → Option α} {j : Json} {a : α}

/-- The reader makes this of every document that says the value. -/
def Reads (read : Document → Option α) (j : Json) (a : α) : Prop :=
  ∀ d, j.SaidBy d → read d = some a

/-- The reader of a field makes this of every document that says its value, or of none. -/
def ReadsField (read : Option Document → Option α) (value : Option Json) (a : α) : Prop :=
  ∀ doc, Option.Rel Json.SaidBy value doc → read doc = some a

theorem Reads.required (h : Reads read j a) : ReadsField (required? read) (some j) a := by
  rintro _ ⟨hdoc⟩
  exact h _ hdoc

theorem Reads.defaulted (h : Reads read j a) (default : α) :
    ReadsField (defaulted? default read) (some j) a := by
  rintro _ ⟨hdoc⟩
  exact h _ hdoc

theorem Reads.option (h : Reads read j a) (hj : j ≠ .null) :
    Reads (option? read) j (some a) := by
  intro d hd
  have hnull : d ≠ .null := by
    rintro rfl
    cases j with
    | null => exact hj rfl
    | _ => simp [Json.SaidBy] at hd
  rw [option?, h d hd, Option.map_some]
  exact fun h => hnull h

/-- A field that is left out when it has no value. -/
theorem readsField_whenSome {write : α → Json} (h : ∀ a, Reads read (write a) a)
    (hwrite : ∀ a, write a ≠ .null) (o : Option α) :
    ReadsField (defaulted? none (option? read)) (o.map write) o := by
  cases o with
  | none =>
    rintro _ ⟨⟩
    rfl
  | some a => exact ((h a).option (hwrite a)).defaulted none

theorem reads_str (s : String) : Reads str? (.str s) s := by
  rintro _ rfl
  exact str?_document s

theorem reads_bool (b : Bool) : Reads bool? (.bool b) b := by
  rintro _ rfl
  exact bool?_document b

theorem reads_below {bound n : Nat} (h : n < bound) : Reads (below? bound) (.nat n) n := by
  rintro _ rfl
  exact below?_document h

theorem reads_word {meaning : String → Option α} {w : String} (h : meaning w = some a) :
    Reads (word? meaning) (.str w) a := by
  rintro _ rfl
  exact h

theorem reads_list {write : α → Json} (h : ∀ a, Reads read (write a) a) (as : List α) :
    Reads (list? read) (.arr (as.map write)) as := by
  rintro _ ⟨docs, rfl, hdocs⟩
  rw [list?]
  induction as generalizing docs with
  | nil =>
    cases hdocs
    rfl
  | cons a rest ih =>
    obtain ⟨doc, more, rfl, hdoc, hmore⟩ := hdocs
    rw [List.mapM_cons, h a doc hdoc, ih more hmore]
    rfl

theorem reads_nameSet (s : NameSet) : Reads nameSet? (.strings s.names) s := by
  intro d hd
  rw [nameSet?, reads_list reads_str s.names d hd, Option.map_some, NameSet.ofList_names]

end Document

end Runbook
