/-!
# Tables and sets sorted by name

Finite collections of strings that are always shown in code-point order, so that two of
them are equal as soon as they hold the same things:

* `Fields.put`: writes one entry of a list of fields, in its sorted place
* `Table`: a list of fields whose keys strictly increase
* `NameSet`: a list of names that strictly increase
-/

namespace Runbook

/-! ## Lists of fields -/

/-- The keys of the fields strictly increase. -/
def Fields.Increasing {α : Type} (fields : List (String × α)) : Prop :=
  fields.Pairwise fun a b => a.1 < b.1

/-- Writes `key` in its sorted place, over an entry of that name if there is one. -/
def Fields.put {α : Type} (key : String) (value : α) : List (String × α) → List (String × α)
  | [] => [(key, value)]
  | (k, v) :: rest =>
    if key < k then (key, value) :: (k, v) :: rest
    else if key = k then (key, value) :: rest
    else (k, v) :: put key value rest

/-- The value of the first entry named `key`. -/
def Fields.get? {α : Type} (fields : List (String × α)) (key : String) : Option α :=
  (fields.find? fun f => f.1 = key).map Prod.snd

/-- The fields in sorted order; of two entries with one name the later one counts. -/
def Fields.sorted {α : Type} (fields : List (String × α)) : List (String × α) :=
  fields.foldl (fun acc f => put f.1 f.2 acc) []

theorem Fields.mem_put {α : Type} {key : String} {value : α} {x : String × α} :
    ∀ {fields : List (String × α)}, x ∈ put key value fields → x = (key, value) ∨ x ∈ fields
  | [], h => by simpa [put] using h
  | (k, v) :: rest, h => by
    rw [put] at h
    split at h
    · simpa using h
    · split at h
      · rcases List.mem_cons.mp h with h | h
        · exact Or.inl h
        · exact Or.inr (List.mem_cons_of_mem _ h)
      · rcases List.mem_cons.mp h with h | h
        · exact Or.inr (h ▸ List.mem_cons_self ..)
        · rcases mem_put h with h | h
          · exact Or.inl h
          · exact Or.inr (List.mem_cons_of_mem _ h)

theorem Fields.Increasing.put {α : Type} (key : String) (value : α) :
    ∀ {fields : List (String × α)}, Increasing fields → Increasing (Fields.put key value fields)
  | [], _ => by simp [Fields.put, Increasing]
  | (k, v) :: rest, h => by
    have hr := List.pairwise_cons.mp h
    rw [Fields.put]
    split
    · rename_i hlt
      refine List.pairwise_cons.mpr ⟨?_, h⟩
      intro x hx
      rcases List.mem_cons.mp hx with rfl | hx
      · exact hlt
      · exact String.lt_trans hlt (hr.1 x hx)
    · rename_i hnlt
      split
      · rename_i heq
        subst heq
        exact List.pairwise_cons.mpr ⟨hr.1, hr.2⟩
      · rename_i hne
        refine List.pairwise_cons.mpr ⟨?_, put key value hr.2⟩
        intro x hx
        rcases mem_put hx with rfl | hx
        · rcases Decidable.em (k < key) with hk | hk
          · exact hk
          · exact absurd (String.le_antisymm (String.not_lt.mp hk) (String.not_lt.mp hnlt)) hne
        · exact hr.1 x hx

/-- Of two values written under one key the later one counts. -/
theorem Fields.put_put {α : Type} (key : String) (a b : α) :
    ∀ fields : List (String × α), put key b (put key a fields) = put key b fields
  | [] => by simp [put]
  | (k, v) :: rest => by
    by_cases hlt : key < k
    · simp [put, hlt]
    · by_cases heq : key = k
      · simp [put, heq]
      · simp [put, hlt, heq, put_put key a b rest]

/-- To write what is there already changes nothing. -/
theorem Fields.put_of_get? {α : Type} {key : String} {value : α} :
    ∀ {fields : List (String × α)}, Increasing fields → get? fields key = some value →
      put key value fields = fields
  | [], _, h => by simp [get?] at h
  | (k, v) :: rest, hinc, h => by
    obtain ⟨hfirst, hrest⟩ := List.pairwise_cons.mp hinc
    by_cases hk : k = key
    · subst hk
      obtain rfl : v = value := by simpa [get?] using h
      rw [put, if_neg (String.lt_irrefl _), if_pos rfl]
    · have hget : get? rest key = some value := by simpa [get?, hk] using h
      obtain ⟨entry, hentry, -⟩ := Option.map_eq_some_iff.mp hget
      have hname : entry.1 = key := by simpa using List.find?_some hentry
      have hlt : k < key := hname ▸ hfirst entry (List.mem_of_find?_eq_some hentry)
      simp [put, String.lt_asymm hlt, Ne.symm hk, put_of_get? hrest hget]

theorem Fields.increasing_sorted {α : Type} (fields : List (String × α)) :
    Increasing (sorted fields) := by
  suffices h : ∀ (fields acc : List (String × α)), Increasing acc →
      Increasing (fields.foldl (fun acc f => Fields.put f.1 f.2 acc) acc) from
    h fields [] List.Pairwise.nil
  intro fields
  induction fields with
  | nil => exact fun _ h => h
  | cons f rest ih => exact fun acc h => ih _ (h.put f.1 f.2)

/-! ## Tables -/

/-- A finite table from names to values, in key order. -/
structure Table (α : Type) where
  /-- the entries, sorted by key -/
  entries : List (String × α)
  /-- no key occurs twice and the keys are in order -/
  increasing : Fields.Increasing entries

namespace Table

variable {α : Type}

/-- The table with no entries. -/
def empty : Table α := ⟨[], List.Pairwise.nil⟩

instance : Inhabited (Table α) := ⟨empty⟩

instance [DecidableEq α] : DecidableEq (Table α) := fun a b =>
  if h : a.entries = b.entries then
    isTrue (by cases a; cases b; cases h; rfl)
  else
    isFalse fun hab => h (hab ▸ rfl)

/-- The table of a list of entries; of two entries with one name the later one counts. -/
def ofList (entries : List (String × α)) : Table α :=
  ⟨Fields.sorted entries, Fields.increasing_sorted entries⟩

/-- The value under `key`. -/
def get? (t : Table α) (key : String) : Option α := Fields.get? t.entries key

/-- The table with `value` written under `key`. -/
def insert (t : Table α) (key : String) (value : α) : Table α :=
  ⟨Fields.put key value t.entries, t.increasing.put key value⟩

/-- The table without `key`. -/
def erase (t : Table α) (key : String) : Table α :=
  ⟨t.entries.filter fun e => e.1 ≠ key, t.increasing.filter _⟩

/-- The keys in order. -/
def keys (t : Table α) : List String := t.entries.map Prod.fst

/-- The table with the value under `key`, if there is one, changed by `f`. -/
def modify (t : Table α) (key : String) (f : α → α) : Table α :=
  match t.get? key with
  | some value => t.insert key (f value)
  | none => t

theorem get?_insert_self (t : Table α) (key : String) (value : α) :
    (t.insert key value).get? key = some value := by
  obtain ⟨entries, h⟩ := t
  simp only [get?, insert, Fields.get?]
  clear h
  induction entries with
  | nil => simp [Fields.put]
  | cons e rest ih =>
    obtain ⟨k, v⟩ := e
    rw [Fields.put]
    split
    · simp
    · split
      · simp
      · rename_i hne
        rw [List.find?_cons_of_neg (by simpa using fun h => hne h.symm)]
        exact ih

theorem get?_insert_of_ne (t : Table α) {key other : String} (value : α) (hne : other ≠ key) :
    (t.insert key value).get? other = t.get? other := by
  obtain ⟨entries, h⟩ := t
  simp only [get?, insert, Fields.get?]
  clear h
  have hne' : ¬ key = other := fun h => hne h.symm
  induction entries with
  | nil => simp [Fields.put, hne']
  | cons e rest ih =>
    obtain ⟨k, v⟩ := e
    rw [Fields.put]
    split
    · rw [List.find?_cons_of_neg (by simpa using hne')]
    · split
      · rename_i heq
        subst heq
        rw [List.find?_cons_of_neg (by simpa using hne'),
          List.find?_cons_of_neg (by simpa using hne')]
      · rcases Decidable.em (k = other) with hk | hk
        · rw [List.find?_cons_of_pos (by simpa using hk),
            List.find?_cons_of_pos (by simpa using hk)]
        · rw [List.find?_cons_of_neg (by simpa using hk),
            List.find?_cons_of_neg (by simpa using hk)]
          exact ih

theorem insert_of_get? {t : Table α} {key : String} {value : α} (h : t.get? key = some value) :
    t.insert key value = t := by
  obtain ⟨entries, hinc⟩ := t
  simp only [insert, Fields.put_of_get? hinc h]

theorem insert_insert (t : Table α) (key : String) (a b : α) :
    (t.insert key a).insert key b = t.insert key b := by
  simp only [insert, Fields.put_put]

end Table

/-! ## Sets of names -/

/-- A finite set of names, in order. -/
structure NameSet where
  /-- the names, sorted -/
  names : List String
  /-- no name occurs twice and the names are in order -/
  increasing : names.Pairwise (· < ·)

namespace NameSet

/-- The set with no names. -/
def empty : NameSet := ⟨[], List.Pairwise.nil⟩

instance : Inhabited NameSet := ⟨empty⟩

instance : DecidableEq NameSet := fun a b =>
  if h : a.names = b.names then
    isTrue (by cases a; cases b; cases h; rfl)
  else
    isFalse fun hab => h (hab ▸ rfl)

/-- The set of the names in a list. -/
def ofList (names : List String) : NameSet :=
  let table := Table.ofList (names.map fun n => (n, ()))
  ⟨table.keys, List.pairwise_map.mpr table.increasing⟩

/-- Whether a name belongs to the set. -/
def contains (s : NameSet) (name : String) : Bool := s.names.contains name

/-- Whether the set has no names. -/
def isEmpty (s : NameSet) : Bool := s.names.isEmpty

/-- The set of the images of the names. -/
def map (s : NameSet) (f : String → String) : NameSet := ofList (s.names.map f)

end NameSet

end Runbook
