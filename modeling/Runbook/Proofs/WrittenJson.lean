import Mathlib.Data.List.Basic
import Mathlib.Data.List.TakeWhile
import Runbook.Json.Printer
import Runbook.Json.Reader

/-!
# Written values read back

What is written for a value, one item or field a line, is read as the document of that value, but
for the parts that are nested too deeply. This goes for values whose numbers read back one by one.

* `Document.quoted?_quoted`: a text in quotes reads as the text, whatever its characters
* `Document.number?_append`: a number is read up to where it ends
* `Json.Number.Legible`, `Json.Legible`: numbers read back as they are written
* `Json.Number.legible_whole`: whole numbers that fit 64 bits do
* `Json.seen`: what is read of a value where so many arrays and objects may be opened
* `Document.ReadsBack`, `Document.readsBack`: a value is read at the front of what follows it
* `Document.read?_pretty_seen`: so a text with nothing else in it holds what is seen of the value
* `Document.read?_pretty`: which is the value's document unless it is nested too deeply
-/

namespace Runbook

namespace Document

/-! ## Quoted texts -/

/-- What follows a character is read as if it stood alone. -/
theorem pieces?_escaped {c e : Char} (h : escaped? c = some e) (cs : List Char) :
    pieces? ('\\' :: c :: cs) = (pieces? cs).map fun p => (.char e :: p.1, p.2) := by
  have hcode : ¬ c = 'u' := by
    rintro rfl
    cases h
  rw [pieces?, h]
  · cases pieces? cs <;> rfl
  · exact fun _ _ _ _ _ hu _ => hcode hu

/-- Four digits stand for a character that has no sign of its own. -/
theorem hexQuad?_hexDigit : ∀ n < 0x20, hexQuad? '0' '0' (Json.hexDigit (n / 16))
    (Json.hexDigit (n % 16)) = some n := by decide

theorem pieces?_quotedChar (c : Char) (cs : List Char) :
    pieces? (Json.quotedChar c ++ cs) = (pieces? cs).map fun p => (.char c :: p.1, p.2) := by
  rw [Json.quotedChar]
  split
  · subst c
    exact pieces?_escaped rfl cs
  split
  · subst c
    exact pieces?_escaped rfl cs
  split
  · subst c
    exact pieces?_escaped rfl cs
  split
  · subst c
    exact pieces?_escaped rfl cs
  split
  · subst c
    exact pieces?_escaped rfl cs
  split
  · subst c
    exact pieces?_escaped rfl cs
  split
  · subst c
    exact pieces?_escaped rfl cs
  split
  · rename_i hcontrol
    have hcode : Piece.ofCode c.toNat = .char c := by
      rw [Piece.ofCode, if_neg (by omega), Char.ofNat_toNat]
    show pieces? ('\\' :: 'u' :: '0' :: '0' :: _ :: _ :: cs) = _
    rw [pieces?, hexQuad?_hexDigit c.toNat hcontrol, ← hcode]
    cases pieces? cs <;> rfl
  · rename_i hquote hback _ _ _ _ _ hcontrol
    rw [List.singleton_append, pieces?, if_neg hcontrol]
    · cases pieces? cs <;> rfl
    · exact hquote
    · exact fun _ _ _ _ _ heq _ => hback heq
    · exact fun _ _ heq _ => hback heq

theorem join?_map_char (cs : List Char) : Piece.join? (cs.map .char) = some cs := by
  induction cs with
  | nil => rfl
  | cons c cs ih => rw [List.map_cons, Piece.join?, ih, Option.map_some]

/-- A text is read up to the quote that closes it. -/
theorem pieces?_quoted (cs rest : List Char) :
    pieces? (cs.flatMap Json.quotedChar ++ '"' :: rest) = some (cs.map .char, rest) := by
  induction cs with
  | nil => rw [List.flatMap_nil, List.nil_append, pieces?, List.map_nil]
  | cons c cs ih =>
    rw [List.flatMap_cons, List.append_assoc, pieces?_quotedChar, ih, Option.map_some,
      List.map_cons]

theorem toList_quoted (s : String) :
    (Json.quoted s).toList = '"' :: (s.toList.flatMap Json.quotedChar ++ ['"']) := by
  rw [Json.quoted, String.toList_ofList]
  rfl

/-- A text in quotes reads as the text. -/
theorem quoted?_quoted (s : String) (rest : List Char) :
    quoted? (s.toList.flatMap Json.quotedChar ++ '"' :: rest) = some (some s, rest) := by
  have hjoin : (Piece.join? (s.toList.map .char)).map String.ofList = some s := by
    rw [join?_map_char, Option.map_some, String.ofList_toList]
  rw [quoted?, pieces?_quoted]
  show some ((Piece.join? (s.toList.map .char)).map String.ofList, rest) = _
  rw [hjoin]

/-! ## Numbers -/

/-- A number without its sign, and the rest. -/
def unsigned? (negative : Bool) (cs : List Char) : Option (Document × List Char) := do
  let (whole, cs) ← digits? cs
  if whole.head? = some '0' ∧ whole ≠ ['0'] then none
  else
    let (fraction, cs) ← fraction? cs
    let (exponent, exponentNegative, cs) ← exponent? cs
    match numberOf? negative whole fraction exponent exponentNegative with
    | some n => return (.num n, cs)
    | none => return (.beyond, cs)

theorem number?_minus (cs : List Char) : number? ('-' :: cs) = unsigned? true cs := rfl

theorem number?_cons {c : Char} (hc : ¬ c = '-') (cs : List Char) :
    number? (c :: cs) = unsigned? false (c :: cs) := by
  have hsign : ∀ rest, c :: cs = '-' :: rest → False := fun _ heq => hc (List.cons.inj heq).1
  exact number?.eq_2 (c :: cs) hsign

/-- A number ends where these characters begin. -/
def EndsNumber (rest : List Char) : Prop :=
  ∀ c ∈ rest.head?, c.isDigit = false ∧ c ≠ '.' ∧ c ≠ 'e' ∧ c ≠ 'E'

theorem endsNumber_nil : EndsNumber [] := by
  rintro c ⟨⟩

theorem endsNumber_cons {c : Char} (hc : c.isDigit = false ∧ c ≠ '.' ∧ c ≠ 'e' ∧ c ≠ 'E')
    (rest : List Char) : EndsNumber (c :: rest) := by
  rintro _ ⟨⟩
  exact hc

section

variable {cs left rest : List Char} (hrest : EndsNumber rest)

include hrest

/-- The same digits are read at the front, whatever follows the number. -/
theorem digits?_append {ds : List Char} (h : digits? cs = some (ds, left)) :
    digits? (cs ++ rest) = some (ds, left ++ rest) := by
  have htake : rest.takeWhile Char.isDigit = [] := by
    cases rest with
    | nil => rfl
    | cons c rest => rw [List.takeWhile_cons, (hrest c rfl).1]; rfl
  have hdrop : rest.dropWhile Char.isDigit = rest := by
    cases rest with
    | nil => rfl
    | cons c rest => rw [List.dropWhile_cons, (hrest c rfl).1]; rfl
  have hsame : (cs ++ rest).takeWhile Char.isDigit = cs.takeWhile Char.isDigit := by
    rw [List.takeWhile_append, htake, List.append_nil]
    split
    · exact ((List.takeWhile_prefix _).eq_of_length ‹_›).symm
    · rfl
  have hleft : (cs ++ rest).dropWhile Char.isDigit = cs.dropWhile Char.isDigit ++ rest := by
    rw [List.dropWhile_append, hdrop]
    split
    · rename_i hnil
      rw [List.isEmpty_iff.mp hnil, List.nil_append]
    · rfl
  rw [digits?] at h ⊢
  rw [hsame, hleft]
  split at h
  · cases h
  · cases h
    rfl

theorem fraction?_append {ds : Option (List Char)} (h : fraction? cs = some (ds, left)) :
    fraction? (cs ++ rest) = some (ds, left ++ rest) := by
  cases cs with
  | nil =>
    cases h
    cases rest with
    | nil => rfl
    | cons c rest =>
      rw [List.nil_append, fraction?]
      exact fun more heq => (hrest c rfl).2.1 (List.cons.inj heq).1
  | cons c cs =>
    by_cases hpoint : c = '.'
    · subst c
      rw [fraction?] at h
      obtain ⟨⟨ds', left'⟩, hdigits, heq⟩ := Option.map_eq_some_iff.mp h
      cases heq
      rw [List.cons_append, fraction?, digits?_append hrest hdigits]
      rfl
    · have hother : ∀ more more' : List Char, c :: more ≠ '.' :: more' := fun _ _ heq =>
        hpoint (List.cons.inj heq).1
      rw [fraction?.eq_2 _ (hother cs)] at h
      cases h
      rw [List.cons_append, fraction?.eq_2 _ (hother (cs ++ rest))]

theorem exponent?_append {ds : Option (List Char)} {negative : Bool}
    (h : exponent? cs = some (ds, negative, left)) :
    exponent? (cs ++ rest) = some (ds, negative, left ++ rest) := by
  cases cs with
  | nil =>
    cases h
    cases rest with
    | nil => rfl
    | cons c rest =>
      have hletter : ¬ (c = 'e' ∨ c = 'E') := fun heq =>
        heq.elim (hrest c rfl).2.2.1 (hrest c rfl).2.2.2
      rw [List.nil_append, exponent?.eq_def]
      exact if_neg hletter
  | cons c cs =>
    rw [exponent?.eq_def] at h ⊢
    simp only [List.cons_append] at h ⊢
    split at h
    · rename_i hletter
      rw [if_pos hletter]
      have hread : ∀ {sign : Bool} {more : List Char},
          ((digits? more).map fun (ds, rest) => (some ds, sign, rest)) = some (ds, negative, left) →
          ((digits? (more ++ rest)).map fun (ds, rest) => (some ds, sign, rest)) =
            some (ds, negative, left ++ rest) := by
        intro sign more hmore
        obtain ⟨⟨ds', left'⟩, hdigits, heq⟩ := Option.map_eq_some_iff.mp hmore
        cases heq
        rw [digits?_append hrest hdigits]
        rfl
      split at h
      · exact hread h
      · exact hread h
      · -- the exponent has a digit, and so no sign comes first with the rest either
        rename_i hminus hplus
        cases cs with
        | nil => cases h
        | cons d cs =>
          have hd : ¬ d = '-' := fun heq => hminus cs (heq ▸ rfl)
          have hd' : ¬ d = '+' := fun heq => hplus cs (heq ▸ rfl)
          rw [List.cons_append]
          split
          · exact absurd (List.cons.inj ‹_›).1 hd
          · exact absurd (List.cons.inj ‹_›).1 hd'
          · exact hread h
    · rename_i hletter
      cases h
      rw [if_neg hletter]
      rfl

theorem unsigned?_append {negative : Bool} {doc : Document}
    (h : unsigned? negative cs = some (doc, left)) :
    unsigned? negative (cs ++ rest) = some (doc, left ++ rest) := by
  rw [unsigned?] at h ⊢
  obtain ⟨⟨whole, afterWhole⟩, hwhole, h⟩ := Option.bind_eq_some_iff.mp h
  rw [digits?_append hrest hwhole, Option.bind_eq_bind, Option.bind_some]
  simp only at h ⊢
  split at h
  · cases h
  · rename_i hzero
    obtain ⟨⟨fraction, afterFraction⟩, hfraction, h⟩ := Option.bind_eq_some_iff.mp h
    obtain ⟨⟨exponent, sign, afterExponent⟩, hexponent, h⟩ := Option.bind_eq_some_iff.mp h
    rw [if_neg hzero, fraction?_append hrest hfraction, Option.bind_eq_bind, Option.bind_some,
      exponent?_append hrest hexponent, Option.bind_eq_bind, Option.bind_some]
    simp only at h ⊢
    split at h <;> cases h <;> rfl

/-- A number is read up to where it ends. -/
theorem number?_append {doc : Document} (h : number? cs = some (doc, left)) :
    number? (cs ++ rest) = some (doc, left ++ rest) := by
  cases cs with
  | nil => cases h
  | cons c cs =>
    rw [List.cons_append]
    by_cases hminus : c = '-'
    · subst c
      rw [number?_minus] at h ⊢
      exact unsigned?_append hrest h
    · rw [number?_cons hminus] at h ⊢
      exact unsigned?_append hrest h

end

/-! ## Whole numbers -/

theorem le_ofDigitChars (ds : List Char) : ∀ n, n ≤ Nat.ofDigitChars 10 ds n := by
  induction ds with
  | nil => exact fun n => Nat.le_refl n
  | cons c rest ih =>
    intro n
    rw [Nat.ofDigitChars_cons]
    exact Nat.le_trans (by omega) (ih _)

/-- Digits are all taken in if their value fits 64 bits. -/
theorem takeIn_eq (ds : List Char) : ∀ {n : Nat}, Nat.ofDigitChars 10 ds n < UInt64.size →
    takeIn ds n = (Nat.ofDigitChars 10 ds n, []) := by
  induction ds with
  | nil => exact fun _ => rfl
  | cons c rest ih =>
    intro n h
    rw [Nat.ofDigitChars_cons] at h ⊢
    have hfits : 10 * n + digit c < UInt64.size := Nat.lt_of_le_of_lt (le_ofDigitChars rest _) h
    rw [takeIn, if_pos hfits]
    exact ih h

/-- Only zero is written with a zero in front. -/
theorem head?_toDigits_ne {n : Nat} (h : 0 < n) : (Nat.toDigits 10 n).head? ≠ some '0' := by
  induction n using Nat.strongRecOn with
  | ind n ih =>
    rw [Nat.toDigits_eq_if (by decide)]
    split
    · rw [List.head?_cons, Ne, Option.some_inj, Nat.digitChar_eq_zero]
      omega
    · rw [List.head?_append_of_ne_nil _ Nat.toDigits_ne_nil]
      exact ih (n / 10) (by omega) (by omega)

theorem digits?_toDigits (n : Nat) :
    digits? (Nat.toDigits 10 n) = some (Nat.toDigits 10 n, []) := by
  have hdigit : ∀ c ∈ Nat.toDigits 10 n, c.isDigit = true := fun c hc =>
    Nat.isDigit_of_mem_toDigits (by decide) (by decide) hc
  rw [digits?, List.takeWhile_eq_self_iff.mpr hdigit, List.dropWhile_eq_nil_iff.mpr hdigit]
  split
  · exact absurd ‹_› Nat.toDigits_ne_nil
  · rfl

/-- A whole number without its sign is read from its digits. -/
theorem unsigned?_toDigits {negative : Bool} {n : Nat} (hn : n < UInt64.size)
    (hnegative : negative = true → 0 < n ∧ n ≤ 0x8000000000000000) :
    unsigned? negative (Nat.toDigits 10 n) =
      some (.num (.whole (if negative then -n else n)), []) := by
  have hvalue : Nat.ofDigitChars 10 (Nat.toDigits 10 n) 0 = n :=
    Nat.ofDigitChars_toDigits (by decide) (by decide)
  have htake : takeIn (Nat.toDigits 10 n) 0 = (n, []) := by
    rw [takeIn_eq _ (by rwa [hvalue]), hvalue]
  have hzero : ¬ ((Nat.toDigits 10 n).head? = some '0' ∧ Nat.toDigits 10 n ≠ ['0']) := by
    rintro ⟨hhead, hmore⟩
    rcases Nat.eq_zero_or_pos n with rfl | hpos
    · exact hmore (Nat.toDigits_zero 10)
    · exact head?_toDigits_ne hpos hhead
  have hnumber : numberOf? negative (Nat.toDigits 10 n) none none false =
      some (.whole (if negative then -n else n)) := by
    rw [numberOf?, htake]
    cases negative with
    | false => rfl
    | true =>
      obtain ⟨hpos, hbound⟩ := hnegative rfl
      have hsigned : ¬ (n = 0 ∨ 0x8000000000000000 < n) := by omega
      simp only [if_true, if_neg hsigned]
  rw [unsigned?, digits?_toDigits, Option.bind_eq_bind, Option.bind_some]
  simp only [if_neg hzero, fraction?, exponent?, Option.bind_eq_bind, Option.bind_some, hnumber]
  rfl

end Document

/-! ## Numbers that read back -/

namespace Json

/-- The number is read from its text. -/
def Number.Legible (n : Number) : Prop := Document.number? n.text.toList = some (.num n, [])

/-- A whole number that fits 64 bits, with a sign if it is below zero, is read from its text. -/
theorem Number.legible_whole {i : Int} (hlow : -0x8000000000000000 ≤ i) (hhigh : i < UInt64.size) :
    (whole i).Legible := by
  cases i with
  | ofNat n =>
    obtain ⟨c, rest, heq⟩ := List.exists_cons_of_ne_nil (@Nat.toDigits_ne_nil n 10)
    have hdigit : c.isDigit = true :=
      Nat.isDigit_of_mem_toDigits (by decide) (by decide) (heq ▸ List.mem_cons_self)
    have hsign : ¬ c = '-' := by
      rintro rfl
      cases hdigit
    show Document.number? n.repr.toList = _
    rw [Nat.toList_repr, heq, Document.number?_cons hsign, ← heq]
    exact Document.unsigned?_toDigits (Int.ofNat_lt.mp hhigh) (by rintro ⟨⟩)
  | negSucc n =>
    have hbound : n + 1 ≤ 0x8000000000000000 := by omega
    have htext : (whole (.negSucc n)).text.toList = '-' :: Nat.toDigits 10 (n + 1) := by
      show ("-" ++ (n + 1).repr).toList = _
      rw [String.toList_append, Nat.toList_repr]
      rfl
    rw [Legible, htext, Document.number?_minus]
    exact Document.unsigned?_toDigits (Nat.lt_of_le_of_lt hbound (by decide))
      fun _ => ⟨Nat.succ_pos n, hbound⟩

mutual

/-- Every number in the value is read from its text. -/
def Legible : Json → Prop
  | num n => n.Legible
  | arr items => AllLegible items
  | obj fields => FieldsLegible fields
  | _ => True

/-- Every number in the items is. -/
def AllLegible : List Json → Prop
  | [] => True
  | item :: rest => Legible item ∧ AllLegible rest

/-- Every number in the fields is. -/
def FieldsLegible : List (String × Json) → Prop
  | [] => True
  | field :: rest => FieldLegible field ∧ FieldsLegible rest

/-- Every number in the field is. -/
def FieldLegible : String × Json → Prop
  | (_, value) => Legible value

end

theorem legible_nat {n : Nat} (h : n < UInt64.size) : (nat n).Legible :=
  Number.legible_whole (Int.le_trans (by decide) (Int.natCast_nonneg n)) (Int.ofNat_lt.mpr h)

theorem allLegible_map {α : Type} {write : α → Json} (as : List α)
    (h : ∀ a ∈ as, (write a).Legible) : AllLegible (as.map write) := by
  induction as with
  | nil => trivial
  | cons a rest ih =>
    obtain ⟨ha, hrest⟩ := List.forall_mem_cons.mp h
    exact ⟨ha, ih hrest⟩

/-! ## Room -/

mutual

/-- The document of a value as it is read where so many arrays and objects may be opened: those that
are too many stand for no value. -/
def seen (room : Nat) : Json → Document
  | arr items => Document.opened room (.arr (allSeen (room - 1) items))
  | obj fields => Document.opened room (.obj (fieldsSeen (room - 1) fields))
  | null => .null
  | bool b => .bool b
  | num n => .num n
  | str s => .str s

/-- The documents of the items. -/
def allSeen (room : Nat) : List Json → List Document
  | [] => []
  | item :: rest => seen room item :: allSeen room rest

/-- The documents of the fields. -/
def fieldsSeen (room : Nat) : List (String × Json) → List (String × Document)
  | [] => []
  | field :: rest => fieldSeen room field :: fieldsSeen room rest

/-- The document of the field. -/
def fieldSeen (room : Nat) : String × Json → String × Document
  | (key, value) => (key, seen room value)

end

mutual

/-- All of a value is seen if there is room for it. -/
theorem seen_of_depth_le : ∀ {j : Json} {room : Nat}, j.depth ≤ room → j.seen room = j.document
  | null, _, _ | bool _, _, _ | num _, _, _ | str _, _, _ => by rw [seen, document]
  | arr items, room, h => by
    rw [depth] at h
    have hopened : ∀ doc, Document.opened room doc = doc := fun doc => if_neg (by omega)
    rw [seen, document, hopened, allSeen_of_listDepth_le (by omega)]
  | obj fields, room, h => by
    rw [depth] at h
    have hopened : ∀ doc, Document.opened room doc = doc := fun doc => if_neg (by omega)
    rw [seen, document, hopened, fieldsSeen_of_fieldsDepth_le (by omega)]

/-- So are the items. -/
theorem allSeen_of_listDepth_le : ∀ {items : List Json} {room : Nat}, listDepth items ≤ room →
    allSeen room items = documents items
  | [], _, _ => rfl
  | _ :: _, _, h => by
    rw [listDepth] at h
    rw [allSeen, documents, seen_of_depth_le (by omega), allSeen_of_listDepth_le (by omega)]

/-- So are the fields. -/
theorem fieldsSeen_of_fieldsDepth_le : ∀ {fields : List (String × Json)} {room : Nat},
    fieldsDepth fields ≤ room → fieldsSeen room fields = fieldDocuments fields
  | [], _, _ => rfl
  | _ :: _, _, h => by
    rw [fieldsDepth] at h
    rw [fieldsSeen, fieldDocuments, fieldSeen_of_fieldDepth_le (by omega),
      fieldsSeen_of_fieldsDepth_le (by omega)]

/-- So is the field. -/
theorem fieldSeen_of_fieldDepth_le : ∀ {field : String × Json} {room : Nat},
    fieldDepth field ≤ room → fieldSeen room field = fieldDocument field
  | (_, _), _, h => by
    rw [fieldDepth] at h
    rw [fieldSeen, fieldDocument, seen_of_depth_le h]

end

mutual

/-- A value for which there is no room is not read. -/
theorem value?_seen_of_lt_depth : ∀ {j : Json} {room : Nat}, room < j.depth →
    (j.seen room).value? = none
  | null, _, h | bool _, _, h | num _, _, h | str _, _, h => by
    simp [depth] at h
  | arr items, room, h => by
    rw [depth] at h
    rw [seen, Document.opened]
    split
    · rfl
    · rw [Document.value?, values?_allSeen_of_lt_listDepth (by omega), Option.map_none]
  | obj fields, room, h => by
    rw [depth] at h
    rw [seen, Document.opened]
    split
    · rfl
    · rw [Document.value?, fieldValues?_fieldsSeen_of_lt_fieldsDepth (by omega), Option.map_none]

/-- Neither are items of which one has no room. -/
theorem values?_allSeen_of_lt_listDepth : ∀ {items : List Json} {room : Nat},
    room < listDepth items → Document.values? (allSeen room items) = none
  | [], _, h => by
    rw [listDepth] at h
    cases h
  | item :: rest, room, h => by
    rw [listDepth] at h
    rw [allSeen, Document.values?]
    by_cases hitem : room < item.depth
    · rw [value?_seen_of_lt_depth hitem]
      rfl
    · have hrest : room < listDepth rest := by omega
      rw [values?_allSeen_of_lt_listDepth hrest]
      cases (item.seen room).value? <;> rfl

/-- Nor are fields of which one has no room. -/
theorem fieldValues?_fieldsSeen_of_lt_fieldsDepth : ∀ {fields : List (String × Json)} {room : Nat},
    room < fieldsDepth fields → Document.fieldValues? (fieldsSeen room fields) = none
  | [], _, h => by
    rw [fieldsDepth] at h
    cases h
  | field :: rest, room, h => by
    rw [fieldsDepth] at h
    rw [fieldsSeen, Document.fieldValues?]
    by_cases hfield : room < fieldDepth field
    · rw [fieldValue?_fieldSeen_of_lt_fieldDepth hfield]
      rfl
    · have hrest : room < fieldsDepth rest := by omega
      rw [fieldValues?_fieldsSeen_of_lt_fieldsDepth hrest]
      cases Document.fieldValue? (fieldSeen room field) <;> rfl

/-- Nor is a field whose value has no room. -/
theorem fieldValue?_fieldSeen_of_lt_fieldDepth : ∀ {field : String × Json} {room : Nat},
    room < fieldDepth field → Document.fieldValue? (fieldSeen room field) = none
  | (_, _), _, h => by
    rw [fieldDepth] at h
    rw [fieldSeen, Document.fieldValue?, value?_seen_of_lt_depth h]
    rfl

end

/-! ## Lines -/

/-- Parts on lines of their own, with commas between them. -/
def lines (level : Nat) (parts : List String) : List Char :=
  (("," ++ lineBreak level).intercalate parts).toList

theorem lines_singleton (level : Nat) (part : String) : lines level [part] = part.toList := by
  rw [lines, String.intercalate_singleton]

theorem lines_cons_cons (level : Nat) (part next : String) (rest : List String) :
    lines level (part :: next :: rest) =
      part.toList ++ ',' :: ((lineBreak level).toList ++ lines level (next :: rest)) := by
  rw [lines, String.intercalate_cons_cons, String.toList_append, String.toList_append,
    String.toList_append, List.append_assoc, List.append_assoc]
  rfl

theorem toList_lineBreak (level : Nat) :
    (lineBreak level).toList = '\n' :: List.replicate (2 * level) ' ' := by
  rw [lineBreak, String.toList_append, @String.toList_ofList (List.replicate ..)]
  rfl

theorem toList_block_nil (level : Nat) (opening closing : String) :
    (block level opening closing []).toList = opening.toList ++ closing.toList := by
  rw [block, List.isEmpty_nil, if_pos rfl, String.toList_append]

theorem toList_block (level : Nat) (opening closing part : String) (rest : List String) :
    (block level opening closing (part :: rest)).toList =
      opening.toList ++ ((lineBreak (level + 1)).toList ++ (lines (level + 1) (part :: rest) ++
        ((lineBreak level).toList ++ closing.toList))) := by
  rw [block, List.isEmpty_cons, if_neg Bool.false_ne_true]
  simp only [String.toList_append, List.append_assoc]
  rfl

/-- A value does not begin with a blank or a closing bracket. -/
def Opens (cs : List Char) : Prop :=
  ∃ c rest, cs = c :: rest ∧ Document.isBlank c = false ∧ c ≠ ']'

end Json

namespace Document

open Json (lineBreak lines prettyAt prettyItems prettyFields prettyField)

/-! ## Blanks -/

theorem skipBlanks_lineBreak (level : Nat) (cs : List Char) :
    skipBlanks ((lineBreak level).toList ++ cs) = skipBlanks cs := by
  refine List.dropWhile_append_of_pos fun c hc => ?_
  rw [Json.toList_lineBreak, List.mem_cons] at hc
  rcases hc with rfl | hc
  · rfl
  · rw [List.eq_of_mem_replicate hc]
    rfl

theorem skipBlanks_cons {c : Char} (hc : isBlank c = false) (cs : List Char) :
    skipBlanks (c :: cs) = c :: cs := by
  rw [skipBlanks, List.dropWhile_cons, hc, if_neg Bool.false_ne_true]

/-- Blanks at the front make no difference. -/
theorem value_congr {cs cs' : List Char} (h : skipBlanks cs = skipBlanks cs') (room fuel : Nat) :
    value room fuel cs = value room fuel cs' := by
  cases fuel with
  | zero => rw [value, value]
  | succ fuel => rw [value, value, h]

theorem values_congr {cs cs' : List Char} (h : skipBlanks cs = skipBlanks cs') (room fuel : Nat) :
    values room fuel cs = values room fuel cs' := by
  cases fuel with
  | zero => rw [values, values]
  | succ fuel => rw [values, values, value_congr h]

theorem members_congr {cs cs' : List Char} (h : skipBlanks cs = skipBlanks cs') (room fuel : Nat) :
    members room fuel cs = members room fuel cs' := by
  cases fuel with
  | zero => rw [members, members]
  | succ fuel => rw [members, members, h]

theorem endsNumber_lineBreak (level : Nat) (cs : List Char) :
    EndsNumber ((lineBreak level).toList ++ cs) := by
  rw [Json.toList_lineBreak]
  exact endsNumber_cons (by decide) _

/-! ## The front of a value -/

variable {room fuel : Nat} {c : Char} {cs rest : List Char}

theorem value_quoted (room fuel : Nat) (s : String) (rest : List Char) :
    value room (fuel + 1) ((Json.quoted s).toList ++ rest) = some (.str s, rest) := by
  rw [toList_quoted, List.cons_append, List.append_assoc, value]
  show (quoted? (s.toList.flatMap Json.quotedChar ++ '"' :: rest) >>= _) = _
  rw [quoted?_quoted]
  rfl

theorem value_array (hc : c ≠ ']') (hcs : skipBlanks cs = c :: rest) :
    value room (fuel + 1) ('[' :: cs) =
      (values (room - 1) fuel (c :: rest)).map fun p => (opened room (.arr p.1), p.2) := by
  have hskip : skipBlanks ('[' :: cs) = '[' :: cs := rfl
  simp only [value, hskip, hcs]
  split
  · exact absurd (List.cons.inj ‹_›).1 hc
  · cases values (room - 1) fuel (c :: rest) <;> rfl

theorem value_object (hc : c ≠ '}') (hcs : skipBlanks cs = c :: rest) :
    value room (fuel + 1) ('{' :: cs) =
      (members (room - 1) fuel (c :: rest)).map fun p => (opened room (ofFields p.1), p.2) := by
  have hskip : skipBlanks ('{' :: cs) = '{' :: cs := rfl
  simp only [value, hskip, hcs]
  split
  · exact absurd (List.cons.inj ‹_›).1 hc
  · cases members (room - 1) fuel (c :: rest) <;> rfl

theorem ofFields_map_some (fields : List (String × Document)) :
    ofFields (fields.map fun f => (some f.1, f.2)) = .obj fields := by
  have hall : (fields.map fun f => (some f.1, f.2)).mapM
      (fun f : Option String × Document => f.1.map (·, f.2)) = some fields := by
    induction fields with
    | nil => rfl
    | cons f fields ih =>
      rw [List.map_cons, List.mapM_cons, ih]
      rfl
  rw [ofFields]
  simp only [hall]

/-! ## Values -/

/-- A number begins with a minus sign or a digit. -/
theorem number?_front {doc : Document} (h : number? cs = some (doc, rest)) :
    ∃ c more, cs = c :: more ∧ (c = '-' ∨ c.isDigit = true) := by
  cases cs with
  | nil => cases h
  | cons c cs =>
    refine ⟨c, cs, rfl, ?_⟩
    by_cases hminus : c = '-'
    · exact .inl hminus
    · rw [number?_cons hminus] at h
      obtain ⟨⟨whole, left⟩, hwhole, -⟩ := Option.bind_eq_some_iff.mp h
      rw [digits?, List.takeWhile_cons] at hwhole
      cases hdigit : c.isDigit with
      | true => exact .inr rfl
      | false =>
        rw [hdigit] at hwhole
        cases hwhole

theorem isBlank_of_number (hc : c = '-' ∨ c.isDigit = true) : isBlank c = false := by
  have hne : ∀ d : Char, d ≠ '-' → d.isDigit = false → ¬ c = d := by
    rintro d hminus hdigit rfl
    exact hc.elim hminus fun h => Bool.false_ne_true (hdigit.symm.trans h)
  simp only [isBlank, Bool.or_eq_false_iff, decide_eq_false_iff_not]
  exact ⟨⟨⟨hne _ (by decide) (by decide), hne _ (by decide) (by decide)⟩,
    hne _ (by decide) (by decide)⟩, hne _ (by decide) (by decide)⟩

theorem value_number {n : Json.Number} (h : n.Legible) (hrest : EndsNumber rest) :
    value room (fuel + 1) (n.text.toList ++ rest) = some (.num n, rest) := by
  have hread := number?_append hrest h
  obtain ⟨c, more, heq, hc⟩ := number?_front h
  have hne : ∀ d : Char, d ≠ '-' → d.isDigit = false → ¬ c = d := by
    rintro d hminus hdigit rfl
    exact hc.elim hminus fun h => Bool.false_ne_true (hdigit.symm.trans h)
  rw [heq, List.cons_append] at hread ⊢
  rw [value, skipBlanks_cons (isBlank_of_number hc)]
  split
  all_goals first
    | exact absurd (List.cons.inj ‹_›).1 (hne _ (by decide) (by decide))
    | exact hread

/-- A value that is written does not begin with a blank or a closing bracket. -/
theorem opens_prettyAt : ∀ {j : Json}, j.Legible → ∀ level, Json.Opens (prettyAt level j).toList
  | .null, _, level => by
    rw [prettyAt]
    exact ⟨'n', _, rfl, rfl, by decide⟩
  | .bool true, _, level => by
    rw [prettyAt]
    exact ⟨'t', _, rfl, rfl, by decide⟩
  | .bool false, _, level => by
    rw [prettyAt]
    exact ⟨'f', _, rfl, rfl, by decide⟩
  | .num n, h, level => by
    obtain ⟨c, more, heq, hc⟩ := number?_front h
    rw [prettyAt, heq]
    refine ⟨c, more, rfl, isBlank_of_number hc, ?_⟩
    rintro rfl
    exact absurd hc (by decide)
  | .str s, _, level => by
    rw [prettyAt, toList_quoted]
    exact ⟨'"', _, rfl, rfl, by decide⟩
  | .arr items, _, level => by
    rw [prettyAt, Json.block]
    split <;> simp only [String.toList_append] <;> exact ⟨'[', _, rfl, rfl, by decide⟩
  | .obj fields, _, level => by
    rw [prettyAt, Json.block]
    split <;> simp only [String.toList_append] <;> exact ⟨'{', _, rfl, rfl, by decide⟩

theorem opens_lines {item : Json} (h : item.Legible) (level : Nat) (more : List Json) :
    Json.Opens (lines level (prettyItems level (item :: more))) := by
  obtain ⟨c, front, heq, hc⟩ := opens_prettyAt h level
  cases more with
  | nil =>
    rw [prettyItems, prettyItems, Json.lines_singleton, heq]
    exact ⟨c, front, rfl, hc⟩
  | cons next more =>
    rw [prettyItems, prettyItems, Json.lines_cons_cons, heq]
    exact ⟨c, _, rfl, hc⟩

theorem toList_prettyField (level : Nat) (key : String) (value : Json) :
    (prettyField level (key, value)).toList =
      '"' :: (key.toList.flatMap Json.quotedChar ++ '"' :: ':' :: ' ' ::
        (prettyAt level value).toList) := by
  have hcolon : ": ".toList = [':', ' '] := rfl
  rw [prettyField, String.toList_append, String.toList_append, toList_quoted, hcolon]
  simp only [List.cons_append, List.append_assoc, List.nil_append]

theorem quote_lines (level : Nat) (field : String × Json) (more : List (String × Json)) :
    ∃ front, lines level (prettyFields level (field :: more)) = '"' :: front := by
  obtain ⟨key, value⟩ := field
  cases more with
  | nil =>
    rw [prettyFields, prettyFields, Json.lines_singleton, toList_prettyField]
    exact ⟨_, rfl⟩
  | cons next more =>
    rw [prettyFields, prettyFields, Json.lines_cons_cons, toList_prettyField]
    exact ⟨_, rfl⟩

theorem toList_prettyAt_arr (level : Nat) (item : Json) (more : List Json) :
    (prettyAt level (.arr (item :: more))).toList = '[' :: ((lineBreak (level + 1)).toList ++
      (lines (level + 1) (prettyItems (level + 1) (item :: more)) ++
        ((lineBreak level).toList ++ [']']))) := by
  rw [prettyAt, prettyItems, Json.toList_block]
  rfl

theorem toList_prettyAt_obj (level : Nat) (field : String × Json) (more : List (String × Json)) :
    (prettyAt level (.obj (field :: more))).toList = '{' :: ((lineBreak (level + 1)).toList ++
      (lines (level + 1) (prettyFields (level + 1) (field :: more)) ++
        ((lineBreak level).toList ++ ['}']))) := by
  rw [prettyAt, prettyFields, Json.toList_block]
  rfl

/-- What there is room for is read at the front of what follows the value. -/
def ReadsBack (j : Json) : Prop :=
  ∀ ⦃level room fuel : Nat⦄ ⦃rest : List Char⦄,
    2 * (prettyAt level j).toList.length < fuel → EndsNumber rest →
    value room fuel ((prettyAt level j).toList ++ rest) = some (j.seen room, rest)

/-- Items are read up to the bracket that closes the array. -/
theorem values_prettyItems {level inner : Nat} {rest : List Char} (more : List Json) :
    ∀ {item : Json} {room fuel : Nat}, (∀ j ∈ item :: more, ReadsBack j) →
      2 * (lines level (prettyItems level (item :: more))).length + 1 < fuel →
      values room fuel (lines level (prettyItems level (item :: more)) ++
        ((lineBreak inner).toList ++ ']' :: rest)) =
          some (Json.allSeen room (item :: more), rest) := by
  induction more with
  | nil =>
    intro item room fuel hitems hfuel
    obtain ⟨fuel, rfl⟩ := Nat.exists_eq_succ_of_ne_zero (Nat.ne_zero_of_lt hfuel)
    rw [prettyItems, prettyItems, Json.lines_singleton] at hfuel ⊢
    have hitem := hitems item (List.mem_cons_self ..)
    rw [values, hitem (by omega) (endsNumber_lineBreak _ _), Option.bind_eq_bind, Option.bind_some]
    simp only [skipBlanks_lineBreak, skipBlanks_cons (c := ']') rfl]
    rfl
  | cons next more ih =>
    intro item room fuel hitems hfuel
    obtain ⟨fuel, rfl⟩ := Nat.exists_eq_succ_of_ne_zero (Nat.ne_zero_of_lt hfuel)
    have htext : lines level (prettyItems level (item :: next :: more)) =
        (prettyAt level item).toList ++ ',' :: ((lineBreak level).toList ++
          lines level (prettyItems level (next :: more))) := by
      rw [prettyItems, prettyItems, Json.lines_cons_cons]
    rw [htext] at hfuel ⊢
    simp only [List.length_append, List.length_cons] at hfuel
    have hitem := hitems item (List.mem_cons_self ..)
    rw [values, List.append_assoc, List.cons_append, hitem (by omega)
      (endsNumber_cons (by decide) _), Option.bind_eq_bind, Option.bind_some]
    simp only [skipBlanks_cons (c := ',') rfl, List.append_assoc]
    rw [values_congr (skipBlanks_lineBreak ..),
      ih (fun j hj => hitems j (List.mem_cons_of_mem _ hj)) (by omega)]
    rfl

theorem length_lt_prettyField (level : Nat) (key : String) (j : Json) :
    (prettyAt level j).toList.length < (prettyField level (key, j)).toList.length := by
  rw [toList_prettyField]
  simp only [List.length_cons, List.length_append]
  omega

/-- A field is read at the front of what follows it. -/
theorem members_prettyField {level : Nat} {key : String} {j : Json} (h : ReadsBack j)
    {room fuel : Nat} {rest : List Char}
    (hfuel : 2 * (prettyAt level j).toList.length < fuel) (hrest : EndsNumber rest) :
    members room (fuel + 1) ((prettyField level (key, j)).toList ++ rest) =
      match skipBlanks rest with
      | ',' :: cs => (members room fuel cs).map fun p => ((some key, j.seen room) :: p.1, p.2)
      | '}' :: cs => some ([(some key, j.seen room)], cs)
      | _ => none := by
  have hblank : skipBlanks (' ' :: ((prettyAt level j).toList ++ rest)) =
      skipBlanks ((prettyAt level j).toList ++ rest) := rfl
  rw [toList_prettyField, List.cons_append, List.append_assoc, members]
  simp only [skipBlanks_cons (c := '"') rfl, List.cons_append]
  rw [quoted?_quoted, Option.bind_eq_bind, Option.bind_some]
  simp only [skipBlanks_cons (c := ':') rfl]
  rw [value_congr hblank, h hfuel hrest, Option.bind_eq_bind, Option.bind_some]
  simp only [bind_pure_comp, Option.map_eq_map]
  rfl

/-- Fields are read up to the brace that closes the object. -/
theorem members_prettyFields {level inner : Nat} {rest : List Char}
    (more : List (String × Json)) : ∀ {field : String × Json} {room fuel : Nat},
      (∀ f ∈ field :: more, ReadsBack f.2) →
      2 * (lines level (prettyFields level (field :: more))).length + 1 < fuel →
      members room fuel (lines level (prettyFields level (field :: more)) ++
        ((lineBreak inner).toList ++ '}' :: rest)) =
          some ((Json.fieldsSeen room (field :: more)).map fun f => (some f.1, f.2), rest) := by
  induction more with
  | nil =>
    rintro ⟨key, j⟩ room fuel hfields hfuel
    obtain ⟨fuel, rfl⟩ := Nat.exists_eq_succ_of_ne_zero (Nat.ne_zero_of_lt hfuel)
    rw [prettyFields, prettyFields, Json.lines_singleton] at hfuel ⊢
    have hlength := length_lt_prettyField level key j
    have hfield : ReadsBack j := hfields (key, j) (List.mem_cons_self ..)
    rw [members_prettyField hfield (by omega) (endsNumber_lineBreak _ _),
      skipBlanks_lineBreak, skipBlanks_cons rfl]
    rfl
  | cons next more ih =>
    rintro ⟨key, j⟩ room fuel hfields hfuel
    obtain ⟨fuel, rfl⟩ := Nat.exists_eq_succ_of_ne_zero (Nat.ne_zero_of_lt hfuel)
    have htext : lines level (prettyFields level ((key, j) :: next :: more)) =
        (prettyField level (key, j)).toList ++ ',' :: ((lineBreak level).toList ++
          lines level (prettyFields level (next :: more))) := by
      rw [prettyFields, prettyFields, Json.lines_cons_cons]
    rw [htext] at hfuel ⊢
    have hlength := length_lt_prettyField level key j
    simp only [List.length_append, List.length_cons] at hfuel
    have hfield : ReadsBack j := hfields (key, j) (List.mem_cons_self ..)
    rw [List.append_assoc, List.cons_append, members_prettyField hfield (by omega)
      (endsNumber_cons (by decide) _), skipBlanks_cons rfl]
    simp only [List.append_assoc]
    rw [members_congr (skipBlanks_lineBreak ..),
      ih (fun f hf => hfields f (List.mem_cons_of_mem _ hf)) (by omega)]
    rfl

/-- An array is read if its items are. -/
theorem readsBack_arr {items : List Json} (hlegible : Json.AllLegible items)
    (hitems : ∀ j ∈ items, ReadsBack j) : ReadsBack (.arr items) := by
  intro level room fuel rest hfuel _
  obtain ⟨fuel, rfl⟩ := Nat.exists_eq_succ_of_ne_zero (Nat.ne_zero_of_lt hfuel)
  cases items with
  | nil =>
    have htext : (prettyAt level (.arr [])).toList = ['[', ']'] := by
      rw [prettyAt, prettyItems, Json.toList_block_nil]
      rfl
    rw [htext, value]
    rfl
  | cons item more =>
    obtain ⟨c, front, hfront, hblank, hclose⟩ := opens_lines hlegible.1 (level + 1) more
    rw [toList_prettyAt_arr] at hfuel ⊢
    simp only [List.cons_append, List.append_assoc, List.nil_append, List.length_cons,
      List.length_append] at hfuel ⊢
    have hread : values (room - 1) fuel (lines (level + 1) (prettyItems (level + 1)
        (item :: more)) ++ ((lineBreak level).toList ++ ']' :: rest)) =
          some (Json.allSeen (room - 1) (item :: more), rest) :=
      values_prettyItems more hitems (by omega)
    rw [hfront, List.cons_append] at hread ⊢
    rw [value_array hclose ((skipBlanks_lineBreak ..).trans (skipBlanks_cons hblank _)), hread,
      Option.map_some]
    rfl

/-- An object is read if the values of its fields are. -/
theorem readsBack_obj {fields : List (String × Json)} (hfields : ∀ f ∈ fields, ReadsBack f.2) :
    ReadsBack (.obj fields) := by
  intro level room fuel rest hfuel _
  obtain ⟨fuel, rfl⟩ := Nat.exists_eq_succ_of_ne_zero (Nat.ne_zero_of_lt hfuel)
  cases fields with
  | nil =>
    have htext : (prettyAt level (.obj [])).toList = ['{', '}'] := by
      rw [prettyAt, prettyFields, Json.toList_block_nil]
      rfl
    rw [htext, value]
    rfl
  | cons field more =>
    obtain ⟨front, hfront⟩ := quote_lines (level + 1) field more
    rw [toList_prettyAt_obj] at hfuel ⊢
    simp only [List.cons_append, List.append_assoc, List.nil_append, List.length_cons,
      List.length_append] at hfuel ⊢
    have hread : members (room - 1) fuel (lines (level + 1) (prettyFields (level + 1)
        (field :: more)) ++ ((lineBreak level).toList ++ '}' :: rest)) =
          some ((Json.fieldsSeen (room - 1) (field :: more)).map fun f => (some f.1, f.2), rest) :=
      members_prettyFields more hfields (by omega)
    rw [hfront, List.cons_append] at hread ⊢
    have hclose : '"' ≠ '}' := by decide
    rw [value_object hclose ((skipBlanks_lineBreak ..).trans (skipBlanks_cons rfl _)), hread,
      Option.map_some, ofFields_map_some]
    rfl

mutual

/-- Every value with legible numbers is read where it is written. -/
theorem readsBack : ∀ {j : Json}, j.Legible → ReadsBack j
  | .null, _ => by
    intro level room fuel rest hfuel _
    obtain ⟨fuel, rfl⟩ := Nat.exists_eq_succ_of_ne_zero (Nat.ne_zero_of_lt hfuel)
    rw [prettyAt, value]
    rfl
  | .bool true, _ => by
    intro level room fuel rest hfuel _
    obtain ⟨fuel, rfl⟩ := Nat.exists_eq_succ_of_ne_zero (Nat.ne_zero_of_lt hfuel)
    rw [prettyAt, value]
    rfl
  | .bool false, _ => by
    intro level room fuel rest hfuel _
    obtain ⟨fuel, rfl⟩ := Nat.exists_eq_succ_of_ne_zero (Nat.ne_zero_of_lt hfuel)
    rw [prettyAt, value]
    rfl
  | .num n, hlegible => by
    intro level room fuel rest hfuel hrest
    obtain ⟨fuel, rfl⟩ := Nat.exists_eq_succ_of_ne_zero (Nat.ne_zero_of_lt hfuel)
    rw [prettyAt]
    exact value_number hlegible hrest
  | .str s, _ => by
    intro level room fuel rest hfuel _
    obtain ⟨fuel, rfl⟩ := Nat.exists_eq_succ_of_ne_zero (Nat.ne_zero_of_lt hfuel)
    rw [prettyAt]
    exact value_quoted ..
  | .arr items, hlegible => readsBack_arr hlegible (allReadBack hlegible)
  | .obj fields, hlegible => readsBack_obj (fieldsReadBack hlegible)

/-- So is every item. -/
theorem allReadBack : ∀ {items : List Json}, Json.AllLegible items → ∀ j ∈ items, ReadsBack j
  | [], _ => fun _ hj => absurd hj List.not_mem_nil
  | _ :: _, hlegible => List.forall_mem_cons.mpr ⟨readsBack hlegible.1, allReadBack hlegible.2⟩

/-- So is the value of every field. -/
theorem fieldsReadBack : ∀ {fields : List (String × Json)}, Json.FieldsLegible fields →
    ∀ f ∈ fields, ReadsBack f.2
  | [], _ => fun _ hf => absurd hf List.not_mem_nil
  | _ :: _, hlegible =>
    List.forall_mem_cons.mpr ⟨fieldReadsBack hlegible.1, fieldsReadBack hlegible.2⟩

/-- So is the value of the field. -/
theorem fieldReadsBack : ∀ {field : String × Json}, Json.FieldLegible field → ReadsBack field.2
  | (_, _), hlegible => readsBack hlegible

end

/-- The text of a value whose numbers read back one by one holds what there is room for. -/
theorem read?_pretty_seen {j : Json} (hlegible : j.Legible) :
    read? j.pretty = some (j.seen maxDepth) := by
  have hread : value maxDepth (2 * (prettyAt 0 j).toList.length + 2) ((prettyAt 0 j).toList ++ []) =
      some (j.seen maxDepth, []) := readsBack hlegible (by omega) endsNumber_nil
  rw [List.append_nil] at hread
  rw [Json.pretty, read?]
  simp only [hread]
  rfl

/-- **What is written reads back.** The text of a value that is nested 127 deep at most, and whose
numbers read back one by one, holds the document of the value. -/
theorem read?_pretty {j : Json} (hlegible : j.Legible) (hdepth : j.depth ≤ maxDepth) :
    read? j.pretty = some j.document := by
  rw [read?_pretty_seen hlegible, Json.seen_of_depth_le hdepth]

end Document

end Runbook
