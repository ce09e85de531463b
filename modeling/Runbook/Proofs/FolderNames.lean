import Runbook.Proofs.Components
import Runbook.Store.Archive

/-!
# Names of folders

Texts and the names of their folders go together one to one. A name is read back exactly if it is
spelt as names are: whatever else would stand for the same bytes when it is read freely, with small
digits, with a plus sign for the first digit or with bytes escaped that need not be, is no name.

* `Component.Misspelt`: what can be wrong with a name
* `Component.decode?_eq_none_iff`: only what is misspelt is not read back
* `Component.decodeFreely?`, `Component.decode?_eq_filter`: reading strictly is reading freely and
  comparing with what would have been written
* `Component.encode_decode?_exact`: texts and names of folders go together
-/

namespace Runbook.Component

/-! ## What names are made of -/

/-- Whether a character occurs in names of folders. -/
def isSign (c : Char) : Bool :=
  ('a' ≤ c && c ≤ 'z') || ('A' ≤ c && c ≤ 'Z') || ('0' ≤ c && c ≤ '9') || c = '_' || c = '-' ||
    c = '%'

/-- Whether two characters stand after a percent sign in names of folders: they are the capital
digits of a byte that does not stand for itself. -/
def IsEscape (high low : Char) : Prop :=
  ∃ m n, hexValue? high = some m ∧ hexValue? low = some n ∧
    isPlain (UInt8.ofNat (16 * m + n)) = false

theorem isSign_ofNat_of_isPlain :
    ∀ n < 256, isPlain (UInt8.ofNat n) = true → isSign (Char.ofNat n) = true := by
  decide +kernel

theorem isSign_hexDigit : ∀ n < 16, isSign (hexDigit n) = true := by decide

/-- The sign of a byte that stands for itself. -/
theorem encodeByte_of_isPlain {b : UInt8} (h : isPlain b = true) :
    encodeByte b = [Char.ofNat b.toNat] ∧ isSign (Char.ofNat b.toNat) = true ∧
      Char.ofNat b.toNat ≠ '%' := by
  have hplain : isPlain (UInt8.ofNat b.toNat) = true := by rwa [UInt8.ofNat_toNat]
  exact ⟨if_pos h, isSign_ofNat_of_isPlain _ b.toNat_lt hplain,
    (plain_cases _ b.toNat_lt hplain).2.2⟩

/-- The signs of a byte that does not stand for itself. -/
theorem encodeByte_of_not_isPlain {b : UInt8} (h : ¬ isPlain b = true) :
    ∃ high low, encodeByte b = ['%', high, low] ∧ IsEscape high low ∧
      isSign high = true ∧ isSign low = true := by
  have hb : b.toNat < 256 := b.toNat_lt
  have hhigh : b.toNat / 16 < 16 := by omega
  have hlow : b.toNat % 16 < 16 := by omega
  refine ⟨_, _, if_neg h, ⟨_, _, hexValue?_hexDigit _ hhigh, hexValue?_hexDigit _ hlow, ?_⟩,
    isSign_hexDigit _ hhigh, isSign_hexDigit _ hlow⟩
  rw [Nat.div_add_mod, UInt8.ofNat_toNat]
  exact Bool.eq_false_iff.mpr h

/-- A percent sign is no digit. -/
theorem ne_percent_of_hexValue? {c : Char} {n : Nat} (h : hexValue? c = some n) : c ≠ '%' := by
  rintro rfl
  cases h

theorem isSign_of_mem_encodeByte {b : UInt8} {c : Char} (h : c ∈ encodeByte b) :
    isSign c = true := by
  by_cases hplain : isPlain b = true
  · obtain ⟨heq, hsign, _⟩ := encodeByte_of_isPlain hplain
    rw [heq, List.mem_singleton] at h
    rwa [h]
  · obtain ⟨high, low, heq, _, hhigh, hlow⟩ := encodeByte_of_not_isPlain hplain
    rw [heq, List.mem_cons, List.mem_cons, List.mem_singleton] at h
    rcases h with rfl | rfl | rfl
    · rfl
    · exact hhigh
    · exact hlow

/-- What follows a percent sign in what is written for some bytes. -/
theorem isEscape_of_suffix {bs : List UInt8} {after : List Char}
    (h : '%' :: after <:+ bs.flatMap encodeByte) :
    ∃ high low rest, after = high :: low :: rest ∧ IsEscape high low := by
  induction bs with
  | nil => cases List.suffix_nil.mp h
  | cons b bs ih =>
    rw [List.flatMap_cons] at h
    by_cases hplain : isPlain b = true
    · obtain ⟨heq, _, hne⟩ := encodeByte_of_isPlain hplain
      rw [heq, List.singleton_append, List.suffix_cons_iff] at h
      rcases h with h | h
      · exact absurd (List.cons_eq_cons.mp h).1.symm hne
      · exact ih h
    · obtain ⟨high, low, heq, hescape, _, _⟩ := encodeByte_of_not_isPlain hplain
      have ⟨_, _, hhigh, hlow, _⟩ := hescape
      rw [heq, List.cons_append, List.cons_append, List.cons_append, List.nil_append,
        List.suffix_cons_iff, List.suffix_cons_iff, List.suffix_cons_iff] at h
      rcases h with h | h | h | h
      · cases h
        exact ⟨high, low, _, rfl, hescape⟩
      · exact absurd (List.cons_eq_cons.mp h).1.symm (ne_percent_of_hexValue? hhigh)
      · exact absurd (List.cons_eq_cons.mp h).1.symm (ne_percent_of_hexValue? hlow)
      · exact ih h

/-- A character of names that is no percent sign is that of a byte that stands for itself. -/
theorem isPlain_of_isSign {c : Char} (h : isSign c = true) (hne : c ≠ '%') :
    c.toNat < 0x80 ∧ isPlain (UInt8.ofNat c.toNat) = true := by
  have hbound : c.toNat < 0x80 := by
    have hupTo : ∀ {d : Char}, d.toNat < 0x80 → c ≤ d → c.toNat < 0x80 := fun hd hc =>
      Nat.lt_of_le_of_lt (show c.toNat ≤ _ from hc) hd
    simp only [isSign, Bool.or_eq_true, Bool.and_eq_true, decide_eq_true_eq] at h
    rcases h with ((((⟨_, hz⟩ | ⟨_, hz⟩) | ⟨_, hz⟩) | rfl) | rfl) | rfl
    · exact hupTo (by decide) hz
    · exact hupTo (by decide) hz
    · exact hupTo (by decide) hz
    · decide
    · decide
    · decide
  have hall : ∀ n < 0x80, isSign (Char.ofNat n) = true → Char.ofNat n ≠ '%' →
      isPlain (UInt8.ofNat n) = true := by decide +kernel
  refine ⟨hbound, hall c.toNat hbound ?_ ?_⟩ <;> rwa [Char.ofNat_toNat]

/-- Whatever is not read has a character that does not occur in names, or a percent sign before
something else than an escape. -/
theorem exists_of_decodeBytes?_eq_none {cs : List Char} (h : decodeBytes? cs = none) :
    (∃ c ∈ cs, isSign c = false) ∨
      ∃ after, '%' :: after <:+ cs ∧
        ∀ high low rest, after = high :: low :: rest → ¬ IsEscape high low := by
  fun_induction decodeBytes? cs with
  | case1 => cases h
  | case2 high low rest ih =>
    by_cases hescape : IsEscape high low
    · obtain ⟨m, n, hm, hn, hplain⟩ := hescape
      simp only [hm, hn, hplain, Option.bind_eq_bind, Option.bind_some, Bool.false_eq_true,
        if_false, Option.bind_eq_none_iff, Option.pure_def, reduceCtorEq, imp_false] at h
      have hrest : decodeBytes? rest = none := Option.eq_none_iff_forall_ne_some.mpr h
      rcases ih hrest with ⟨c, hc, hsign⟩ | ⟨after, hafter, hnot⟩
      · exact .inl ⟨c, by simp [hc], hsign⟩
      · exact .inr ⟨after, hafter.trans ⟨['%', high, low], rfl⟩, hnot⟩
    · refine .inr ⟨_, List.suffix_rfl, ?_⟩
      rintro high' low' rest' ⟨⟩
      exact hescape
  | case3 c rest _ b hb =>
    rename_i ih
    simp only [Option.bind_eq_bind, Option.bind_eq_none_iff, Option.pure_def, reduceCtorEq,
      imp_false] at h
    have hrest : decodeBytes? rest = none := Option.eq_none_iff_forall_ne_some.mpr h
    rcases ih hrest with ⟨d, hd, hsign⟩ | ⟨after, hafter, hnot⟩
    · exact .inl ⟨d, List.mem_cons_of_mem _ hd, hsign⟩
    · exact .inr ⟨after, hafter.trans (List.suffix_cons c rest), hnot⟩
  | case4 c rest hone b hb =>
    by_cases hc : c = '%'
    · -- too little follows the percent sign
      refine .inr ⟨rest, hc ▸ List.suffix_rfl, ?_⟩
      rintro high low rest' rfl
      exact absurd rfl (hone high low rest' hc)
    · refine .inl ⟨c, List.mem_cons_self, Bool.eq_false_iff.mpr fun hsign => hb ?_⟩
      obtain ⟨hbound, hplain⟩ := isPlain_of_isSign hsign hc
      exact Bool.and_eq_true_iff.mpr ⟨decide_eq_true hbound, hplain⟩

/-! ## What is no name -/

/-- What can be wrong with the name of a folder. -/
inductive Misspelt (c : String) : Prop
  /-- it is empty -/
  | empty (h : c = "")
  /-- it has a character that has to be escaped -/
  | character {x : Char} (hx : x ∈ c.toList) (h : isSign x = false)
  /-- it has a percent sign after which there is no escape, though it is not that sign alone -/
  | escape {after : List Char} (hc : c ≠ "%") (hafter : '%' :: after <:+ c.toList)
      (h : ∀ high low rest, after = high :: low :: rest → ¬ IsEscape high low)
  /-- its bytes are those of no text -/
  | bytes {bs : List UInt8} (hbs : c.toList = bs.flatMap encodeByte)
      (h : String.fromUTF8? ⟨bs.toArray⟩ = none)

/-- The name of a folder that is not the percent sign alone is what is written for some bytes. -/
theorem toList_encode {name : String} (h : encode name ≠ "%") :
    (encode name).toList = name.toUTF8.toList.flatMap encodeByte := by
  rw [encode] at h ⊢
  split
  · rename_i hempty
    exact absurd (if_pos hempty) h
  · exact String.toList_ofList

/-- The signs of which names of folders consist. -/
theorem isSign_of_mem_encode {name : String} {c : Char} (h : c ∈ (encode name).toList) :
    isSign c = true := by
  by_cases hpercent : encode name = "%"
  · rw [hpercent] at h
    obtain rfl : c = '%' := List.mem_singleton.mp h
    rfl
  · rw [toList_encode hpercent, List.mem_flatMap] at h
    obtain ⟨b, _, hc⟩ := h
    exact isSign_of_mem_encodeByte hc

theorem encode_ne_empty (name : String) : encode name ≠ "" := by
  intro h
  have hdecode := decode?_encode name
  rw [h] at hdecode
  cases hdecode

/-- No folder has a name that is misspelt. -/
theorem not_misspelt_encode (name : String) : ¬ Misspelt (encode name) := by
  rintro (h | ⟨hx, h⟩ | ⟨hc, hafter, h⟩ | @⟨bs, hbs, h⟩)
  · exact encode_ne_empty name h
  · rw [isSign_of_mem_encode hx] at h
    cases h
  · rw [toList_encode hc] at hafter
    obtain ⟨high, low, rest, heq, hescape⟩ := isEscape_of_suffix hafter
    exact h high low rest heq hescape
  · have hbytes := decodeBytes?_flatMap bs
    have hname := decode?_encode name
    rw [← hbs] at hbytes
    rw [decode?, hbytes] at hname
    split at hname
    · rename_i hpercent
      rw [hpercent] at hbytes
      cases hbytes
    split at hname
    · cases hname
    · cases h.symm.trans hname

/-- Whatever is not misspelt is read back, and nothing else is. -/
theorem decode?_eq_none_iff {c : String} : decode? c = none ↔ Misspelt c := by
  constructor
  · intro h
    rw [decode?] at h
    split at h
    · cases h
    rename_i hpercent
    split at h
    · rename_i hempty
      exact .empty (String.isEmpty_iff.mp hempty)
    · cases hbytes : decodeBytes? c.toList with
      | none =>
        rcases exists_of_decodeBytes?_eq_none hbytes with ⟨x, hx, hsign⟩ | ⟨after, hafter, hnot⟩
        · exact .character hx hsign
        · exact .escape hpercent hafter hnot
      | some bs =>
        rw [hbytes] at h
        exact .bytes (flatMap_of_decodeBytes? _ hbytes).symm h
  · intro h
    cases hname : decode? c with
    | none => rfl
    | some name =>
      rw [decode?_eq_some_iff.mp hname] at h
      exact absurd h (not_misspelt_encode name)

/-! ## Reading freely -/

/-- The value of a hexadecimal digit, capital or small. -/
def freeHexValue? (c : Char) : Option Nat :=
  if 'a' ≤ c ∧ c ≤ 'f' then some (c.toNat - 'a'.toNat + 10) else hexValue? c

/-- The value of two digits. A plus sign may stand before the second one. -/
def freeValue? (high low : Char) : Option Nat := do
  if high = '+' then freeHexValue? low
  else return 16 * (← freeHexValue? high) + (← freeHexValue? low)

/-- The bytes that characters stand for: each of them for its own, but for a percent sign, which
stands with two digits for the byte of that value. -/
def freeBytes? : List Char → Option (List UInt8)
  | [] => some []
  | '%' :: high :: low :: rest => do
    return UInt8.ofNat (← freeValue? high low) :: (← freeBytes? rest)
  | c :: rest => do
    if c = '%' then none else return String.utf8EncodeChar c ++ (← freeBytes? rest)

/-- The text that a name stands for, however it is spelt. -/
def decodeFreely? (component : String) : Option String :=
  if component = "%" then some ""
  else do String.fromUTF8? ⟨(← freeBytes? component.toList).toArray⟩

/-- Capital digits have the same value when they are read freely. -/
theorem freeValue?_of_hexValue? {high low : Char} {m n : Nat} (hm : hexValue? high = some m)
    (hn : hexValue? low = some n) : freeValue? high low = some (16 * m + n) := by
  have hfree : ∀ {c k}, hexValue? c = some k → c ≠ '+' ∧ freeHexValue? c = some k := by
    intro c k hk
    obtain ⟨hbound, rfl⟩ := hexDigit_of_hexValue? hk
    have hall : ∀ k < 16, hexDigit k ≠ '+' ∧ freeHexValue? (hexDigit k) = some k := by decide
    exact hall k hbound
  rw [freeValue?, if_neg (hfree hm).1, (hfree hm).2, (hfree hn).2]
  rfl

/-- What is read is read freely too. -/
theorem freeBytes?_of_decodeBytes? (cs : List Char) :
    ∀ {bs : List UInt8}, decodeBytes? cs = some bs → freeBytes? cs = some bs := by
  fun_induction decodeBytes? cs with
  | case1 => exact fun h => h
  | case2 high low rest ih =>
    intro bs h
    obtain ⟨m, hm, h⟩ := Option.bind_eq_some_iff.mp h
    obtain ⟨n, hn, h⟩ := Option.bind_eq_some_iff.mp h
    simp only at h
    split at h
    · cases h
    · obtain ⟨bs', hrest, heq⟩ := Option.bind_eq_some_iff.mp h
      cases heq
      rw [freeBytes?, freeValue?_of_hexValue? hm hn, ih hrest]
      rfl
  | case3 c rest hone b hb =>
    rename_i ih
    intro bs h
    obtain ⟨bs', hrest, heq⟩ := Option.bind_eq_some_iff.mp h
    cases heq
    obtain ⟨hascii, hplain⟩ := Bool.and_eq_true_iff.mp hb
    have hvalue : c.val.toNat ≤ 127 := Nat.le_of_lt_succ (of_decide_eq_true hascii)
    have hne : c ≠ '%' := by
      rintro rfl
      cases hplain
    have hown : String.utf8EncodeChar c = [b] := if_pos hvalue
    rw [freeBytes?, if_neg hne, ih hrest, hown]
    · rfl
    · exact hone
  | case4 =>
    intro bs h
    cases h

theorem decodeFreely?_of_decode? {component name : String} (h : decode? component = some name) :
    decodeFreely? component = some name := by
  rw [decode?] at h
  rw [decodeFreely?]
  split
  · rename_i hpercent
    rwa [if_pos hpercent] at h
  · rename_i hpercent
    rw [if_neg hpercent] at h
    split at h
    · cases h
    · obtain ⟨bs, hbytes, hname⟩ := Option.bind_eq_some_iff.mp h
      rw [freeBytes?_of_decodeBytes? _ hbytes]
      exact hname

/-- Reading is reading freely and comparing with what would have been written. -/
theorem decode?_eq_filter (component : String) :
    decode? component = (decodeFreely? component).filter (encode · = component) := by
  refine Option.ext fun name => ?_
  rw [Option.filter_eq_some_iff, decide_eq_true_iff]
  constructor
  · intro h
    exact ⟨decodeFreely?_of_decode? h, (decode?_eq_some_iff.mp h).symm⟩
  · rintro ⟨_, h⟩
    exact decode?_eq_some_iff.mpr h.symm

/-! ## Texts and names -/

/-- A name that has a character which is no sign of names is the folder of no text. -/
theorem encode_ne_of_mem {name component : String} {c : Char} (hc : c ∈ component.toList)
    (h : isSign c = false) : encode name ≠ component := by
  rintro rfl
  rw [isSign_of_mem_encode hc] at h
  cases h

/-- **Texts and names of folders go together one to one.** Every text is read back from its name,
and nothing is read from a name but the text it was written for; exactly the misspelt names are not
read. Reading freely and comparing with what would have been written comes to the same. A name is
never empty, has only letters, digits, `_`, `-` and `%`, and so is neither one of the two dotted
folders nor the file for the book beside them, and leads to no other folder. -/
theorem decode?_exact :
    (∀ name, decode? (encode name) = some name) ∧
    (∀ component name, decode? component = some name ↔ encode name = component) ∧
    (∀ component, decode? component = none ↔ Misspelt component) ∧
    (∀ component,
      decode? component = (decodeFreely? component).filter (encode · = component)) ∧
    ∀ name, encode name ≠ "" ∧ (encode name).toList.all isSign = true ∧
      encode name ∉ [".", "..", Archive.bookFile] ∧
      '/' ∉ (encode name).toList ∧ '\\' ∉ (encode name).toList := by
  refine ⟨decode?_encode, fun component name => decode?_eq_some_iff.trans eq_comm,
    fun _ => decode?_eq_none_iff, decode?_eq_filter, fun name => ?_⟩
  have hseparator : ∀ {c : Char}, isSign c = false → c ∉ (encode name).toList := by
    intro c hsign hc
    exact encode_ne_of_mem hc hsign rfl
  have hdot : ∀ {component : String}, '.' ∈ component.toList → encode name ≠ component :=
    fun hc => encode_ne_of_mem hc (by decide)
  have hreserved : encode name ∉ [".", "..", Archive.bookFile] := by
    simp only [List.mem_cons, List.not_mem_nil, or_false, not_or]
    exact ⟨hdot (by decide), hdot (by decide), hdot (by decide)⟩
  exact ⟨encode_ne_empty name, List.all_eq_true.mpr fun c hc => isSign_of_mem_encode hc, hreserved,
    hseparator (by decide), hseparator (by decide)⟩

example : ["a%2", "%zz", "%2f", "%+F", "%41", "%FF", "a b"].map decode? =
    List.replicate 7 none := by decide +kernel

end Runbook.Component
