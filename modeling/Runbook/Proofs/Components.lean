import Mathlib.Data.List.Basic
import Runbook.Store.Component

/-!
# Folder names that are read back

Every text is read back from the name of its folder, so that no two texts share one.

* `Component.decodeBytes?_flatMap`: bytes are read back from what is written for them
* `Component.decode?_encode`: texts are read back
* `Component.encode_inj`: different texts have different folders
* `Component.decode?_eq_some_iff`: no other folder is read back
-/

namespace Runbook

/-- The bytes one after another are those that were put into the array. -/
theorem toList_loop (bs : ByteArray) (i : Nat) (acc : List UInt8) :
    ByteArray.toList.loop bs i acc = acc.reverse ++ bs.data.toList.drop i := by
  fun_induction ByteArray.toList.loop bs i acc with
  | case1 i acc h ih =>
    have hi : i < bs.data.toList.length := h
    rw [ih, List.drop_eq_getElem_cons hi]
    simp [ByteArray.get!, h]
  | case2 i acc h =>
    have hi : bs.data.toList.length ≤ i := Nat.le_of_not_lt h
    rw [List.drop_eq_nil_of_le hi, List.append_nil]

namespace Component

theorem hexValue?_hexDigit : ∀ n < 16, hexValue? (hexDigit n) = some n := by decide

/-- A byte that stands for itself is a sign of its own, and not the percent sign. -/
theorem plain_cases : ∀ n < 256, isPlain (UInt8.ofNat n) = true →
    (Char.ofNat n).toNat = n ∧ n < 0x80 ∧ Char.ofNat n ≠ '%' := by decide +kernel

/-- What is written for some bytes gives them back. -/
theorem decodeBytes?_flatMap (bs : List UInt8) :
    decodeBytes? (bs.flatMap encodeByte) = some bs := by
  induction bs with
  | nil => rfl
  | cons b rest ih =>
    have hb : b.toNat < 256 := b.toNat_lt
    rw [List.flatMap_cons, encodeByte]
    by_cases hplain : isPlain b = true
    · obtain ⟨hchar, hsmall, hpercent⟩ :=
        plain_cases b.toNat hb (by rwa [UInt8.ofNat_toNat])
      rw [if_pos hplain, List.singleton_append, decodeBytes?]
      · simp only [hchar, UInt8.ofNat_toNat, hplain, hsmall, ih, decide_true, Bool.and_self, if_pos,
          Option.bind_eq_bind, Option.bind_some, Option.pure_def]
      · exact fun _ _ _ heq => absurd heq hpercent
    · have hvalue : UInt8.ofNat (16 * (b.toNat / 16) + b.toNat % 16) = b := by
        rw [Nat.div_add_mod, UInt8.ofNat_toNat]
      rw [if_neg hplain, List.cons_append, List.cons_append, List.cons_append, List.nil_append,
        decodeBytes?]
      simp only [hexValue?_hexDigit _ (show b.toNat / 16 < 16 by omega),
        hexValue?_hexDigit _ (show b.toNat % 16 < 16 by omega), Option.bind_eq_bind,
        Option.bind_some, hvalue, hplain, ih, Option.pure_def]
      rfl

/-- A text is read back from the name of its folder. -/
theorem decode?_encode (name : String) : decode? (encode name) = some name := by
  rw [encode]
  split
  · rename_i hempty
    rw [String.isEmpty_iff.mp hempty]
    rfl
  · rename_i hfull
    have hbytes : name.toUTF8.toList = name.toByteArray.data.toList := toList_loop ..
    have hne : name.toUTF8.toList ≠ [] := by
      rw [hbytes]
      intro hnil
      refine hfull (String.isEmpty_iff.mpr (String.toByteArray_inj.mp (ByteArray.ext ?_)))
      exact Array.toList_inj.mp hnil
    have hdecode := decodeBytes?_flatMap name.toUTF8.toList
    have hutf : String.fromUTF8? ⟨name.toUTF8.toList.toArray⟩ = some name := by
      rw [hbytes]
      exact dif_pos name.isValidUTF8
    -- neither is what was written empty, nor is it a percent sign alone
    have hpercent : String.ofList (name.toUTF8.toList.flatMap encodeByte) ≠ "%" := by
      intro heq
      rw [← String.toList_inj, String.toList_ofList] at heq
      rw [heq] at hdecode
      cases hdecode
    have hnil : String.ofList (name.toUTF8.toList.flatMap encodeByte) ≠ "" := by
      intro heq
      rw [← String.toList_inj, String.toList_ofList] at heq
      rw [heq] at hdecode
      exact hne (Option.some.inj hdecode).symm
    rw [decode?, if_neg hpercent, if_neg (fun h => hnil (String.isEmpty_iff.mp h)),
      String.toList_ofList, hdecode]
    exact hutf

/-- Different texts have different folders. -/
theorem encode_inj {s t : String} (h : encode s = encode t) : s = t :=
  Option.some.inj ((decode?_encode s).symm.trans (h ▸ decode?_encode t))

/-- The digit of a value that was read is the character it was read from. -/
theorem hexDigit_of_hexValue? {c : Char} {n : Nat} (h : hexValue? c = some n) :
    n < 16 ∧ hexDigit n = c := by
  have hchar : ∀ m, c.toNat = m → c = Char.ofNat m := fun m hm => hm ▸ (Char.ofNat_toNat c).symm
  rw [hexValue?] at h
  split at h
  · rename_i hdigit
    obtain ⟨hlow, hhigh⟩ := hdigit
    have hlow' : 48 ≤ c.toNat := hlow
    have hhigh' : c.toNat ≤ 57 := hhigh
    have hzero : '0'.toNat = 48 := rfl
    cases h
    rw [hexDigit, hzero, if_pos (by omega)]
    exact ⟨by omega, (hchar _ (by omega)).symm⟩
  split at h
  · rename_i hletter
    obtain ⟨hlow, hhigh⟩ := hletter
    have hlow' : 65 ≤ c.toNat := hlow
    have hhigh' : c.toNat ≤ 70 := hhigh
    have ha : 'A'.toNat = 65 := rfl
    cases h
    rw [hexDigit, ha, if_neg (by omega)]
    exact ⟨by omega, (hchar _ (by omega)).symm⟩
  · cases h

/-- Bytes that are read were written just so. -/
theorem flatMap_of_decodeBytes? (cs : List Char) :
    ∀ {bs : List UInt8}, decodeBytes? cs = some bs → bs.flatMap encodeByte = cs := by
  fun_induction decodeBytes? cs with
  | case1 =>
    rintro bs ⟨⟩
    rfl
  | case2 high low rest ih =>
    intro bs h
    obtain ⟨m, hm, h⟩ := Option.bind_eq_some_iff.mp h
    obtain ⟨n, hn, h⟩ := Option.bind_eq_some_iff.mp h
    obtain ⟨hm16, hhigh⟩ := hexDigit_of_hexValue? hm
    obtain ⟨hn16, hlow⟩ := hexDigit_of_hexValue? hn
    simp only at h
    split at h
    · cases h
    · rename_i hplain
      obtain ⟨bs', hrest, heq⟩ := Option.bind_eq_some_iff.mp h
      cases heq
      have hbyte : (UInt8.ofNat (16 * m + n)).toNat = 16 * m + n :=
        UInt8.toNat_ofNat_of_lt' (show 16 * m + n < 256 by omega)
      have hdiv : (16 * m + n) / 16 = m := by omega
      have hmod : (16 * m + n) % 16 = n := by omega
      rw [List.flatMap_cons, ih hrest, encodeByte, if_neg hplain, hbyte, hdiv, hmod, hhigh, hlow]
      rfl
  | case3 c rest _ b hb =>
    rename_i ih
    intro bs h
    obtain ⟨bs', hrest, heq⟩ := Option.bind_eq_some_iff.mp h
    cases heq
    obtain ⟨hascii, hplain⟩ := Bool.and_eq_true_iff.mp hb
    have hbyte : b.toNat = c.toNat :=
      UInt8.toNat_ofNat_of_lt' (Nat.lt_trans (of_decide_eq_true hascii) (by decide))
    rw [List.flatMap_cons, ih hrest, encodeByte, if_pos hplain, hbyte, Char.ofNat_toNat]
    rfl
  | case4 =>
    intro bs h
    cases h

/-- A folder whose name can be read back is the folder of that text. -/
theorem eq_encode_of_decode? {component name : String} (h : decode? component = some name) :
    component = encode name := by
  rw [decode?] at h
  split at h
  · rename_i hpercent
    cases h
    rw [hpercent]
    rfl
  split at h
  · cases h
  · rename_i hempty
    obtain ⟨bs, hbytes, hname⟩ := Option.bind_eq_some_iff.mp h
    have hflat := flatMap_of_decodeBytes? _ hbytes
    have hutf : name.toUTF8.toList = bs := by
      rw [String.fromUTF8?] at hname
      split at hname
      · rw [← Option.some.inj hname]
        exact toList_loop ..
      · cases hname
    have hfull : ¬ name.isEmpty = true := by
      intro hnil
      have hnone : "".toUTF8.toList = [] := toList_loop ..
      rw [← hutf, String.isEmpty_iff.mp hnil, hnone] at hflat
      exact hempty (String.isEmpty_iff.mpr (String.toList_inj.mp hflat.symm))
    rw [encode, if_neg hfull, hutf, hflat, String.ofList_toList]

theorem decode?_eq_some_iff {component name : String} :
    decode? component = some name ↔ component = encode name :=
  ⟨eq_encode_of_decode?, fun heq => heq ▸ decode?_encode name⟩

end Component

end Runbook
