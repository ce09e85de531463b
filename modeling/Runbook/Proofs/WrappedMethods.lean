import Mathlib.Data.List.Forall2
import Runbook.Node

/-!
# Methods within a wrapping, line by line

The code of a method is put between fixed lines, each of its own lines four blanks deeper and with
the tabs at its front replaced. A line that went missing, or came to stand outside, would change
what is run. Here the wrapping is taken apart at its line feeds, whatever ends the lines of the code
had.

* `Text.Lined`, `Text.lined_iff`: what the lines of a text are
* `Text.splitOn_unlines`: where joined lines come apart again
* `Text.Widened`, `Text.StandsAs`, `standsAs_iff`: what becomes of one line
* `scopedCode_eq_iff`: when two codes have one wrapping
* `splitOn_scopedCode`: all lines of a wrapping, and what they tell of the code
-/

namespace Runbook

/-! ## Lines -/

namespace Text

/-- These are the lines of the text. Each ends at a line feed, or at a carriage return with a line
feed behind it; the last may end with the text instead, unless it is empty. -/
inductive Lined : List Char → List (List Char) → Prop where
  /-- the empty text has no lines -/
  | nil : Lined [] []
  /-- the last line, without an end of its own -/
  | last {line : List Char} (hne : line ≠ []) (hline : '\n' ∉ line) : Lined line [line]
  /-- a line that ends at a line feed; a carriage return before that would be part of the end -/
  | feed {line rest : List Char} {ls : List (List Char)} (hline : '\n' ∉ line)
    (hreturn : line.getLast? ≠ some '\r') (hrest : Lined rest ls) :
    Lined (line ++ '\n' :: rest) (line :: ls)
  /-- a line that ends at a carriage return with a line feed -/
  | returnFeed {line rest : List Char} {ls : List (List Char)} (hline : '\n' ∉ line)
    (hrest : Lined rest ls) : Lined (line ++ '\r' :: '\n' :: rest) (line :: ls)

variable {c : Char} {cs line rest wide : List Char} {ls ms : List (List Char)}

/-- A character that ends no line belongs to the first line. -/
theorem lines_cons (hfeed : '\n' ≠ c) (hreturn : c = '\r' → rest.head? ≠ some '\n') :
    lines (c :: rest) = (c :: (lines rest).headD []) :: (lines rest).tail := by
  rw [lines.eq_4 c rest (Ne.symm hfeed)]
  · cases lines rest with
    | nil => rfl
    | cons line more => rfl
  · rintro more hc rfl
    exact hreturn hc rfl

/-- So do several, unless a carriage return at their end is part of the line's end. -/
theorem lines_append (hne : line ≠ []) (hline : '\n' ∉ line)
    (hreturn : line.getLast? = some '\r' → rest.head? ≠ some '\n') :
    lines (line ++ rest) = (line ++ (lines rest).headD []) :: (lines rest).tail := by
  induction line with
  | nil => exact absurd rfl hne
  | cons c line ih =>
    have hfeed := List.ne_of_not_mem_cons hline
    cases line with
    | nil => exact lines_cons hfeed fun hc => hreturn (by rw [hc]; rfl)
    | cons d line =>
      have hline := List.not_mem_of_not_mem_cons hline
      have hnext : (d :: line ++ rest).head? ≠ some '\n' := fun hd =>
        List.ne_of_not_mem_cons hline (Option.some.inj hd).symm
      rw [List.cons_append, lines_cons hfeed fun _ => hnext,
        ih (List.cons_ne_nil _ _) hline (by rwa [List.getLast?_cons_cons] at hreturn)]
      rfl

/-- A text has no other lines than those that are found. -/
theorem Lined.eq_lines (h : Lined cs ls) : ls = lines cs := by
  induction h with
  | nil => rfl
  | @last line hne hline =>
    have hfound : lines (line ++ []) = (line ++ (lines []).headD []) :: (lines []).tail :=
      lines_append hne hline fun _ => by simp
    rw [List.append_nil] at hfound
    rw [hfound, lines, List.headD_nil, List.append_nil, List.tail_nil]
  | @feed line rest ls hline hreturn _ ih =>
    by_cases hne : line = []
    · rw [hne, List.nil_append, lines, ih]
    · rw [lines_append hne hline fun hend => absurd hend hreturn, lines, List.headD_cons,
        List.append_nil, List.tail_cons, ih]
  | @returnFeed line rest ls hline _ ih =>
    by_cases hne : line = []
    · rw [hne, List.nil_append, lines, ih]
    · rw [lines_append hne hline fun _ => by simp, lines, List.headD_cons, List.append_nil,
        List.tail_cons, ih]

theorem Lined.cons (hfeed : '\n' ≠ c) (hreturn : c = '\r' → rest.head? ≠ some '\n')
    (h : Lined rest ls) : Lined (c :: rest) ((c :: ls.headD []) :: ls.tail) := by
  have hcons : ∀ {line : List Char}, '\n' ∉ line → '\n' ∉ c :: line := fun hline =>
    List.not_mem_cons_of_ne_of_not_mem hfeed hline
  cases h with
  | nil => exact .last (List.cons_ne_nil _ _) (hcons List.not_mem_nil)
  | last _ hline => exact .last (List.cons_ne_nil _ _) (hcons hline)
  | @feed line rest ls hline hend hrest =>
    refine .feed (hcons hline) ?_ hrest
    cases line with
    | nil => exact fun hc => hreturn (Option.some.inj hc) rfl
    | cons d line => rwa [List.getLast?_cons_cons]
  | returnFeed hline hrest => exact .returnFeed (hcons hline) hrest

theorem lined_lines (cs : List Char) : Lined cs (lines cs) := by
  have hcons : ∀ {c : Char} {rest : List Char}, (c = '\n' → False) →
      (∀ more, c = '\r' → rest = '\n' :: more → False) → Lined rest (lines rest) →
        Lined (c :: rest) (lines (c :: rest)) := by
    intro c rest hfeed hreturn h
    have hfeed : '\n' ≠ c := fun hc => hfeed hc.symm
    have hnext : c = '\r' → rest.head? ≠ some '\n' := fun hc hrest => by
      obtain ⟨more, rfl⟩ := List.head?_eq_some_iff.mp hrest
      exact hreturn more hc rfl
    rw [lines_cons hfeed hnext]
    exact h.cons hfeed hnext
  induction cs using lines.induct with
  | case1 => exact .nil
  | case2 rest ih => exact @Lined.feed [] rest _ List.not_mem_nil (by simp) ih
  | case3 rest ih => exact @Lined.returnFeed [] rest _ List.not_mem_nil ih
  | case4 c rest hfeed hreturn _ ih => exact hcons hfeed hreturn ih
  | case5 c rest hfeed hreturn _ _ _ ih => exact hcons hfeed hreturn ih

/-- The lines that are found are those of the text, and it has no others. -/
theorem lined_iff : Lined cs ls ↔ ls = lines cs :=
  ⟨Lined.eq_lines, fun h => h ▸ lined_lines cs⟩

theorem lines_eq_nil_iff : lines cs = [] ↔ cs = [] := by
  refine ⟨fun h => ?_, fun h => h ▸ rfl⟩
  have hlined := lined_lines cs
  rw [h] at hlined
  cases hlined
  rfl

theorem Lined.newline_not_mem (h : Lined cs ls) : ∀ line ∈ ls, '\n' ∉ line := by
  induction h with
  | nil => exact fun _ hline => absurd hline List.not_mem_nil
  | last _ hline => exact List.forall_mem_singleton.mpr hline
  | feed hline _ _ ih => exact List.forall_mem_cons.mpr ⟨hline, ih⟩
  | returnFeed hline _ ih => exact List.forall_mem_cons.mpr ⟨hline, ih⟩

/-- Joined lines come apart where they were joined, and where there are line feeds in them. -/
theorem splitOn_unlines (hne : ls ≠ []) :
    (unlines ls).splitOn '\n' = ls.flatMap (List.splitOn '\n') := by
  induction ls with
  | nil => exact absurd rfl hne
  | cons line more ih =>
    cases more with
    | nil => simp [unlines]
    | cons next more =>
      rw [unlines, List.intercalate_cons_cons, List.append_assoc, List.singleton_append,
        List.splitOn_append_cons_self, ← unlines, ih (List.cons_ne_nil _ _), List.flatMap_cons]
      rfl

theorem flatMap_splitOn_eq_self (h : ∀ line ∈ ls, '\n' ∉ line) :
    ls.flatMap (List.splitOn '\n') = ls := by
  induction ls with
  | nil => rfl
  | cons line more ih =>
    obtain ⟨hline, hmore⟩ := List.forall_mem_cons.mp h
    rw [List.flatMap_cons, List.splitOn_eq_singleton hline, ih hmore, List.singleton_append]

/-- No lines at all are joined to what one empty line is joined to. -/
theorem splitOn_unlines_of_newline_not_mem (h : ∀ line ∈ ls, '\n' ∉ line) :
    (unlines ls).splitOn '\n' = if ls = [] then [[]] else ls := by
  split
  · rename_i hnil
    rw [hnil]
    rfl
  · rename_i hne
    rw [splitOn_unlines hne, flatMap_splitOn_eq_self h]

/-- Where no line is empty, joining tells them all. -/
theorem unlines_inj (hls : ∀ line ∈ ls, line ≠ [] ∧ '\n' ∉ line)
    (hms : ∀ line ∈ ms, line ≠ [] ∧ '\n' ∉ line) (h : unlines ls = unlines ms) : ls = ms := by
  have hsplit := congrArg (List.splitOn '\n') h
  rw [splitOn_unlines_of_newline_not_mem fun line hl => (hls line hl).2,
    splitOn_unlines_of_newline_not_mem fun line hl => (hms line hl).2] at hsplit
  -- if only one side has no lines, the other is a single empty line
  split at hsplit <;> split at hsplit <;> rename_i hnil hnil'
  · rw [hnil, hnil']
  · exact absurd rfl (hms [] (hsplit ▸ List.mem_singleton_self _)).1
  · exact absurd rfl (hls [] (hsplit ▸ List.mem_singleton_self _)).1
  · exact hsplit

/-! ## One line -/

/-- The text with each tab before its first character that is no blank replaced by four blanks. -/
inductive Widened : List Char → List Char → Prop where
  /-- no blank is at the front -/
  | text {cs : List Char} (hcs : ∀ c ∈ cs.head?, isBlank c = false) : Widened cs cs
  /-- a blank other than a tab -/
  | blank {c : Char} {cs wide : List Char} (hc : isBlank c = true) (htab : c ≠ '\t')
    (hrest : Widened cs wide) : Widened (c :: cs) (c :: wide)
  /-- a tab -/
  | tab {cs wide : List Char} (hrest : Widened cs wide) :
    Widened ('\t' :: cs) (' ' :: ' ' :: ' ' :: ' ' :: wide)

theorem Widened.newline_not_mem (h : Widened cs wide) (hcs : '\n' ∉ cs) : '\n' ∉ wide := by
  induction h with
  | text => exact hcs
  | blank _ _ _ ih =>
    exact List.not_mem_cons_of_ne_of_not_mem (List.ne_of_not_mem_cons hcs)
      (ih (List.not_mem_of_not_mem_cons hcs))
  | tab _ ih => simpa using ih (List.not_mem_of_not_mem_cons hcs)

/-- A line of a method as it stands in the wrapping. -/
def StandsAs (line wrapped : List Char) : Prop :=
  ∃ wide, wrapped = [' ', ' ', ' ', ' '] ++ wide ∧ Widened line wide

/-- No tab is before the first character that is no blank. -/
def Untabbed (line : List Char) : Prop := '\t' ∉ line.takeWhile isBlank

instance (line : List Char) : Decidable (Untabbed line) :=
  inferInstanceAs (Decidable ('\t' ∉ line.takeWhile isBlank))

end Text

open Text

variable {c : Char} {line rest wide : List Char} {code code' className : String}

theorem indented_of_text (h : ∀ c ∈ line.head?, isBlank c = false) :
    indented line = [' ', ' ', ' ', ' '] ++ line := by
  cases line with
  | nil => rfl
  | cons c rest =>
    have hc : isBlank c = false := h c rfl
    simp [indented, hc]

/-- A blank in front of a line comes to stand behind the four, as it is or as what replaces it. -/
theorem indented_cons (hc : isBlank c = true) (h : indented rest = [' ', ' ', ' ', ' '] ++ wide) :
    indented (c :: rest) = [' ', ' ', ' ', ' '] ++
      ((if c = '\t' then [' ', ' ', ' ', ' '] else [c]) ++ wide) := by
  rw [indented, List.append_assoc] at h
  rw [indented, List.takeWhile_cons_of_pos hc, List.dropWhile_cons_of_pos hc, List.flatMap_cons,
    List.append_assoc, List.append_assoc, List.append_cancel_left h]

theorem indented_of_widened (h : Widened line wide) :
    indented line = [' ', ' ', ' ', ' '] ++ wide := by
  induction h with
  | text hcs => exact indented_of_text hcs
  | blank hc htab _ ih => rw [indented_cons hc ih, if_neg htab, List.singleton_append]
  | tab _ ih =>
    rw [indented_cons (by decide) ih, if_pos rfl]
    rfl

theorem exists_widened (line : List Char) : ∃ wide, Widened line wide := by
  induction line with
  | nil => exact ⟨[], .text fun _ hc => absurd hc (Option.not_mem_none _)⟩
  | cons c rest ih =>
    obtain ⟨wide, hwide⟩ := ih
    by_cases htab : c = '\t'
    · subst htab
      exact ⟨_, .tab hwide⟩
    · cases hc : isBlank c with
      | true => exact ⟨_, .blank hc htab hwide⟩
      | false => exact ⟨_, .text fun d hd => Option.some.inj hd ▸ hc⟩

/-- A line stands in the wrapping as it is indented, and not as anything else. -/
theorem standsAs_iff {wrapped : List Char} : StandsAs line wrapped ↔ wrapped = indented line := by
  constructor
  · rintro ⟨wide, rfl, hwide⟩
    exact (indented_of_widened hwide).symm
  · rintro rfl
    obtain ⟨wide, hwide⟩ := exists_widened line
    exact ⟨wide, indented_of_widened hwide, hwide⟩

theorem indented_ne_nil (line : List Char) : indented line ≠ [] := by
  obtain ⟨wide, hwide, -⟩ := standsAs_iff.mpr (Eq.refl (indented line))
  rw [hwide]
  exact List.cons_ne_nil _ _

theorem newline_not_mem_indented (h : '\n' ∉ line) : '\n' ∉ indented line := by
  obtain ⟨wide, hwrapped, hwide⟩ := standsAs_iff.mpr (Eq.refl (indented line))
  rw [hwrapped]
  simpa using hwide.newline_not_mem h

theorem indented_of_untabbed (h : Untabbed line) :
    indented line = [' ', ' ', ' ', ' '] ++ line := by
  have hkept : ((line.takeWhile isBlank).flatMap fun c =>
      if c = '\t' then [' ', ' ', ' ', ' '] else [c]) = line.takeWhile isBlank := by
    have hother : ∀ c ∈ line.takeWhile isBlank,
        (if c = '\t' then [' ', ' ', ' ', ' '] else [c]) = [c] := fun c hc =>
      if_neg fun htab : c = '\t' => h (htab ▸ hc)
    rw [List.flatMap_congr hother]
    exact List.flatMap_singleton' _
  rw [indented, hkept, List.append_assoc, List.takeWhile_append_dropWhile]

/-! ## The whole wrapping -/

/-- The lines before the code of a method. -/
def scopedHead : List String :=
  ["def add_code_to_class(cls):", "    # START CODE INJECTION"]

/-- The lines behind it. -/
def scopedTail (className : String) : List String := [
  "    # END CODE INJECTION",
  "    for key, value in locals().items():",
  "        if key != 'cls':",
  "            setattr(cls, key, value)",
  "",
  "add_code_to_class(" ++ className ++ ")",
  "",
  "del add_code_to_class"]

/-- The lines of the code as they stand in between. -/
def scopedBody (code : String) : List (List Char) := (lines code.toList).map indented

theorem toList_scopedCode (code className : String) : (scopedCode code className).toList =
    unlines (scopedHead.map String.toList ++ unlines (scopedBody code) ::
      (scopedTail className).map String.toList) := by
  unfold scopedCode
  rw [← scopedBody]
  simp only [String.toList_append, String.toList_ofList, List.append_assoc]
  simp only [scopedHead, scopedTail, unlines, List.map_cons, List.map_nil, List.cons_append,
    List.nil_append, List.intercalate_cons_cons, List.intercalate_singleton, List.append_assoc,
    String.toList_append, String.reduceToList, ↓Char.isValue]

theorem newline_not_mem_scopedHead : ∀ line ∈ scopedHead.map String.toList, '\n' ∉ line := by
  simp [scopedHead]

theorem newline_not_mem_scopedTail (h : '\n' ∉ className.toList) :
    ∀ line ∈ (scopedTail className).map String.toList, '\n' ∉ line := by
  simpa [scopedTail] using h

theorem newline_not_mem_scopedBody (code : String) : ∀ line ∈ scopedBody code, '\n' ∉ line := by
  intro line hline
  obtain ⟨line, hmem, rfl⟩ := List.mem_map.mp hline
  exact newline_not_mem_indented ((lined_lines _).newline_not_mem line hmem)

/-- The line feeds of a wrapping are those between its lines. -/
theorem splitOn_wrapping (h : '\n' ∉ className.toList) :
    (scopedCode code className).toList.splitOn '\n' = scopedHead.map String.toList ++
      (if code = "" then [[]] else scopedBody code) ++
      (scopedTail className).map String.toList := by
  have hempty : scopedBody code = [] ↔ code = "" := by
    rw [scopedBody, List.map_eq_nil_iff, lines_eq_nil_iff, String.toList_eq_nil_iff]
  rw [toList_scopedCode, splitOn_unlines (by simp), List.flatMap_append, List.flatMap_cons,
    flatMap_splitOn_eq_self newline_not_mem_scopedHead,
    splitOn_unlines_of_newline_not_mem (newline_not_mem_scopedBody code),
    flatMap_splitOn_eq_self (newline_not_mem_scopedTail h), List.append_assoc]
  simp only [hempty]

/-- Two codes have one wrapping exactly if their lines look alike in it. -/
theorem scopedCode_eq_iff : scopedCode code className = scopedCode code' className ↔
    scopedBody code = scopedBody code' := by
  constructor
  · intro h
    have hlines : ∀ (code : String), ∀ line ∈ scopedBody code, line ≠ [] ∧ '\n' ∉ line := by
      intro code line hline
      refine ⟨?_, newline_not_mem_scopedBody code line hline⟩
      obtain ⟨line, -, rfl⟩ := List.mem_map.mp hline
      exact indented_ne_nil line
    refine unlines_inj (hlines code) (hlines code') ?_
    unfold scopedCode at h
    simpa only [scopedBody, String.append_left_inj, String.append_right_inj, String.ofList_inj]
      using h
  · intro h
    rw [← String.toList_inj, toList_scopedCode, toList_scopedCode, h]

/-- Lines without tabs at their fronts do not look alike unless they are the same. -/
theorem scopedBody_eq_iff (h : ∀ line ∈ lines code.toList, Untabbed line)
    (h' : ∀ line ∈ lines code'.toList, Untabbed line) :
    scopedBody code = scopedBody code' ↔ lines code.toList = lines code'.toList := by
  have hbody : ∀ {ls : List (List Char)}, (∀ line ∈ ls, Untabbed line) →
      ls.map indented = ls.map ([' ', ' ', ' ', ' '] ++ ·) := fun hls =>
    List.map_congr_left fun line hline => indented_of_untabbed (hls line hline)
  rw [scopedBody, scopedBody, hbody h, hbody h']
  exact List.map_inj_right fun _ _ => List.append_cancel_left

/-- **A wrapping has the lines of the code, each in its place, and no others but its own.** Taken
apart at its line feeds, it has two lines in front, eight behind, and between them one for each line
of the code, in order; or one that is empty, if there is no code. Each has four blanks at its front,
and then the line of the code, with the tabs at its own front replaced. So codes without such tabs
have one wrapping exactly if they have the same lines, however these end. -/
theorem splitOn_scopedCode (code className : String) :
    (∀ ls, Lined code.toList ls ↔ ls = lines code.toList) ∧
    ('\n' ∉ className.toList → ∃ body,
      (scopedCode code className).toList.splitOn '\n' =
        scopedHead.map String.toList ++ body ++ (scopedTail className).map String.toList ∧
      scopedHead.length = 2 ∧ (scopedTail className).length = 8 ∧
      (code = "" → body = [[]]) ∧
      (code ≠ "" → List.Forall₂ StandsAs (lines code.toList) body)) ∧
    ∀ code' : String, (∀ line ∈ lines code.toList, Untabbed line) →
      (∀ line ∈ lines code'.toList, Untabbed line) →
      (scopedCode code className = scopedCode code' className ↔
        lines code.toList = lines code'.toList) := by
  refine ⟨fun ls => lined_iff, fun hclass => ?_, fun code' h h' => ?_⟩
  · refine ⟨_, splitOn_wrapping hclass, rfl, rfl, fun hnil => if_pos hnil, fun hne => ?_⟩
    rw [if_neg hne, scopedBody, List.forall₂_map_right_iff, List.forall₂_same]
    exact fun line _ => standsAs_iff.mpr rfl
  · rw [scopedCode_eq_iff, scopedBody_eq_iff h h']

/-- Carriage returns within a line stay, those at its end do not. -/
theorem splitOn_scopedCode_mixedEnds :
    '\n' ∉ "Base".toList ∧
      (∀ line ∈ lines "  x\r\n\r\ny\tz\r".toList, Untabbed line) ∧
      (∀ line ∈ lines "  x\n\ny\tz\r\r\n".toList, Untabbed line) ∧
      scopedCode "  x\r\n\r\ny\tz\r" "Base" = scopedCode "  x\n\ny\tz\r\r\n" "Base" ∧
      ∃ body, (scopedCode "  x\r\n\r\ny\tz\r" "Base").toList.splitOn '\n' =
          scopedHead.map String.toList ++ body ++ (scopedTail "Base").map String.toList ∧
        List.Forall₂ StandsAs ["  x".toList, [], "y\tz\r".toList] body := by
  have hclass : '\n' ∉ "Base".toList := by decide
  have huntabbed : ∀ line ∈ lines "  x\r\n\r\ny\tz\r".toList, Untabbed line := by decide
  have huntabbed' : ∀ line ∈ lines "  x\n\ny\tz\r\r\n".toList, Untabbed line := by decide
  obtain ⟨-, hsplit, hsame⟩ := splitOn_scopedCode "  x\r\n\r\ny\tz\r" "Base"
  obtain ⟨body, hbody, -, -, -, hlines⟩ := hsplit hclass
  exact ⟨hclass, huntabbed, huntabbed', (hsame _ huntabbed huntabbed').mpr (by decide), body, hbody,
    hlines (by decide)⟩

/-- A tab looks like the four blanks in its place, so codes may differ in that. -/
example : scopedBody " \tx\ty" = scopedBody "     x\ty" := by decide

end Runbook
