import Runbook.Proofs.Primary

/-!
# Books over time

What holds of a book however it came about: by any sequence of changes from the empty one on.

* `Book.IsLatest`, `Book.latest?_eq_some`: the session updated last, of several the last in order
* `Book.Change`, `Book.Change.apply`, `Book.after`: the changes of a book, by the functions of it
* `Book.Change.names_apply`: all that one change can do to the names of the sessions
* `Book.IsSound`, `Book.IsSound.apply`: what every change keeps
* `Book.EnteredAt`, `Book.pairwise_names_after`: the names stand in the order they came in
* `Book.sound_after`: all of it, for every sequence of changes
-/

namespace Runbook

/-! ## The order of time -/

namespace Instant

theorem le_of_le_eq_false {a b : Instant} (h : a.le b = false) : b.le a = true := by
  simp only [le, Bool.or_eq_false_iff, decide_eq_false_iff_not, Bool.and_eq_false_imp,
    decide_eq_true_eq, Bool.or_eq_true, Bool.and_eq_true] at h ⊢
  omega

theorem le_trans {a b c : Instant} (hab : a.le b = true) (hbc : b.le c = true) :
    a.le c = true := by
  simp only [le, Bool.or_eq_true, Bool.and_eq_true, decide_eq_true_eq] at hab hbc ⊢
  omega

end Instant

namespace Book

/-! ## The session updated last -/

/-- A session was updated no earlier than any before it in the list, and later than all that come
after it. -/
def IsLatest (sessions : List Session) (s : Session) : Prop :=
  ∃ pre post, sessions = pre ++ s :: post ∧
    (∀ t ∈ pre, t.lastUpdate.le s.lastUpdate = true) ∧
    ∀ t ∈ post, s.lastUpdate.le t.lastUpdate = false

theorem IsLatest.mem {sessions : List Session} {s : Session} (h : IsLatest sessions s) :
    s ∈ sessions := by
  obtain ⟨pre, post, rfl, -, -⟩ := h
  exact List.mem_append_right _ (List.mem_cons_self ..)

theorem latest?_concat (sessions : List Session) (t : Session) :
    latest? (sessions ++ [t]) = some (match latest? sessions with
      | some best => if best.lastUpdate.le t.lastUpdate then t else best
      | none => t) := by
  cases sessions with
  | nil => rfl
  | cons s rest =>
    rw [List.cons_append, latest?, List.foldl_append, latest?]
    rfl

theorem latest?_eq_some {sessions : List Session} :
    ∀ {s : Session}, latest? sessions = some s → IsLatest sessions s := by
  induction sessions using List.reverseRecOn with
  | nil => exact fun h => nomatch h
  | append_singleton rest t ih =>
    intro s h
    rw [latest?_concat] at h
    cases hbest : latest? rest with
    | none =>
      rw [hbest] at h
      obtain rfl := Option.some.inj h
      rw [latest?_eq_none_iff] at hbest
      exact ⟨[], [], by rw [hbest], fun t ht => absurd ht List.not_mem_nil,
        fun t ht => absurd ht List.not_mem_nil⟩
    | some best =>
      rw [hbest] at h
      obtain rfl := Option.some.inj h
      obtain ⟨pre, post, hsplit, hpre, hpost⟩ := ih hbest
      dsimp only
      split
      · -- the new one is the latest so far, as the best was before
        rename_i hle
        refine ⟨rest, [], rfl, fun u hu => ?_, fun u hu => absurd hu List.not_mem_nil⟩
        rw [hsplit] at hu
        rcases List.mem_append.mp hu with hu | hu
        · exact Instant.le_trans (hpre u hu) hle
        · rcases List.mem_cons.mp hu with rfl | hu
          · exact hle
          · exact Instant.le_trans (Instant.le_of_le_eq_false (hpost u hu)) hle
      · rename_i hlt
        refine ⟨pre, post ++ [t], by simp [hsplit], hpre, fun u hu => ?_⟩
        rcases List.mem_append.mp hu with hu | hu
        · exact hpost u hu
        · rw [List.mem_singleton.mp hu]
          exact Bool.not_eq_true _ ▸ hlt

/-! ## Changes -/

end Book

/-- A change of what has run in a session. -/
inductive Session.Edit where
  /-- one more execution -/
  | push (e : Execution)
  /-- one execution less, by its position counted from one -/
  | removeAt (position : Nat)
  /-- none left -/
  | reset

/-- What a change makes of a session. -/
def Session.Edit.apply (edit : Session.Edit) (now : Instant) (s : Session) : Session :=
  match edit with
  | push e => s.push e now
  | removeAt position => ((s.removeAt? position now).map Prod.snd).getD s
  | reset => s.reset now

theorem Session.Edit.id_apply (edit : Session.Edit) (now : Instant) (s : Session) :
    (edit.apply now s).id = s.id := by
  cases edit with
  | push e => rfl
  | reset => rfl
  | removeAt position =>
    rw [apply]
    cases hat : s.removeAt? position now with
    | none => rfl
    | some p => exact Session.id_rest hat

namespace Book

/-- A change of a book. -/
inductive Change where
  /-- starts a session -/
  | start (file name : String) (now : Instant)
  /-- puts in a session that is built already -/
  | insert (s : Session)
  /-- takes out a session -/
  | remove (name : String)
  /-- makes a session the primary one -/
  | setPrimary (name : String)
  /-- moves primary from a session that is empty or gone -/
  | refreshPrimary
  /-- changes what has run in a session of the book -/
  | edit (name : String) (change : Session.Edit) (now : Instant)

namespace Change

/-- What a change makes of a book. One that is refused or finds no session leaves it. -/
def apply (c : Change) (b : Book) : Book :=
  match c with
  | .start file name now =>
    match b.start file name now with
    | .ok (_, b') => b'
    | .error _ => b
  | .insert s => b.insert s
  | .remove name => ((b.remove? name).map Prod.snd).getD b
  | .setPrimary name => b.setPrimary name
  | .refreshPrimary => b.refreshPrimary
  | .edit name change now =>
    match b.get? name with
    | some s => b.replace name (change.apply now s)
    | none => b

/-- The change puts in a session of this name. -/
def Brings (c : Change) (name : String) : Prop :=
  (∃ file now, c = start file name now) ∨ ∃ s : Session, s.id = name ∧ c = insert s

end Change

variable {b b' : Book}

theorem contains_iff_mem_names {name : String} : b.contains name = true ↔ name ∈ b.names :=
  contains_iff

/-- A session is started where its name is free, and only there. -/
theorem start_of_mem {name : String} (h : name ∈ b.names) (file : String) (now : Instant) :
    b.start file name now = .error (.duplicateSession file name) := by
  rw [start, if_pos (contains_iff.mpr h)]

theorem start_of_not_mem {name : String} (h : name ∉ b.names) (file : String) (now : Instant) :
    b.start file name now = .ok (.new name now,
      ⟨b.sessions ++ [.new name now], b.primary.or (some name)⟩) := by
  rw [start, if_neg fun hmem => h (contains_iff.mp hmem)]
  cases b.primary <;> rfl

theorem remove?_of_not_mem {name : String} (h : name ∉ b.names) : b.remove? name = none := by
  rw [remove?, Option.map_eq_none_iff, ← Option.not_isSome_iff_eq_none]
  exact fun hsome => h (contains_iff.mp hsome)

theorem remove?_eq_some {name : String} {s : Session} (hs : b.get? name = some s) :
    b.remove? name = some (s, {
      sessions := b.sessions.eraseP fun t => t.id = name
      primary := if b.primary = some name
        then (latest? (b.sessions.eraseP fun t => t.id = name)).map Session.id
        else b.primary }) := by
  rw [remove?, hs, Option.map_some]

/-- A session put in takes the place of the one of its name, or comes last. -/
theorem names_insert (b : Book) (s : Session) :
    (b.insert s).names = if s.id ∈ b.names then b.names else b.names ++ [s.id] := by
  rw [insert]
  split
  · rename_i hthere
    obtain ⟨t, ht⟩ := Option.isSome_iff_exists.mp hthere
    rw [names_replace ht rfl, if_pos (contains_iff_mem_names.mp hthere)]
  · rename_i hfree
    rw [if_neg fun hmem => hfree (contains_iff_mem_names.mpr hmem), names, List.map_append]
    rfl

/-- All that a change can do to the names of the sessions. -/
theorem Change.names_apply (c : Change) (b : Book) :
    (c.apply b).names = b.names ∨
      (∃ name, c.Brings name ∧ name ∉ b.names ∧ (c.apply b).names = b.names ++ [name]) ∨
      ∃ name, c = .remove name ∧ (c.apply b).names = b.names.erase name := by
  cases c with
  | start file name now =>
    rw [apply]
    by_cases hmem : name ∈ b.names
    · rw [start_of_mem hmem]
      exact .inl rfl
    · rw [start_of_not_mem hmem]
      exact .inr (.inl ⟨name, .inl ⟨file, now, rfl⟩, hmem, List.map_append⟩)
  | insert s =>
    rw [apply, names_insert]
    split
    · exact .inl rfl
    · rename_i hfree
      exact .inr (.inl ⟨s.id, .inr ⟨s, rfl, rfl⟩, hfree, rfl⟩)
  | remove name =>
    rw [apply]
    cases hremove : b.remove? name with
    | none => exact .inl rfl
    | some p => exact .inr (.inr ⟨name, rfl, names_remove? hremove⟩)
  | setPrimary name => exact .inl (Book.names_setPrimary b name)
  | refreshPrimary => exact .inl (Book.names_refreshPrimary b)
  | edit name change now =>
    rw [apply]
    split
    · rename_i s hs
      exact .inl (names_replace hs ((change.id_apply now s).trans (exists_split hs).1))
    · exact .inl rfl

/-! ## What every change keeps -/

/-- No two sessions share a name, and the primary one is one of them. -/
structure IsSound (b : Book) : Prop where
  /-- the names differ -/
  nodup : b.names.Nodup
  /-- the primary session is there -/
  primary : ∀ name, b.primary = some name → name ∈ b.names

theorem isSound_empty : IsSound empty := ⟨List.nodup_nil, fun _ h => nomatch h⟩

theorem nodup_names_apply (c : Change) (h : b.names.Nodup) : (c.apply b).names.Nodup := by
  rcases c.names_apply b with heq | ⟨name, -, hfree, heq⟩ | ⟨name, -, heq⟩
  · rw [heq]
    exact h
  · rw [heq]
    exact h.append (List.nodup_singleton _) (List.disjoint_singleton.mpr hfree)
  · rw [heq]
    exact h.erase name

/-- Once a session is taken out, the one updated last of the others is primary if it was primary
itself, and otherwise the one that was primary before. -/
def HandsOver (b : Book) (name : String) (b' : Book) : Prop :=
  (b.primary = some name → (b'.sessions = [] ∧ b'.primary = none) ∨
      ∃ t, IsLatest b'.sessions t ∧ b'.primary = some t.id) ∧
    (b.primary ≠ some name → b'.primary = b.primary)

theorem handsOver_remove? {name : String} {s : Session} (h : b.remove? name = some (s, b')) :
    b.HandsOver name b' := by
  obtain ⟨t, -, heq⟩ := Option.map_eq_some_iff.mp h
  cases heq
  refine ⟨fun hprimary => ?_, fun hother => by rw [if_neg hother]⟩
  rw [if_pos hprimary]
  cases hlatest : latest? (b.sessions.eraseP fun t => t.id = name) with
  | none => exact .inl ⟨latest?_eq_none_iff.mp hlatest, rfl⟩
  | some u => exact .inr ⟨u, latest?_eq_some hlatest, rfl⟩

/-- Where the primary session is empty or gone, primary moves to the one updated last of those that
are not empty, if there is any. -/
theorem primary_refreshPrimary (h : b.primaryIsLive = false) :
    ((∀ s ∈ b.sessions, s.isEmpty = true) ∧ b.refreshPrimary.primary = b.primary) ∨
      ∃ s, IsLatest (b.sessions.filter fun s => !s.isEmpty) s ∧
        b.refreshPrimary.primary = some s.id := by
  rw [refreshPrimary, h]
  cases hlatest : latest? (b.sessions.filter fun s => !s.isEmpty) with
  | none =>
    rw [latest?_eq_none_iff, List.filter_eq_nil_iff] at hlatest
    exact .inl ⟨fun s hs => by simpa using hlatest s hs, rfl⟩
  | some s => exact .inr ⟨s, latest?_eq_some hlatest, rfl⟩

/-- The primary session, if there is one, is in the book. -/
def NamesPrimary (b : Book) : Prop := ∀ name, b.primary = some name → name ∈ b.names

theorem namesPrimary_of_mem {name : String} (h : b.primary = some name) (hname : name ∈ b.names) :
    b.NamesPrimary := fun _ hother => Option.some.inj (h.symm.trans hother) ▸ hname

namespace NamesPrimary

theorem of_same (h : b.NamesPrimary) (hprimary : b'.primary = b.primary)
    (hnames : ∀ name ∈ b.names, name ∈ b'.names) : b'.NamesPrimary :=
  fun name hname => hnames name (h name (hprimary ▸ hname))

/-- A session that comes last is primary if no other is. -/
theorem concat (h : b.NamesPrimary) (s : Session) :
    NamesPrimary ⟨b.sessions ++ [s], b.primary.or (some s.id)⟩ := by
  cases hprimary : b.primary with
  | none =>
    refine namesPrimary_of_mem rfl ?_
    rw [names, List.map_append]
    exact List.mem_append_right _ (List.mem_singleton_self _)
  | some name =>
    refine namesPrimary_of_mem rfl ?_
    rw [names, List.map_append]
    exact List.mem_append_left _ (h name hprimary)

theorem insert (h : b.NamesPrimary) (s : Session) : (b.insert s).NamesPrimary := by
  have hsame : (b.insert s).primary = b.primary := by
    rw [Book.insert]
    split <;> rfl
  refine h.of_same hsame fun name hname => ?_
  rw [names_insert]
  split
  · exact hname
  · exact List.mem_append_left _ hname

theorem remove? (h : b.NamesPrimary) {name : String} {s : Session}
    (hremove : b.remove? name = some (s, b')) : b'.NamesPrimary := by
  obtain ⟨hhands, hkeeps⟩ := handsOver_remove? hremove
  by_cases hprimary : b.primary = some name
  · rcases hhands hprimary with ⟨-, hnone⟩ | ⟨t, hlatest, hsome⟩
    · exact fun _ hp => nomatch hnone.symm.trans hp
    · exact namesPrimary_of_mem hsome (List.mem_map_of_mem hlatest.mem)
  · intro p hp
    have hthere : b.primary = some p := (hkeeps hprimary).symm.trans hp
    have hne : p ≠ name := fun heq => hprimary (heq ▸ hthere)
    rw [names_remove? hremove, List.mem_erase_of_ne hne]
    exact h p hthere

theorem setPrimary (h : b.NamesPrimary) (name : String) : (b.setPrimary name).NamesPrimary := by
  rw [Book.setPrimary]
  split
  · rename_i hthere
    exact namesPrimary_of_mem rfl (contains_iff.mp hthere)
  · exact h

theorem refreshPrimary (h : b.NamesPrimary) : b.refreshPrimary.NamesPrimary := by
  cases hlive : b.primaryIsLive with
  | true =>
    rw [Book.refreshPrimary, if_pos hlive]
    exact h
  | false =>
    have hnames := Book.names_refreshPrimary b
    rcases primary_refreshPrimary hlive with ⟨-, hsame⟩ | ⟨s, hlatest, hsome⟩
    · exact h.of_same hsame fun _ => (hnames ▸ ·)
    · refine namesPrimary_of_mem hsome ?_
      rw [hnames]
      exact List.mem_map_of_mem (List.mem_filter.mp hlatest.mem).1

theorem apply (h : b.NamesPrimary) (c : Change) : (c.apply b).NamesPrimary := by
  cases c with
  | start file name now =>
    rw [Change.apply]
    by_cases hmem : name ∈ b.names
    · rw [start_of_mem hmem]
      exact h
    · rw [start_of_not_mem hmem]
      exact h.concat (.new name now)
  | insert s => exact h.insert s
  | remove name =>
    rw [Change.apply]
    cases hremove : b.remove? name with
    | none => exact h
    | some p => exact h.remove? hremove
  | setPrimary name => exact h.setPrimary name
  | refreshPrimary => exact h.refreshPrimary
  | edit name change now =>
    rw [Change.apply]
    split
    · rename_i s hs
      have hnames := names_replace hs ((change.id_apply now s).trans (exists_split hs).1)
      exact h.of_same rfl fun _ => (hnames ▸ ·)
    · exact h

end NamesPrimary

theorem IsSound.apply (h : b.IsSound) (c : Change) : (c.apply b).IsSound :=
  ⟨nodup_names_apply c h.nodup, NamesPrimary.apply h.primary c⟩

/-! ## Sequences of changes -/

/-- The book after some changes of the empty one. -/
def after (changes : List Change) : Book := changes.foldl (fun b c => c.apply b) empty

theorem after_concat (changes : List Change) (c : Change) :
    after (changes ++ [c]) = c.apply (after changes) := by
  rw [after, List.foldl_append]
  rfl

theorem isSound_after (changes : List Change) : (after changes).IsSound := by
  induction changes using List.reverseRecOn with
  | nil => exact isSound_empty
  | append_singleton rest c ih =>
    rw [after_concat]
    exact ih.apply c

/-- The change at a position brought in a session of this name, where there was none, and there
has been one since. -/
def EnteredAt (changes : List Change) (name : String) (i : Nat) : Prop :=
  (∃ c, changes[i]? = some c ∧ c.Brings name) ∧ name ∉ (after (changes.take i)).names ∧
    ∀ j, i < j → name ∈ (after (changes.take j)).names

/-- One name came in before another. -/
def EnteredBefore (changes : List Change) (name other : String) : Prop :=
  ∃ i j, EnteredAt changes name i ∧ EnteredAt changes other j ∧ i < j

theorem EnteredAt.lt {changes : List Change} {name : String} {i : Nat}
    (h : EnteredAt changes name i) : i < changes.length := by
  obtain ⟨⟨c, hc, -⟩, -⟩ := h
  exact (List.getElem?_eq_some_iff.mp hc).1

/-- A name that is still there after one more change came in when it had before. -/
theorem EnteredAt.concat {changes : List Change} {name : String} {i : Nat}
    (h : EnteredAt changes name i) {c : Change} (hthere : name ∈ (c.apply (after changes)).names) :
    EnteredAt (changes ++ [c]) name i := by
  obtain ⟨⟨d, hd, hbrings⟩, hout, hin⟩ := h
  have hlt : i < changes.length := (List.getElem?_eq_some_iff.mp hd).1
  refine ⟨⟨d, by rw [List.getElem?_append_left hlt, hd], hbrings⟩, ?_, fun j hj => ?_⟩
  · rw [List.take_append_of_le_length (Nat.le_of_lt hlt)]
    exact hout
  · rcases Nat.lt_or_ge changes.length j with hlater | hsooner
    · rw [List.take_of_length_le (by rw [List.length_append]; exact hlater), after_concat]
      exact hthere
    · rw [List.take_append_of_le_length hsooner]
      exact hin j hj

/-- A name that one more change brought in came in with it. -/
theorem enteredAt_concat {changes : List Change} {name : String} {c : Change}
    (hbrings : c.Brings name) (hout : name ∉ (after changes).names)
    (hthere : name ∈ (c.apply (after changes)).names) :
    EnteredAt (changes ++ [c]) name changes.length := by
  refine ⟨⟨c, List.getElem?_concat_length .., hbrings⟩, ?_, fun j hj => ?_⟩
  · rw [List.take_append_of_le_length (Nat.le_refl _), List.take_length]
    exact hout
  · rw [List.take_of_length_le (by rw [List.length_append]; exact hj), after_concat]
    exact hthere

/-- Every name of a book came in at some time. -/
theorem exists_enteredAt (changes : List Change) :
    ∀ name ∈ (after changes).names, ∃ i, EnteredAt changes name i := by
  induction changes using List.reverseRecOn with
  | nil => exact fun name h => absurd h List.not_mem_nil
  | append_singleton rest c ih =>
    intro name hname
    rw [after_concat] at hname
    by_cases hbefore : name ∈ (after rest).names
    · obtain ⟨i, hi⟩ := ih name hbefore
      exact ⟨i, hi.concat hname⟩
    · rcases c.names_apply (after rest) with heq | ⟨other, hbrings, hfree, heq⟩ | ⟨other, -, heq⟩
      · exact absurd (heq ▸ hname) hbefore
      · have hmem := hname
        rw [heq, List.mem_append, List.mem_singleton] at hmem
        obtain rfl : name = other := hmem.resolve_left hbefore
        exact ⟨_, enteredAt_concat hbrings hbefore hname⟩
      · exact absurd (List.mem_of_mem_erase (heq ▸ hname)) hbefore

/-- The names stand in the order in which they came in. -/
theorem pairwise_names_after (changes : List Change) :
    (after changes).names.Pairwise (EnteredBefore changes) := by
  induction changes using List.reverseRecOn with
  | nil => exact List.Pairwise.nil
  | append_singleton rest c ih =>
    rw [after_concat]
    -- what stays in keeps its place in the order
    have hkept : ∀ names : List String, names.Sublist (after rest).names →
        (∀ name ∈ names, name ∈ (c.apply (after rest)).names) →
        names.Pairwise (EnteredBefore (rest ++ [c])) := by
      intro names hsub hthere
      refine (ih.sublist hsub).imp_of_mem fun hname hother => ?_
      rintro ⟨i, j, hi, hj, hij⟩
      exact ⟨i, j, hi.concat (hthere _ hname), hj.concat (hthere _ hother), hij⟩
    rcases c.names_apply (after rest) with heq | ⟨name, hbrings, hfree, heq⟩ | ⟨name, -, heq⟩
    · refine hkept _ ?_ fun _ h => h
      rw [heq]
    · have hthere : name ∈ (c.apply (after rest)).names := by
        rw [heq]
        exact List.mem_append_right _ (List.mem_singleton_self _)
      have hstays : ∀ other ∈ (after rest).names, other ∈ (c.apply (after rest)).names := by
        rw [heq]
        exact fun other h => List.mem_append_left _ h
      have hold := hkept _ (List.Sublist.refl _) hstays
      rw [heq]
      refine List.pairwise_append.mpr ⟨hold, List.pairwise_singleton .., ?_⟩
      intro other hother new hnew
      obtain rfl := List.mem_singleton.mp hnew
      obtain ⟨i, hi⟩ := exists_enteredAt rest other hother
      exact ⟨i, rest.length, hi.concat (hstays other hother),
        enteredAt_concat hbrings hfree hthere, hi.lt⟩
    · refine hkept _ ?_ fun _ h => h
      rw [heq]
      exact List.erase_sublist

/-- Where names differ, taking out a session takes out all of its name. -/
theorem sessions_remove? (hnames : b.names.Nodup) {name : String} {s : Session}
    (h : b.remove? name = some (s, b')) :
    b'.sessions = b.sessions.filter fun t => t.id ≠ name := by
  obtain ⟨t, hget, heq⟩ := Option.map_eq_some_iff.mp h
  obtain ⟨rfl, pre, post, hsplit, hpre, -, herase⟩ := exists_split hget
  cases heq
  rw [names, hsplit, List.map_append, List.map_cons, List.nodup_middle] at hnames
  have hpost : ∀ u ∈ post, u.id ≠ s.id := fun u hu hid =>
    (List.nodup_cons.mp hnames).1 (hid ▸ List.mem_append_right _ (List.mem_map_of_mem hu))
  rw [herase, hsplit, List.filter_append, List.filter_cons_of_neg (by simp),
    List.filter_eq_self.mpr fun u hu => decide_eq_true (hpre u hu),
    List.filter_eq_self.mpr fun u hu => decide_eq_true (hpost u hu)]

/-- **Books over time.** After any changes of the empty book the names of its sessions differ and
stand in the order they came in, and the primary session is one of them. A session is started where
its name is free; where it is taken, nothing changes. One that is taken out hands over to the one
updated last if it was primary, to none if no other is left, and otherwise leaves the primary one.
And once primary is refreshed, it is a session that is not empty where there is any, the same as
before if that one was not, or else the one updated last of those that are not. -/
theorem sound_after (changes : List Change) :
    (after changes).names.Nodup ∧
      (after changes).names.Pairwise (EnteredBefore changes) ∧
      (∀ name, (after changes).primary = some name → name ∈ (after changes).names) ∧
      (∀ file name now,
        (name ∈ (after changes).names ↔
          (after changes).start file name now = .error (.duplicateSession file name)) ∧
        (name ∈ (after changes).names → after (changes ++ [.start file name now]) = after changes) ∧
        (name ∉ (after changes).names → ∃ b',
          (after changes).start file name now = .ok (.new name now, b') ∧
          b'.sessions = (after changes).sessions ++ [.new name now])) ∧
      (∀ name, name ∉ (after changes).names → (after changes).remove? name = none) ∧
      (∀ name s, (after changes).get? name = some s → ∃ b',
        (after changes).remove? name = some (s, b') ∧
        b'.sessions = ((after changes).sessions.filter fun t => t.id ≠ name) ∧
        (after changes).HandsOver name b') ∧
      ((after changes).refreshPrimary.sessions = (after changes).sessions ∧
        (after changes).refreshPrimary.HasLivePrimary ∧
        (after changes).KeepsPrimary (after changes).refreshPrimary ∧
        ((after changes).primaryIsLive = false →
          (∃ s ∈ (after changes).sessions, s.isEmpty = false) →
          ∃ s, IsLatest ((after changes).sessions.filter fun s => !s.isEmpty) s ∧
            (after changes).refreshPrimary.primary = some s.id)) := by
  obtain ⟨hnodup, hprimary⟩ := isSound_after changes
  refine ⟨hnodup, pairwise_names_after changes, hprimary, fun file name now => ⟨⟨?_, ?_⟩, ?_, ?_⟩,
    fun name hfree => remove?_of_not_mem hfree, fun name s hs => ?_,
    sessions_refreshPrimary _, hasLivePrimary_refreshPrimary hnodup,
    keepsPrimary_refreshPrimary _, fun hdead hany => ?_⟩
  · exact fun hmem => start_of_mem hmem file now
  · intro hrefused
    by_contra hfree
    cases (start_of_not_mem hfree file now).symm.trans hrefused
  · intro hmem
    rw [after_concat, Change.apply, start_of_mem hmem]
  · exact fun hfree => ⟨_, start_of_not_mem hfree file now, rfl⟩
  · have hremove := remove?_eq_some hs
    exact ⟨_, hremove, sessions_remove? hnodup hremove, handsOver_remove? hremove⟩
  · rcases primary_refreshPrimary hdead with ⟨hempty, -⟩ | hmoves
    · obtain ⟨s, hs, hlive⟩ := hany
      cases (hempty s hs).symm.trans hlive
    · exact hmoves

/-- Of two sessions updated at the same time, the later one takes over. -/
example : (after [.start "f" "a" (default : World).now, .start "f" "b" (default : World).now,
    .start "f" "c" (default : World).now, .remove "a"]).primary = some "c" := by decide

end Book

end Runbook
