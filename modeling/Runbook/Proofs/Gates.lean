import Mathlib.Data.List.Nodup
import Runbook.Ledger.Gates

/-!
# Gates that let one pass at a time

Gates are made when somebody arrives and forgotten when nobody is left. `WellKept` says what holds
all the while: places can be told apart, every place is at the one gate that the table knows for
its session, and no gate stands for two sessions.

* `Gates.WellKept.arrive`, `Gates.WellKept.release`, `Gates.WellKept.prune`: kept by all changes
* `Gates.WellKept.gate_eq`: all places of a session are at one gate
* `Gates.WellKept.eq_of_isGranted`: of the places of a session only one is at the head of the line
* `Gates.isGranted_arrive`, `Gates.isGranted_release`: who is at the head stays there until he
  gives up his own place
* `Gates.lineOf`: the line of a session, whichever gate stands for it
-/

namespace Runbook

namespace Gates

/-- The gates and the places at them are in order. -/
structure WellKept (g : Gates) : Prop where
  /-- serials are given out one by one -/
  serial_lt : ∀ t ∈ g.turns, t.serial < g.nextSerial
  /-- no two places share a serial -/
  serials : (g.turns.map Turn.serial).Nodup
  /-- gates are made one by one -/
  gate_lt : ∀ entry ∈ g.table, entry.2 < g.nextGate
  /-- a session has at most one gate -/
  keys : (g.table.map Prod.fst).Nodup
  /-- a gate stands for one session only -/
  gates : (g.table.map Prod.snd).Nodup
  /-- a place is at the gate of its session -/
  placed : ∀ t ∈ g.turns, ((t.file, t.session), t.gate) ∈ g.table

@[simp] theorem session_arrive (g : Gates) (file session : String) :
    (g.arrive file session).1.session = session := by
  rw [arrive]
  split <;> rfl

theorem mem_of_gate? {g : Gates} {file session : String} {gate : Nat}
    (h : g.gate? file session = some gate) : ((file, session), gate) ∈ g.table := by
  obtain ⟨entry, hentry, rfl⟩ := Option.map_eq_some_iff.mp h
  have hkey : entry.1 = (file, session) := by simpa using List.find?_some hentry
  rw [← hkey]
  exact List.mem_of_find?_eq_some hentry

theorem wellKept_empty : WellKept empty where
  serial_lt _ ht := absurd ht List.not_mem_nil
  serials := List.nodup_nil
  gate_lt _ he := absurd he List.not_mem_nil
  keys := List.nodup_nil
  gates := List.nodup_nil
  placed _ ht := absurd ht List.not_mem_nil

namespace WellKept

variable {g : Gates}

/-- Places are told apart by their serials. -/
theorem eq_of_serial (h : g.WellKept) {t u : Turn} (ht : t ∈ g.turns) (hu : u ∈ g.turns)
    (heq : t.serial = u.serial) : t = u :=
  List.inj_on_of_nodup_map h.serials ht hu heq

/-- All places of a session are at one gate. -/
theorem gate_eq (h : g.WellKept) {t u : Turn} (ht : t ∈ g.turns) (hu : u ∈ g.turns)
    (hfile : t.file = u.file) (hsession : t.session = u.session) : t.gate = u.gate := by
  have hentry := List.inj_on_of_nodup_map h.keys (h.placed t ht) (h.placed u hu)
    (by rw [hfile, hsession])
  exact congrArg Prod.snd hentry

/-! ## Changes -/

theorem refs_pos {t : Turn} (ht : t ∈ g.turns) : 0 < g.refs t.gate :=
  List.countP_pos_iff.mpr ⟨t, ht, decide_eq_true rfl⟩

theorem prune (h : g.WellKept) : g.prune.WellKept where
  serial_lt := h.serial_lt
  serials := h.serials
  gate_lt entry he := h.gate_lt entry (List.mem_filter.mp he).1
  keys := h.keys.sublist (List.filter_sublist.map _)
  gates := h.gates.sublist (List.filter_sublist.map _)
  placed t ht := List.mem_filter.mpr ⟨h.placed t ht, decide_eq_true (refs_pos ht)⟩

theorem addGate (h : g.WellKept) {file session : String} (hnew : g.gate? file session = none) :
    (g.addGate file session).WellKept := by
  refine ⟨h.serial_lt, h.serials, ?_, ?_, ?_, ?_⟩
  · intro entry he
    rcases List.mem_append.mp he with he | he
    · exact Nat.lt_succ_of_lt (h.gate_lt entry he)
    · rw [List.mem_singleton.mp he]
      exact Nat.lt_succ_self _
  · -- the session has no gate yet, as none was found
    have hkey : (file, session) ∉ g.table.map Prod.fst := by
      intro hmem
      obtain ⟨entry, he, heq⟩ := List.mem_map.mp hmem
      rw [gate?, Option.map_eq_none_iff, List.find?_eq_none] at hnew
      exact hnew entry he (decide_eq_true heq)
    rw [Gates.addGate, List.map_append, List.map_singleton]
    exact List.Nodup.append h.keys (List.nodup_singleton _)
      (List.disjoint_singleton.mpr hkey)
  · -- the gate is new, as all others were made before
    have hgate : g.nextGate ∉ g.table.map Prod.snd := by
      intro hmem
      obtain ⟨entry, he, heq⟩ := List.mem_map.mp hmem
      exact absurd (h.gate_lt entry he) (heq ▸ Nat.lt_irrefl _)
    rw [Gates.addGate, List.map_append, List.map_singleton]
    exact List.Nodup.append h.gates (List.nodup_singleton _)
      (List.disjoint_singleton.mpr hgate)
  · exact fun t ht => List.mem_append_left _ (h.placed t ht)

theorem join (h : g.WellKept) {file session : String} {gate : Nat}
    (hgate : ((file, session), gate) ∈ g.table) : (g.join file session gate).2.WellKept := by
  refine ⟨?_, ?_, h.gate_lt, h.keys, h.gates, ?_⟩
  · intro t ht
    rcases List.mem_append.mp ht with ht | ht
    · exact Nat.lt_succ_of_lt (h.serial_lt t ht)
    · rw [List.mem_singleton.mp ht]
      exact Nat.lt_succ_self _
  · have hserial : g.nextSerial ∉ g.turns.map Turn.serial := by
      intro hmem
      obtain ⟨t, ht, heq⟩ := List.mem_map.mp hmem
      exact absurd (h.serial_lt t ht) (heq ▸ Nat.lt_irrefl _)
    rw [Gates.join, List.map_append, List.map_singleton]
    exact List.Nodup.append h.serials (List.nodup_singleton _)
      (List.disjoint_singleton.mpr hserial)
  · intro t ht
    rcases List.mem_append.mp ht with ht | ht
    · exact h.placed t ht
    · rw [List.mem_singleton.mp ht]
      exact hgate

/-- Whoever arrives is the last of all, at the gate of the session. -/
theorem arrive (h : g.WellKept) (file session : String) :
    (g.arrive file session).2.WellKept ∧
      (g.arrive file session).2.turns = g.turns ++ [(g.arrive file session).1] ∧
      (g.arrive file session).1.file = file ∧ (g.arrive file session).1.session = session := by
  rw [Gates.arrive]
  cases hgate : g.prune.gate? file session with
  | some gate => exact ⟨h.prune.join (mem_of_gate? hgate), rfl, rfl, rfl⟩
  | none =>
    have hmem : ((file, session), g.prune.nextGate) ∈ (g.prune.addGate file session).table :=
      List.mem_append_right _ (List.mem_cons_self ..)
    exact ⟨(h.prune.addGate hgate).join hmem, rfl, rfl, rfl⟩

theorem release (h : g.WellKept) (t : Turn) : (g.release t).WellKept where
  serial_lt u hu := h.serial_lt u (List.mem_filter.mp hu).1
  serials := h.serials.sublist (List.filter_sublist.map _)
  gate_lt := h.gate_lt
  keys := h.keys
  gates := h.gates
  placed u hu := h.placed u (List.mem_filter.mp hu).1

theorem releaseAll (ts : List Turn) : ∀ {g : Gates}, g.WellKept → (g.releaseAll ts).WellKept := by
  induction ts with
  | nil => exact fun h => h
  | cons t rest ih => exact fun h => ih (h.release t)

/-- Giving up a place takes away just that. -/
theorem perm_release (h : g.WellKept) {t : Turn} {rest : List Turn}
    (hperm : (t :: rest).Perm g.turns) : rest.Perm (g.release t).turns := by
  have hserials : ((t :: rest).map Turn.serial).Nodup := (hperm.map _).nodup_iff.mpr h.serials
  rw [List.map_cons, List.nodup_cons] at hserials
  have hrest : (t :: rest).filter (fun u => u.serial ≠ t.serial) = rest := by
    rw [List.filter_cons_of_neg (by simp), List.filter_eq_self]
    intro u hu
    rw [decide_eq_true_eq]
    exact fun heq => hserials.1 (heq ▸ List.mem_map_of_mem hu)
  rw [← hrest]
  exact hperm.filter _

theorem perm_releaseAll (ts : List Turn) : ∀ {g : Gates} {rest : List Turn}, g.WellKept →
    (ts ++ rest).Perm g.turns → rest.Perm (g.releaseAll ts).turns := by
  induction ts with
  | nil => exact fun _ hperm => hperm
  | cons t ts ih => exact fun h hperm => ih (h.release t) (h.perm_release hperm)

/-! ## The head of the line -/

theorem isGranted_iff (h : g.WellKept) {t : Turn} (ht : t ∈ g.turns) :
    g.isGranted t = true ↔ (g.line t.gate).head? = some t := by
  rw [isGranted]
  cases hhead : (g.line t.gate).head? with
  | none => simp
  | some u =>
    have hu : u ∈ g.turns := (List.mem_filter.mp (List.mem_of_head? hhead)).1
    rw [Option.some.injEq, decide_eq_true_eq]
    exact ⟨fun heq => h.eq_of_serial hu ht heq, fun heq => heq ▸ rfl⟩

/-- Of the places of a session only one is at the head of the line. -/
theorem eq_of_isGranted (h : g.WellKept) {t u : Turn} (ht : t ∈ g.turns) (hu : u ∈ g.turns)
    (hfile : t.file = u.file) (hsession : t.session = u.session) (htg : g.isGranted t = true)
    (hug : g.isGranted u = true) : t = u := by
  rw [h.isGranted_iff ht, h.gate_eq ht hu hfile hsession] at htg
  rw [h.isGranted_iff hu] at hug
  exact Option.some.inj (htg.symm.trans hug)

end WellKept

/-! ## Lines after a change -/

theorem refs_eq_length (g : Gates) (gate : Nat) : g.refs gate = (g.line gate).length :=
  List.countP_eq_length_filter ..

/-- A gate is kept just when somebody is at it. -/
theorem mem_table_prune (g : Gates) (gate : Nat) : gate ∈ g.prune.table.map Prod.snd ↔
    gate ∈ g.table.map Prod.snd ∧ 0 < g.refs gate := by
  constructor
  · intro hgate
    obtain ⟨entry, hentry, rfl⟩ := List.mem_map.mp hgate
    obtain ⟨hentry, hrefs⟩ := List.mem_filter.mp hentry
    exact ⟨List.mem_map_of_mem hentry, of_decide_eq_true hrefs⟩
  · rintro ⟨hgate, hrefs⟩
    obtain ⟨entry, hentry, rfl⟩ := List.mem_map.mp hgate
    exact List.mem_map_of_mem (List.mem_filter.mpr ⟨hentry, decide_eq_true hrefs⟩)

@[simp] theorem line_prune (g : Gates) (gate : Nat) : g.prune.line gate = g.line gate := rfl

theorem line_join (g : Gates) (file session : String) (gate gate' : Nat) :
    (g.join file session gate).2.line gate' =
      g.line gate' ++ if gate = gate' then [(g.join file session gate).1] else [] := by
  rw [line, join, List.filter_append, line]
  congr 1
  by_cases hgate : gate = gate'
  · rw [if_pos hgate]
    exact List.filter_cons_of_pos (decide_eq_true hgate)
  · rw [if_neg hgate]
    exact List.filter_cons_of_neg fun h => hgate (of_decide_eq_true h)

theorem line_release (g : Gates) (t : Turn) (gate : Nat) :
    (g.release t).line gate = (g.line gate).filter fun u => u.serial ≠ t.serial := by
  rw [line, release, List.filter_filter, line, List.filter_filter]
  exact List.filter_congr fun u _ => Bool.and_comm ..

namespace WellKept

variable {g : Gates}

/-- The table knows one gate for a session. -/
theorem gate?_of_mem (h : g.WellKept) {file session : String} {gate : Nat}
    (hmem : ((file, session), gate) ∈ g.table) : g.gate? file session = some gate := by
  cases hfound : g.gate? file session with
  | none =>
    rw [gate?, Option.map_eq_none_iff, List.find?_eq_none] at hfound
    exact absurd (decide_eq_true rfl) (hfound _ hmem)
  | some found =>
    have hentry := List.inj_on_of_nodup_map h.keys (mem_of_gate? hfound) hmem rfl
    exact congrArg some (Prod.mk.inj hentry).2

/-- No gate was made yet under the next number, and nobody is at it. -/
theorem line_nextGate (h : g.WellKept) : g.line g.nextGate = [] := by
  refine List.filter_eq_nil_iff.mpr fun t ht hgate => ?_
  exact absurd (h.gate_lt _ (h.placed t ht)) (of_decide_eq_true hgate ▸ Nat.lt_irrefl _)

/-- Other lines stay as they are when a place is given up. -/
theorem line_release_of_ne (h : g.WellKept) {t : Turn} (ht : t ∈ g.turns) {gate : Nat}
    (hne : gate ≠ t.gate) : (g.release t).line gate = g.line gate := by
  rw [line_release, List.filter_eq_self]
  intro u hu
  obtain ⟨hu, hgate⟩ := List.mem_filter.mp hu
  refine decide_eq_true fun hserial => hne ?_
  rw [← h.eq_of_serial hu ht hserial]
  exact (of_decide_eq_true hgate).symm

/-- Giving up a place takes just that one out of its line. -/
theorem line_release_split (h : g.WellKept) {t : Turn} {pre post : List Turn}
    (hline : g.line t.gate = pre ++ t :: post) :
    pre.filter (fun u => u.serial ≠ t.serial) = pre ∧
      post.filter (fun u => u.serial ≠ t.serial) = post ∧
      (g.release t).line t.gate = pre ++ post := by
  have hserials : ((pre ++ t :: post).map Turn.serial).Nodup := by
    rw [← hline]
    exact h.serials.sublist (List.filter_sublist.map _)
  rw [List.map_append, List.map_cons, List.nodup_middle, List.nodup_cons] at hserials
  have hother : ∀ u, u ∈ pre ++ post → decide (u.serial ≠ t.serial) = true := by
    refine fun u hu => decide_eq_true fun heq => hserials.1 ?_
    rw [← heq, ← List.map_append]
    exact List.mem_map_of_mem hu
  have hpre := List.filter_eq_self.mpr fun u hu => hother u (List.mem_append_left _ hu)
  have hpost := List.filter_eq_self.mpr fun u hu => hother u (List.mem_append_right _ hu)
  refine ⟨hpre, hpost, ?_⟩
  rw [line_release, hline, List.filter_append, List.filter_cons_of_neg (by simp), hpre, hpost]

end WellKept

/-! ## Those who stay at the head -/

/-- An arrival takes the head of the line from nobody. -/
theorem isGranted_arrive {g : Gates} (h : g.WellKept) {t : Turn} (hg : g.isGranted t = true)
    (file session : String) : (g.arrive file session).2.isGranted t = true := by
  have hline : (g.arrive file session).2.line t.gate = g.line t.gate ++
      [(g.arrive file session).1].filter fun u => u.gate = t.gate := by
    rw [line, (h.arrive file session).2.1, List.filter_append, line]
  rw [isGranted] at hg ⊢
  rw [hline]
  cases hhead : g.line t.gate with
  | nil =>
    rw [hhead] at hg
    cases hg
  | cons u rest =>
    rw [hhead] at hg
    exact hg

/-- Nobody is moved from the head of the line when others give up their places. -/
theorem isGranted_release {g : Gates} {t u : Turn} (hg : g.isGranted t = true)
    (hne : u.serial ≠ t.serial) : (g.release u).isGranted t = true := by
  rw [isGranted] at hg ⊢
  rw [line_release]
  cases hhead : g.line t.gate with
  | nil =>
    rw [hhead] at hg
    cases hg
  | cons v rest =>
    rw [hhead, List.head?_cons, decide_eq_true_eq] at hg
    -- the head of the line is not the one that goes, so it stays in front of whoever is left
    have hkeep : decide (v.serial ≠ u.serial) = true := by
      rw [hg]
      exact decide_eq_true hne.symm
    have hfilter : (v :: rest).filter (fun v => decide (v.serial ≠ u.serial)) =
        v :: rest.filter fun v => decide (v.serial ≠ u.serial) := List.filter_cons_of_pos hkeep
    rw [hfilter]
    exact decide_eq_true hg

theorem isGranted_releaseAll (ts : List Turn) : ∀ {g : Gates} {t : Turn}, g.isGranted t = true →
    (∀ u ∈ ts, u.serial ≠ t.serial) → (g.releaseAll ts).isGranted t = true := by
  induction ts with
  | nil => exact fun hg _ => hg
  | cons u rest ih =>
    intro g t hg hne
    exact ih (isGranted_release hg (hne u (List.mem_cons_self ..)))
      fun v hv => hne v (List.mem_cons_of_mem _ hv)

/-! ## The lines of the sessions -/

/-- Everybody who is at the gate of a session, in order of arrival. -/
def lineOf (g : Gates) (file session : String) : List Turn :=
  g.turns.filter fun t => t.file = file ∧ t.session = session

theorem mem_lineOf {g : Gates} {file session : String} {t : Turn} :
    t ∈ g.lineOf file session ↔ t ∈ g.turns ∧ t.file = file ∧ t.session = session := by
  rw [lineOf, List.mem_filter, decide_eq_true_eq]

@[simp] theorem lineOf_prune (g : Gates) (file session : String) :
    g.prune.lineOf file session = g.lineOf file session := rfl

theorem lineOf_release (g : Gates) (t : Turn) (file session : String) :
    (g.release t).lineOf file session =
      (g.lineOf file session).filter fun u => u.serial ≠ t.serial := by
  rw [lineOf, release, List.filter_filter, lineOf, List.filter_filter]
  exact List.filter_congr fun u _ => Bool.and_comm ..

/-- A session's line stays as it is when places of others are given up. -/
theorem lineOf_releaseAll {file session : String} (ts : List Turn) : ∀ {g : Gates},
    (∀ t ∈ ts, ∀ u ∈ g.lineOf file session, u.serial ≠ t.serial) →
      (g.releaseAll ts).lineOf file session = g.lineOf file session := by
  induction ts with
  | nil => exact fun _ => rfl
  | cons t rest ih =>
    intro g hne
    have hline : (g.release t).lineOf file session = g.lineOf file session := by
      rw [lineOf_release, List.filter_eq_self]
      exact fun u hu => decide_eq_true (hne t (List.mem_cons_self ..) u hu)
    rw [← hline]
    refine ih fun t' ht' u hu => hne t' (List.mem_cons_of_mem _ ht') u ?_
    rwa [hline] at hu

namespace WellKept

variable {g : Gates}

theorem nodup_turns (h : g.WellKept) : g.turns.Nodup := List.Nodup.of_map _ h.serials

/-- Whoever arrives is the last in the line of his session, and in no other. -/
theorem lineOf_arrive (h : g.WellKept) (file session f s : String) :
    (g.arrive file session).2.lineOf f s = g.lineOf f s ++
      if file = f ∧ session = s then [(g.arrive file session).1] else [] := by
  obtain ⟨-, hturns, hfile, hsession⟩ := h.arrive file session
  rw [lineOf, hturns, List.filter_append, lineOf]
  congr 1
  by_cases hkey : file = f ∧ session = s
  · rw [if_pos hkey]
    exact List.filter_cons_of_pos (decide_eq_true ⟨hfile.trans hkey.1, hsession.trans hkey.2⟩)
  · rw [if_neg hkey]
    refine List.filter_cons_of_neg fun hnot => hkey ?_
    obtain ⟨hf, hs⟩ := of_decide_eq_true hnot
    exact ⟨hfile.symm.trans hf, hsession.symm.trans hs⟩

/-- Those at the gate of a place are those of its session. -/
theorem line_eq_lineOf (h : g.WellKept) {t : Turn} (ht : t ∈ g.turns) :
    g.line t.gate = g.lineOf t.file t.session := by
  refine List.filter_congr fun u hu => decide_eq_decide.mpr ⟨fun hgate => ?_, ?_⟩
  · -- a gate stands for one session only
    have hentry := List.inj_on_of_nodup_map h.gates (h.placed u hu) (h.placed t ht) hgate
    exact Prod.mk.inj (congrArg Prod.fst hentry)
  · exact fun ⟨hfile, hsession⟩ => h.gate_eq hu ht hfile hsession

/-- Whoever is at the head of a session's line leaves it to the next when his place is given up. -/
theorem lineOf_release_head (h : g.WellKept) {file session : String} {t : Turn} {rest : List Turn}
    (hline : g.lineOf file session = t :: rest) : (g.release t).lineOf file session = rest := by
  have hserials : ((t :: rest).map Turn.serial).Nodup := by
    rw [← hline]
    exact h.serials.sublist (List.filter_sublist.map _)
  rw [List.map_cons, List.nodup_cons] at hserials
  rw [lineOf_release, hline, List.filter_cons_of_neg (by simp), List.filter_eq_self]
  exact fun u hu => decide_eq_true fun heq => hserials.1 (heq ▸ List.mem_map_of_mem hu)

/-- A place has been granted to whom it belongs just when it is at the head of its session's
line. -/
theorem isGranted_iff_lineOf (h : g.WellKept) {t : Turn} (ht : t ∈ g.turns) :
    g.isGranted t = true ↔ (g.lineOf t.file t.session).head? = some t := by
  rw [h.isGranted_iff ht, h.line_eq_lineOf ht]

end WellKept

end Gates

end Runbook
