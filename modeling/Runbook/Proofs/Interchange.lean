import Runbook.Proofs.SavedSessions

/-!
# Stores that stand in for each other

A store in memory and one on a disk, both empty at first, give the same reply to every call, as long
as no call to the disk fails. The reply says what was stored last for just that session of that
file, unless it was removed since.

* `Store.Query`, `Store.ask`, `Store.replies`: calls and the replies to them
* `Store.lastSaved`, `Store.Query.answer`: what the calls before say about a session
* `Store.Serves`: a call to the disk goes through
* `Store.Keeps`, `Store.Keeps.ask_disk`: a store has what the calls before say, call after call
* `Store.replies_eq`: so the replies are those that are expected, and the same for both
-/

namespace Runbook

namespace Store

/-! ## Calls and replies -/

/-- A call to a store. -/
inductive Query where
  /-- stores a state -/
  | save (file session : String) (state : Snapshot)
  /-- gives the state that is stored -/
  | load (file session : String)
  /-- the same, or the empty state -/
  | loadOrEmpty (file session : String)
  /-- forgets what is stored -/
  | remove (file session : String)

/-- The reply to a call. -/
inductive Reply where
  /-- whether it was done -/
  | done (outcome : Except Fault Unit)
  /-- the state, if there is one -/
  | loaded (outcome : Except Fault (Option Snapshot))
  /-- the state, no matter what -/
  | given (state : Snapshot)

/-- What a call gives and what it leaves. -/
def ask (st : Store) : Query → Reply × Store
  | .save file session state =>
    let (outcome, st) := st.save file session state
    (.done outcome, st)
  | .load file session => (.loaded (st.load file session), st)
  | .loadOrEmpty file session => (.given (st.loadOrEmpty file session), st)
  | .remove file session =>
    let (outcome, st) := st.remove file session
    (.done outcome, st)

/-- The replies to some calls, one after another. -/
def replies (st : Store) : List Query → List Reply
  | [] => []
  | q :: rest => (st.ask q).1 :: (st.ask q).2.replies rest

/-! ## What is expected -/

namespace Query

/-- Whether a call stores or forgets what is stored for a session. -/
def changes (q : Query) (file session : String) : Bool :=
  match q with
  | save other name _ => (other, name) = (file, session)
  | remove other name => (other, name) = (file, session)
  | _ => false

/-- The state that a call stores. -/
def state? : Query → Option Snapshot
  | save _ _ state => some state
  | _ => none

end Query

/-- The state stored for a session by the last of some calls that changed it, if that was not to
forget it. -/
def lastSaved (past : List Query) (file session : String) : Option Snapshot :=
  (past.filter fun q => q.changes file session).getLast?.bind Query.state?

/-- The state that is given for a session after some calls: what the text of the state reads as
that was stored last. -/
def loadAfter (past : List Query) (file session : String) : Except Fault (Option Snapshot) :=
  match lastSaved past file session with
  | some state => (Snapshot.parse session state.compact).map some
  | none => .ok none

/-- The reply to a call that is expected after some others. -/
def Query.answer (past : List Query) : Query → Reply
  | save _ _ _ => .done (.ok ())
  | load file session => .loaded (loadAfter past file session)
  | loadOrEmpty file session =>
    .given (((lastSaved past file session).bind fun state =>
      Snapshot.parse? state.compact).getD .empty)
  | remove _ _ => .done (.ok ())

theorem lastSaved_concat (past : List Query) (q : Query) (file session : String) :
    lastSaved (past ++ [q]) file session =
      if q.changes file session then q.state? else lastSaved past file session := by
  rw [lastSaved, List.filter_append]
  split
  · rename_i hchanges
    rw [List.filter_cons, if_pos hchanges, List.filter_nil, List.getLast?_concat]
    rfl
  · rename_i hsame
    rw [List.filter_cons, if_neg hsame, List.filter_nil, List.append_nil, lastSaved]

theorem lastSaved_save (past : List Query) (file session other name : String) (state : Snapshot) :
    lastSaved (past ++ [.save file session state]) other name =
      if (file, session) = (other, name) then some state else lastSaved past other name := by
  rw [lastSaved_concat, Query.changes, Query.state?]
  exact if_congr decide_eq_true_iff rfl rfl

theorem lastSaved_remove (past : List Query) (file session other name : String) :
    lastSaved (past ++ [.remove file session]) other name =
      if (file, session) = (other, name) then none else lastSaved past other name := by
  rw [lastSaved_concat, Query.changes]
  exact if_congr decide_eq_true_iff rfl rfl

theorem mem_of_lastSaved {past : List Query} {file session : String} {state : Snapshot}
    (h : lastSaved past file session = some state) : .save file session state ∈ past := by
  obtain ⟨q, hq, hstate⟩ := Option.bind_eq_some_iff.mp h
  obtain ⟨hmem, hchanges⟩ := List.mem_filter.mp (List.mem_of_getLast? hq)
  cases q with
  | save other name kept =>
    cases of_decide_eq_true hchanges
    cases hstate
    exact hmem
  | _ => cases hstate

/-! ## Call after call -/

/-- A call to a store goes through: on a disk, nothing is refused, and a look at a path shows what
lies where it leads. -/
def Serves (st : Store) (q : Query) : Prop :=
  match st, q with
  | memory _, _ => True
  | disk a d, .save file session state =>
    ((a.saveState file session state).run.run d).1 = .ok ()
  | disk a d, .load file session | disk a d, .loadOrEmpty file session =>
    d.Finds (a.statePath file session) ∧ a.loadState file session d ≠ .error .disk
  | disk a d, .remove file session =>
    d.Finds (a.sessionDir file session) ∧ ((a.removeSession file session).run.run d).1 = .ok ()
  | broken _, _ => False

/-- All of some calls go through, one after another. -/
def ServesAll (st : Store) : List Query → Prop
  | [] => True
  | q :: rest => st.Serves q ∧ (st.ask q).2.ServesAll rest

/-- The store has what some calls say that is stored, for every session. -/
def Keeps (past : List Query) : Store → Prop
  | memory m => ∀ file session,
    m.text? file session = (lastSaved past file session).map Snapshot.compact
  | disk a d => d.IsSound ∧ ∀ file session,
    d.text? (a.statePlace file session) = (lastSaved past file session).map Snapshot.pretty
  | broken _ => False

/-- The texts of stored states read alike in both forms. -/
def ReadAlike (queries : List Query) : Prop :=
  ∀ file session state, .save file session state ∈ queries →
    Snapshot.parse? state.compact = Snapshot.parse? state.pretty

theorem keeps_memory_empty : Keeps [] (memory .empty) := fun _ _ => rfl

theorem keeps_disk_empty (a : Archive) : Keeps [] (disk a .empty) := by
  refine ⟨Disk.isSound_empty, fun file session => ?_⟩
  have htop : [] ≠ a.statePlace file session :=
    (List.append_ne_nil_of_right_ne_nil _ (List.cons_ne_nil _ _)).symm
  rw [Disk.text?, Disk.at?, Disk.empty, List.find?_singleton, if_neg fun h =>
    htop (of_decide_eq_true h)]
  rfl

variable {past : List Query} {st : Store}

/-- Who asks for a state changes nothing. -/
theorem Keeps.concat (h : Keeps past st) {q : Query}
    (hq : ∀ file session, q.changes file session = false) : Keeps (past ++ [q]) st := by
  have hsame : ∀ file session, lastSaved (past ++ [q]) file session =
      lastSaved past file session := by
    intro file session
    rw [lastSaved_concat, hq, if_neg Bool.false_ne_true]
  cases st with
  | memory m => exact fun file session => (h file session).trans (by rw [hsame])
  | disk a d => exact ⟨h.1, fun file session => (h.2 file session).trans (by rw [hsame])⟩
  | broken fault => exact h

/-- The state that is given no matter what goes with the one that is given if there is one. -/
theorem loadOrEmpty_eq {file session : String}
    (h : st.load file session = loadAfter past file session) :
    st.loadOrEmpty file session = ((lastSaved past file session).bind fun state =>
      Snapshot.parse? state.compact).getD .empty := by
  rw [loadOrEmpty, h, loadAfter]
  cases lastSaved past file session with
  | none => rfl
  | some state =>
    rw [Option.bind_some]
    simp only [Snapshot.parse]
    cases Snapshot.parse? state.compact <;> rfl

/-- So the replies to who asks for a state follow from what is loaded. -/
theorem Keeps.ask_of_load (h : Keeps past st) {file session : String}
    (hload : st.load file session = loadAfter past file session) {q : Query}
    (hq : q = .load file session ∨ q = .loadOrEmpty file session) :
    (st.ask q).1 = q.answer past ∧ Keeps (past ++ [q]) (st.ask q).2 := by
  rcases hq with rfl | rfl
  · exact ⟨congrArg Reply.loaded hload, h.concat fun _ _ => rfl⟩
  · exact ⟨congrArg Reply.given (loadOrEmpty_eq hload), h.concat fun _ _ => rfl⟩

/-- What a store in memory replies to a call and has afterwards. -/
theorem Keeps.ask_memory {m : MemoryStore} (h : Keeps past (memory m)) (q : Query) :
    ((memory m).ask q).1 = q.answer past ∧ Keeps (past ++ [q]) ((memory m).ask q).2 := by
  have hload : ∀ file session, (memory m).load file session = loadAfter past file session := by
    intro file session
    rw [load, MemoryStore.load, h file session, loadAfter]
    cases lastSaved past file session <;> rfl
  cases q with
  | save file session state =>
    refine ⟨rfl, fun other name => ?_⟩
    rw [lastSaved_save]
    split
    · rename_i hsame
      cases hsame
      exact m.text?_putText_self file session state.compact
    · rename_i hother
      rw [← h]
      exact m.text?_putText_of_ne _ fun heq => hother heq.symm
  | remove file session =>
    refine ⟨rfl, fun other name => ?_⟩
    rw [lastSaved_remove]
    split
    · rename_i hsame
      cases hsame
      exact m.text?_remove_self file session
    · rename_i hother
      rw [← h]
      exact m.text?_remove_of_ne fun heq => hother heq.symm
  | load file session => exact h.ask_of_load (hload file session) (.inl rfl)
  | loadOrEmpty file session => exact h.ask_of_load (hload file session) (.inr rfl)

/-- What a store on a disk loads. -/
theorem Keeps.load_disk {a : Archive} {d : Disk} (h : Keeps past (disk a d))
    (hjson : ReadAlike past) {file session : String} (hfinds : d.Finds (a.statePath file session))
    (hok : a.loadState file session d ≠ .error .disk) :
    (disk a d).load file session = loadAfter past file session := by
  rw [load, Archive.loadState_eq_text? hfinds hok, h.2, loadAfter]
  cases hlast : lastSaved past file session with
  | none => rfl
  | some state =>
    simp only [Option.map_some, Snapshot.parse,
      hjson file session state (mem_of_lastSaved hlast)]

/-- What a store on a disk replies to a call that goes through and has afterwards. -/
theorem Keeps.ask_disk {a : Archive} {d : Disk} (h : Keeps past (disk a d))
    (hjson : ReadAlike past) {q : Query} (hserves : (disk a d).Serves q) :
    ((disk a d).ask q).1 = q.answer past ∧ Keeps (past ++ [q]) ((disk a d).ask q).2 := by
  cases q with
  | save file session state =>
    rcases hrun : (a.saveState file session state).run.run d with ⟨outcome, e⟩
    rw [Serves, hrun] at hserves
    obtain rfl : outcome = .ok () := hserves
    have hask : (disk a d).ask (.save file session state) = (.done (.ok ()), disk a e) := by
      rw [ask, save, onDisk, hrun]
    rw [hask]
    refine ⟨rfl, Archive.keeps_saveState a file session state hrun h.1, fun other name => ?_⟩
    rw [Archive.text?_saveState hrun, lastSaved_save]
    by_cases hsame : (file, session) = (other, name)
    · cases hsame
      rw [if_pos rfl, if_pos rfl, Option.map_some]
    · rw [if_neg fun heq => hsame (Archive.statePlace_inj heq).symm, if_neg hsame, h.2]
  | remove file session =>
    rcases hrun : (a.removeSession file session).run.run d with ⟨outcome, e⟩
    obtain ⟨hfinds, hok⟩ := hserves
    rw [hrun] at hok
    obtain rfl : outcome = .ok () := hok
    have hask : (disk a d).ask (.remove file session) = (.done (.ok ()), disk a e) := by
      rw [ask, remove, onDisk, hrun]
    rw [hask]
    refine ⟨rfl, Archive.keeps_removeSession a file session hrun h.1, fun other name => ?_⟩
    rw [Archive.text?_removeSession h.1.tree hfinds hrun, lastSaved_remove, Archive.statePlace]
    by_cases hsame : (file, session) = (other, name)
    · cases hsame
      rw [if_pos rfl, if_pos (List.prefix_append ..), Option.map_none]
    · rw [if_neg hsame, if_neg (a.not_prefix_sessionPlace (fun heq => hsame heq.symm) _)]
      exact h.2 other name
  | load file session => exact h.ask_of_load (h.load_disk hjson hserves.1 hserves.2) (.inl rfl)
  | loadOrEmpty file session =>
    exact h.ask_of_load (h.load_disk hjson hserves.1 hserves.2) (.inr rfl)

/-- What a store replies to calls that go through, after some others. -/
theorem Keeps.getElem?_replies {past rest : List Query} (hjson : ReadAlike (past ++ rest)) :
    ∀ {st : Store}, Keeps past st → st.ServesAll rest → ∀ n : Nat, (st.replies rest)[n]? =
      (rest[n]?).map fun q : Query => q.answer (past ++ rest.take n) := by
  induction rest generalizing past with
  | nil =>
    intro st _ _ n
    rfl
  | cons q rest ih =>
    intro st h hserves n
    have hpast : ReadAlike past := fun file session state hmem =>
      hjson file session state (List.mem_append_left _ hmem)
    have hmore : ReadAlike (past ++ [q] ++ rest) := by
      rwa [List.append_assoc, List.singleton_append]
    obtain ⟨hreply, hkeeps⟩ : (st.ask q).1 = q.answer past ∧ Keeps (past ++ [q]) (st.ask q).2 := by
      cases st with
      | memory m => exact h.ask_memory q
      | disk a d => exact h.ask_disk hpast hserves.1
      | broken fault => exact absurd h id
    rw [Store.replies]
    cases n with
    | zero =>
      rw [List.getElem?_cons_zero, List.getElem?_cons_zero, List.take_zero, List.append_nil, hreply]
      rfl
    | succ n =>
      rw [List.getElem?_cons_succ, List.getElem?_cons_succ, List.take_succ_cons,
        ih hmore hkeeps hserves.2 n, List.append_assoc, List.singleton_append]

theorem servesAll_memory (m : MemoryStore) (queries : List Query) :
    (memory m).ServesAll queries := by
  induction queries generalizing m with
  | nil => trivial
  | cons q rest ih =>
    refine ⟨trivial, ?_⟩
    cases q <;> exact ih _

/-- **Stores that stand in for each other.** A store in memory and one on a disk, both empty at
first, give the same reply to every one of some calls, if those to the disk go through and states
read alike in both forms of their text. What is loaded for a session is what was stored last for
just that session of that file, unless it was removed since. -/
theorem replies_eq (a : Archive) (queries : List Query) (hjson : ReadAlike queries)
    (hserves : (disk a .empty).ServesAll queries) :
    (disk a .empty).replies queries = (memory .empty).replies queries ∧
      ∀ n : Nat, ((disk a .empty).replies queries)[n]? =
        (queries[n]?).map fun q : Query => q.answer (queries.take n) := by
  have hdisk := @Keeps.getElem?_replies [] queries hjson _ (keeps_disk_empty a) hserves
  have hmemory := @Keeps.getElem?_replies [] queries hjson _ keeps_memory_empty
    (servesAll_memory _ queries)
  exact ⟨List.ext_getElem? fun n => (hdisk n).trans (hmemory n).symm, hdisk⟩

/-- A state is stored under a name that would lead up as it stands, and is forgotten again. -/
def dotted : List Query := [.save "a/b" ".." .empty, .loadOrEmpty "a/b" "", .load "a/b" "..",
  .remove "a/b" "..", .load "a/b" ".."]

/-- The disk once the state is stored. -/
def dottedSaved : Disk := ((Archive.usual.saveState "a/b" ".." .empty).run.run .empty).2

/-- The disk once it is forgotten. -/
def dottedRemoved : Disk := ((Archive.usual.removeSession "a/b" "..").run.run dottedSaved).2

theorem servesAll_dotted : (disk Archive.usual .empty).ServesAll dotted := by
  have hsave : ((Archive.usual.saveState "a/b" ".." .empty).run.run .empty).1 = .ok () := by
    decide +kernel
  have hremove : ((Archive.usual.removeSession "a/b" "..").run.run dottedSaved).1 = .ok () := by
    decide +kernel
  have hload : ∀ {d : Disk} {session : String}, d.Finds (Archive.usual.statePath "a/b" session) →
      d.at? (Archive.usual.statePlace "a/b" session) ≠ some .folder →
      d.Finds (Archive.usual.statePath "a/b" session) ∧
        Archive.usual.loadState "a/b" session d ≠ .error .disk := fun hfinds hplace =>
    ⟨hfinds, Archive.loadState_ne_disk hfinds hplace⟩
  exact ⟨hsave, hload (d := dottedSaved) (by unfold Disk.Finds; decide +kernel) (by decide +kernel),
    hload (by unfold Disk.Finds; decide +kernel) (by decide +kernel),
    ⟨by unfold Disk.Finds; decide +kernel, hremove⟩,
    hload (d := dottedRemoved) (by unfold Disk.Finds; decide +kernel) (by decide +kernel), trivial⟩

theorem replies_eq_dotted :
    ReadAlike dotted ∧ (disk Archive.usual .empty).ServesAll dotted ∧
      (disk Archive.usual .empty).replies dotted = (memory .empty).replies dotted ∧
      ((disk Archive.usual .empty).replies dotted)[4]? = some (.loaded (.ok none)) := by
  have hjson : ReadAlike dotted := by
    intro file session state hmem
    obtain ⟨-, -, rfl⟩ : file = "a/b" ∧ session = ".." ∧ state = .empty := by
      simpa [dotted] using hmem
    have htext : Snapshot.empty.compact = Snapshot.empty.pretty := by decide +kernel
    rw [htext]
  obtain ⟨hsame, hreply⟩ := replies_eq Archive.usual dotted hjson servesAll_dotted
  refine ⟨hjson, servesAll_dotted, hsame, (hreply 4).trans ?_⟩
  have hlast : lastSaved (dotted.take 4) "a/b" ".." = none := by rfl
  show some (Reply.loaded (loadAfter (dotted.take 4) "a/b" "..")) = _
  rw [loadAfter, hlast]

end Store

end Runbook
