import Runbook.Proofs.Replay
import Runbook.Proofs.Splices

/-!
# What is in memory and what is stored

Calls are made one after another on a ledger that stores every session's state in memory. Each call
that changes a session stores its new state, with one exception: a deletion first takes steps out of
sessions and then runs them anew, if the settings ask for it, and where that breaks down, the call
ends before the states of these sessions are stored.

* `World.Agrees`: what is stored for a session is the state it has
* `World.Tidy`: every session is as it was, or agrees with what is stored for it
* `World.tidy_persist`: a change of one session whose state is stored is tidy
* `Ledger.tidy_execute`, `Ledger.tidy_replay`, `Ledger.tidy_branch`: calls that are tidy
* `Ledger.settle_names`: what is done to the sessions that lost steps
* `Ledger.settles`: every call is tidy, but for deletions that break down
* `Ledger.disagrees_iff`: when a session does not agree with what is stored for it
-/

namespace Runbook

/-! ## Agreement -/

/-- The text that is kept in memory for a session. -/
def Store.text? (st : Store) (file session : String) : Option String :=
  match st with
  | memory m => m.text? file session
  | _ => none

namespace World

/-- What is stored for a session is the state it has, and nothing if it is not there. -/
def Agrees (w : World) (file name : String) : Prop :=
  w.store.text? file name = (w.workspace.session? file name).map fun s => s.overall.compact

/-- A session is as it was, and what is stored for it too. -/
def Same (w w' : World) (file name : String) : Prop :=
  w'.workspace.session? file name = w.workspace.session? file name ∧
    w'.store.text? file name = w.store.text? file name

/-- States are kept in memory, and no two sessions of a file share a name. -/
structure Sound (w : World) : Prop where
  /-- the store is one in memory -/
  inMemory : ∃ m, w.store = .memory m
  /-- the names differ -/
  distinct : w.workspace.Distinct

/-- Every session is as it was, or else agrees with what is stored for it. -/
structure Tidy (w w' : World) : Prop where
  /-- the world is sound afterwards -/
  sound : w'.Sound
  /-- session by session -/
  each : ∀ file name, Same w w' file name ∨ w'.Agrees file name

theorem Agrees.of_same {w w' : World} {file name : String} (h : w.Agrees file name)
    (hsame : Same w w' file name) : w'.Agrees file name := by
  rw [Agrees, hsame.1, hsame.2]
  exact h

theorem Agrees.of_tidy {w w' : World} {file name : String} (h : w.Agrees file name)
    (htidy : Tidy w w') : w'.Agrees file name := by
  rcases htidy.each file name with hsame | hagrees
  · exact h.of_same hsame
  · exact hagrees

theorem Same.trans {w w' w'' : World} {file name : String} (h : Same w w' file name)
    (h' : Same w' w'' file name) : Same w w'' file name :=
  ⟨h'.1.trans h.1, h'.2.trans h.2⟩

theorem Tidy.trans {w w' w'' : World} (h : Tidy w w') (h' : Tidy w' w'') : Tidy w w'' := by
  refine ⟨h'.sound, fun file name => ?_⟩
  rcases h.each file name with hsame | hagrees
  · exact (h'.each file name).imp_left hsame.trans
  · exact .inr (hagrees.of_tidy h')

/-- Nothing is amiss as long as the workspace and the store stay. -/
theorem Sound.tidy {w w' : World} (h : w.Sound) (hworkspace : w'.workspace = w.workspace)
    (hstore : w'.store = w.store) : Tidy w w' :=
  ⟨⟨hstore ▸ h.inMemory, hworkspace ▸ h.distinct⟩,
    fun _ _ => .inl ⟨by rw [hworkspace], by rw [hstore]⟩⟩

/-! ## Changes that store what they change -/

section

variable {l : Ledger} {w : World}

/-- Storing the state of the only session that changed makes for agreement. -/
theorem tidy_persist {w' : World} {file name : String} {s : Session}
    (hl : l.settings.persist = true) (hw : w.Sound) (hstore : w'.store = w.store)
    (hdistinct : w'.workspace.Distinct)
    (hs : w'.workspace.session? file name = some s)
    (hothers : ∀ file' name', ¬(file' = file ∧ name' = name) →
      w'.workspace.session? file' name' = w.workspace.session? file' name') :
    Tidy w (w'.persist l file name s.overall) ∧
      (w'.persist l file name s.overall).Agrees file name := by
  obtain ⟨m, hm⟩ := hw.inMemory
  have hput : (w'.persist l file name s.overall).store = .memory (m.save file name s.overall) := by
    rw [store_persist, hl, if_pos rfl, hstore, hm]
    rfl
  have hagrees : (w'.persist l file name s.overall).Agrees file name := by
    rw [Agrees, hput, workspace_persist, hs]
    exact m.text?_putText_self file name s.overall.compact
  refine ⟨⟨⟨⟨_, hput⟩, by rw [workspace_persist]; exact hdistinct⟩, fun file' name' => ?_⟩, hagrees⟩
  by_cases hkey : file' = file ∧ name' = name
  · rw [hkey.1, hkey.2]
    exact .inr hagrees
  · have hne : (file', name') ≠ (file, name) := fun heq => hkey (Prod.mk.inj heq)
    refine .inl ⟨?_, ?_⟩
    · rw [workspace_persist]
      exact hothers file' name' hkey
    · rw [hput, hm]
      exact m.text?_putText_of_ne s.overall.compact hne

/-- The same for an update that is about one session. -/
theorem tidy_update (u : Update) (w' : World) {file name : String} {s : Session}
    (hl : l.settings.persist = true) (hw : w.Sound)
    (hworkspace : w'.workspace = u.apply file w.workspace) (hstore : w'.store = w.store)
    (hedges : ∀ id now, u ≠ .removeEdge id now) (habout : ∀ other, u.IsAbout other → other = name)
    (hs : w'.workspace.session? file name = some s) :
    Tidy w (w'.persist l file name s.overall) ∧
      (w'.persist l file name s.overall).Agrees file name := by
  refine tidy_persist hl hw hstore ?_ hs fun file' name' hkey => ?_
  · rw [hworkspace]
    exact hw.distinct.apply u file
  · rw [hworkspace]
    exact Workspace.session?_apply_of_not (fun id now hu => absurd hu (hedges id now))
      fun hfile hu => hkey ⟨hfile, habout name' hu⟩

theorem tidy_start (hl : l.settings.persist = true) (hw : w.Sound) (file name : String) :
    Tidy w (w.start l file name).2 := by
  rw [start]
  cases h : w.workspace.startSession file name w.now with
  | error fault => exact hw.tidy rfl rfl
  | ok p =>
    obtain ⟨s, workspace⟩ := p
    have happly : workspace = (Update.start name w.now).apply file w.workspace := by
      rw [Update.apply, h]
    have hedges : ∀ id now, Update.start name w.now ≠ .removeEdge id now := by rintro _ _ ⟨⟩
    exact (tidy_update (.start name w.now) (w.withWorkspace workspace) hl hw happly rfl hedges
      (fun _ h => Eq.symm h) (Workspace.startSession_eq_ok h).2).1

theorem tidy_commit (hl : l.settings.persist = true) (hw : w.Sound) (file name : String)
    (node : NodeId) (r : RunResult) : Tidy w (w.commit l file name node r).2 := by
  rw [commit]
  cases h : w.workspace.commit? file name node r w.now with
  | none => exact hw.tidy rfl rfl
  | some p =>
    obtain ⟨⟨e, state⟩, workspace⟩ := p
    obtain ⟨s, -, hs', rfl⟩ := Workspace.commit?_eq_some h
    have happly : workspace = (Update.commit name node r w.now).apply file w.workspace := by
      rw [Update.apply, h]
      rfl
    have hedges : ∀ id now, Update.commit name node r w.now ≠ .removeEdge id now := by
      rintro _ _ ⟨⟩
    exact (tidy_update (.commit name node r w.now) (w.withWorkspace workspace) hl hw happly rfl
      hedges (fun _ h => Eq.symm h) hs').1

theorem tidy_persistSession (hl : l.settings.persist = true) (hw : w.Sound)
    (file name : String) : Tidy w (w.persistSession l file name) := by
  rw [persistSession]
  cases hs : w.workspace.session? file name with
  | none => exact hw.tidy rfl rfl
  | some s => exact (tidy_persist hl hw rfl hw.distinct hs fun _ _ _ => rfl).1

/-- A session whose state was just stored agrees with it. -/
theorem agrees_persistSession {file name : String} {s : Session}
    (hl : l.settings.persist = true) (hw : w.Sound)
    (hs : w.workspace.session? file name = some s) :
    (w.persistSession l file name).Agrees file name := by
  rw [persistSession, hs]
  exact (tidy_persist hl hw rfl hw.distinct hs fun _ _ _ => rfl).2

theorem tidy_removeSession (hw : w.Sound) (file name : String) :
    Tidy w (w.removeSession file name).2 := by
  rw [removeSession]
  cases h : w.workspace.removeSession? file name with
  | none => exact hw.tidy rfl rfl
  | some p =>
    obtain ⟨s, workspace⟩ := p
    obtain ⟨m, hm⟩ := hw.inMemory
    have happly : workspace = (Update.removeSession name).apply file w.workspace := by
      rw [Update.apply, h]
      rfl
    rw [hm]
    -- the session goes and its entry with it; under all other names nothing changes
    refine ⟨⟨⟨m.remove file name, rfl⟩, ?_⟩, fun file' name' => ?_⟩
    · rw [happly]
      exact hw.distinct.apply _ file
    · by_cases hkey : file' = file ∧ name' = name
      · right
        rw [hkey.1, hkey.2, Agrees, Workspace.session?_of_removeSession? hw.distinct h]
        exact m.text?_remove_self file name
      · left
        have hne : (file', name') ≠ (file, name) := fun heq => hkey (Prod.mk.inj heq)
        refine ⟨?_, ?_⟩
        · rw [happly]
          refine Workspace.session?_apply_of_not (u := .removeSession name) ?_
            fun hfile hname => hkey ⟨hfile, hname.symm⟩
          rintro _ _ ⟨⟩
        · rw [hm]
          exact m.text?_remove_of_ne hne

end

end World

/-- Steps were taken out of a session, and its new state was not stored. -/
def World.LeftBehind (w w' : World) (file name : String) : Prop :=
  w'.store.text? file name = w.store.text? file name ∧
    ∃ s s', w.workspace.session? file name = some s ∧
      w'.workspace.session? file name = some s' ∧ s'.length < s.length

namespace Ledger

open World

/-! ## Calls that store what they change -/

section

variable {l : Ledger} {w : World}

theorem tidy_execute (hl : l.settings.persist = true) (hw : w.Sound) (file name : String)
    (node : NodeId) (codes : List String) : Tidy w (l.execute file name node codes w).2 := by
  rw [execute]
  cases w.workspace.prior? file name node with
  | none => exact hw.tidy rfl rfl
  | some prior =>
    -- the runner alone changes neither sessions nor the store
    simp only [run_eq]
    rcases l.runner.runAll codes prior w.calls with ⟨b | r, calls⟩
    · exact hw.tidy rfl rfl
    · have hrun : Tidy w { w with calls } := hw.tidy rfl rfl
      exact hrun.trans (tidy_commit hl hrun.sound file name node r)

theorem tidy_executeNode (hl : l.settings.persist = true) (hw : w.Sound) (file name : String)
    (node : NodeId) : Tidy w (l.executeNode file name node w).2 := by
  rw [executeNode]
  cases w.workspace.steps? file node with
  | none => exact hw.tidy rfl rfl
  | some codes => exact tidy_execute hl hw file name node codes

theorem tidy_runPath (hl : l.settings.persist = true) (file name : String) (path : List NodeId) :
    ∀ {w : World}, w.Sound → Tidy w (l.runPath file name w path).2 := by
  induction path with
  | nil => exact fun hw => hw.tidy rfl rfl
  | cons node rest ih =>
    intro w hw
    have hone := tidy_executeNode hl hw file name node
    rw [runPath]
    rcases hstep : l.executeNode file name node w with ⟨fault | e, w'⟩
    · rw [hstep] at hone
      exact hone
    · rw [hstep] at hone
      exact hone.trans (ih hone.sound)

theorem tidy_branch (hl : l.settings.persist = true) (hw : w.Sound) (file name : String)
    (path : List NodeId) : Tidy w (l.branch file name path w).2 := by
  have hstart := tidy_start hl hw file name
  rw [branch]
  rcases hstarted : w.start l file name with ⟨fault | s, w'⟩
  · rw [hstarted] at hstart
    exact hstart
  · rw [hstarted] at hstart
    have hpath := tidy_runPath hl file name path hstart.sound
    simp only
    rcases hrun : l.runPath file name w' path with ⟨fault | u, w''⟩
    · rw [hrun] at hpath
      exact hstart.trans hpath
    · rw [hrun] at hpath
      exact hstart.trans hpath

theorem tidy_branchFromTree (hl : l.settings.persist = true) (hw : w.Sound)
    (file name target : String) (node : NodeId) (placement : Tree.Placement) :
    Tidy w (l.branchFromTree file name target node placement w).2 := by
  rw [branchFromTree]
  cases w.branchPath? file target node placement with
  | none => exact hw.tidy rfl rfl
  | some path => exact tidy_branch hl hw file name path

/-- Running a session anew is tidy. A session that is there agrees unless that breaks down. -/
theorem tidy_replay (hl : l.settings.persist = true) (hw : w.Sound) (file name : String) :
    Tidy w (l.replay file name w).2 ∧
      ((∃ n, (l.replay file name w).1 = .ok n) → w.workspace.session? file name ≠ none →
        (l.replay file name w).2.Agrees file name) := by
  cases hs : w.workspace.session? file name with
  | none =>
    rw [replay, hs]
    exact ⟨hw.tidy rfl rfl, fun _ h => absurd rfl h⟩
  | some s =>
    cases hfresh : l.runFresh w.workspace file w.calls s.path with
    | error b =>
      obtain ⟨hfault, hworkspace, hstore⟩ := replay_of_error hs hfresh
      refine ⟨hw.tidy hworkspace hstore, ?_⟩
      rintro ⟨n, hok⟩
      cases hfault.symm.trans hok
    | ok done =>
      obtain ⟨f, pre, post, s', w', -, -, hfirst, rfl, -, -, hstore, happly, hreplay⟩ :=
        replay_of_ok hs hfresh
      have hs' : ((Update.commitReplay s').apply file w.workspace).session? file s'.id =
          some s' := by
        rw [happly, Workspace.session?, Workspace.file?_setFile_self]
        exact Book.get?_of_first hfirst rfl
      rw [hreplay]
      have hedges : ∀ id now, Update.commitReplay s' ≠ .removeEdge id now := by rintro _ _ ⟨⟩
      have htidy := tidy_update (.commitReplay s')
        { w' with workspace := (Update.commitReplay s').apply file w.workspace } hl hw rfl hstore
        hedges (fun _ h => Eq.symm h) hs'
      exact ⟨htidy.1, fun _ _ => htidy.2⟩

end

/-! ## Sessions that lost steps -/

/-- The sessions that are settled agree with what is stored for them, unless running one of them
anew breaks down. Nothing can break down if none is run anew. -/
theorem settle_names {l : Ledger} (hl : l.settings.persist = true) (file : String)
    (names : List String) : ∀ {w : World}, w.Sound →
      Tidy w (l.settle file w names).2 ∧
        ((l.settle file w names).1 = .ok () → ∀ name ∈ names,
          w.workspace.session? file name ≠ none → (l.settle file w names).2.Agrees file name) ∧
        (l.settings.replayOnRemoval = false → (l.settle file w names).1 = .ok ()) := by
  induction names with
  | nil => exact fun hw => ⟨hw.tidy rfl rfl, fun _ _ h => absurd h List.not_mem_nil, fun _ => rfl⟩
  | cons name rest ih =>
    intro w hw
    -- one session is settled, and the others after it
    have hafter : ∀ {w' : World}, Tidy w w' →
        (w.workspace.session? file name ≠ none → w'.Agrees file name) →
        (l.settle file w' rest).1 = .ok () → ∀ other ∈ name :: rest,
          w.workspace.session? file other ≠ none →
            (l.settle file w' rest).2.Agrees file other := by
      intro w' htidy hfirst hok other hmem hthere
      obtain ⟨hrest, hagrees, -⟩ := ih htidy.sound
      rcases List.mem_cons.mp hmem with rfl | hmem
      · exact (hfirst hthere).of_tidy hrest
      · rcases htidy.each file other with hsame | hnow
        · exact hagrees hok other hmem (hsame.1 ▸ hthere)
        · exact hnow.of_tidy hrest
    rw [settle]
    cases hmode : l.settings.replayOnRemoval with
    | true =>
      rw [if_pos rfl]
      obtain ⟨htidy, hfirst⟩ := tidy_replay hl hw file name
      rcases hrun : l.replay file name w with ⟨fault | n, w'⟩
      · rw [hrun] at htidy
        exact ⟨htidy, nofun, nofun⟩
      · rw [hrun] at htidy hfirst
        exact ⟨htidy.trans (ih htidy.sound).1, hafter htidy (hfirst ⟨n, rfl⟩), nofun⟩
    | false =>
      rw [if_neg Bool.false_ne_true]
      have htidy := tidy_persistSession hl hw file name
      refine ⟨htidy.trans (ih htidy.sound).1, hafter htidy fun hthere => ?_,
        fun _ => (ih htidy.sound).2.2 hmode⟩
      obtain ⟨s, hs⟩ := Option.ne_none_iff_exists'.mp hthere
      exact agrees_persistSession hl hw hs

/-! ## All calls -/

/-- Whether a call takes steps out of sessions. -/
def Request.TakesOut : Request → Prop
  | removeExecutionEdge _ | removeNode _ => True
  | _ => False

/-- A call took steps out of a session and was to run it anew, but ended with a fault before the
session's state was stored. -/
structure BreaksOff (l : Ledger) (file : String) (request : Request) (w : World) (name : String) :
    Prop where
  /-- it is a call that takes steps out -/
  takesOut : request.TakesOut
  /-- sessions are to be run anew after that -/
  replays : l.settings.replayOnRemoval = true
  /-- the call ended with a fault -/
  fault : ∃ fault, (l.answer file request w).1 = .error fault
  /-- the session lost steps, and what is stored for it stayed -/
  leftBehind : LeftBehind w (l.answer file request w).2 file name

/-- A call leaves every session as it was or agreeing with what is stored for it, unless it breaks
off. -/
def Settles (l : Ledger) (file : String) (request : Request) (w : World) : Prop :=
  (l.answer file request w).2.Sound ∧ ∀ other name,
    Same w (l.answer file request w).2 other name ∨
      (l.answer file request w).2.Agrees other name ∨
      other = file ∧ l.BreaksOff file request w name

theorem Settles.of_tidy {l : Ledger} {file : String} {request : Request} {w : World}
    (h : Tidy w (l.answer file request w).2) : l.Settles file request w :=
  ⟨h.sound, fun other name => (h.each other name).imp_right .inl⟩

/-- Steps were taken out of some sessions and nothing else was done, and then these sessions were
settled. -/
theorem Settles.of_settle {l : Ledger} (hl : l.settings.persist = true) {file : String}
    {request : Request} {w w' : World} (names : List String) (f : Unit → Answer)
    (htakes : request.TakesOut) (hw : w'.Sound) (hstore : w'.store = w.store)
    (hcut : ∀ other name,
      w'.workspace.session? other name = w.workspace.session? other name ∨
        other = file ∧ name ∈ names ∧ ∃ s s', w.workspace.session? file name = some s ∧
          w'.workspace.session? file name = some s' ∧ s'.length < s.length)
    (hanswer : l.answer file request w =
      ((l.settle file w' names).1.map f, (l.settle file w' names).2)) :
    l.Settles file request w := by
  obtain ⟨htidy, hagrees, hnever⟩ := settle_names hl file names hw
  refine ⟨by rw [hanswer]; exact htidy.sound, fun other name => ?_⟩
  rcases htidy.each other name with hsame | hnow
  · rcases hcut other name with hold | ⟨rfl, hmem, s, s', hs, hs', hlt⟩
    · have hfirst : Same w w' other name := ⟨hold, by rw [hstore]⟩
      rw [hanswer]
      exact .inl (hfirst.trans hsame)
    · right
      -- the session is as it was after it had lost steps, so it was not settled
      cases hout : (l.settle other w' names).1 with
      | ok u =>
        rw [hanswer]
        exact .inl (hagrees hout name hmem (by simp [hs']))
      | error fault =>
        have hmode : l.settings.replayOnRemoval = true := by
          by_contra hoff
          cases (hnever (Bool.eq_false_iff.mpr hoff)).symm.trans hout
        have hfault : (l.answer other request w).1 = .error fault := by
          rw [hanswer, hout]
          rfl
        refine .inr ⟨rfl, htakes, hmode, ⟨fault, hfault⟩, ?_, s, s', hs, ?_, hlt⟩
        · rw [hanswer, hsame.2, hstore]
        · rw [hanswer, hsame.1, hs']
  · rw [hanswer]
    exact .inr (.inl hnow)

theorem settles_removeExecutionEdge {l : Ledger} (hl : l.settings.persist = true) {w : World}
    (hw : w.Sound) (file : String) (edge : EdgeId) :
    l.Settles file (.removeExecutionEdge edge) w := by
  have hsound : (w.removeEdge file edge).2.Sound :=
    ⟨hw.inMemory, hw.distinct.apply (.removeEdge edge w.now) file⟩
  rcases hremove : w.removeEdge file edge with ⟨removal, w'⟩
  rw [hremove] at hsound
  have hstore : w'.store = w.store := congrArg (fun p => p.2.store) hremove.symm
  have hcases := w.workspace.session?_removeEdge file edge w.now
  have hworkspace : w.workspace.removeEdge file edge w.now = (removal, w'.workspace) :=
    congrArg (fun p => (p.1, p.2.workspace)) hremove
  rw [hworkspace] at hcases
  cases howner : w.owner? file edge with
  | none =>
    refine .of_tidy ?_
    rw [answer, removeExecutionEdge, howner]
    exact hw.tidy rfl rfl
  | some owner =>
    cases removal with
    | none =>
      -- nothing was taken out, so that nothing is to be settled
      refine .of_tidy ?_
      rcases hcases with hsame | ⟨_, _, _, _, -, -, -, hsome, -⟩
      · have hout : (l.answer file (.removeExecutionEdge edge) w).2 = w' := by
          rw [answer, removeExecutionEdge, howner]
          simp only [hremove]
        rw [hout]
        exact ⟨hsound, fun other name => .inl ⟨hsame other name, by rw [hstore]⟩⟩
      · exact absurd rfl hsome
    | some removal =>
      refine .of_settle hl [owner] (fun _ => .removal (some removal)) trivial hsound hstore ?_ ?_
      · intro other name
        rcases hcases with hsame | ⟨f, e, s, s', hf, hfind, hkind, -, hs, hs', hlt, hothers⟩
        · exact .inl (hsame other name)
        · have hown : w.owner? file edge = some s.id := by
            rw [World.owner?, hf, Option.bind_some, hfind, Option.bind_some, hkind]
          obtain rfl : owner = s.id := Option.some.inj (howner.symm.trans hown)
          by_cases hkey : other = file ∧ name = s.id
          · obtain ⟨rfl, rfl⟩ := hkey
            exact .inr ⟨rfl, List.mem_singleton_self _, s, s', hs, hs', hlt⟩
          · exact .inl (hothers other name hkey)
      · rw [answer, removeExecutionEdge, howner]
        simp only [hremove]
        cases (l.settle file w' [owner]).1 <;> rfl

theorem settles_removeNode {l : Ledger} (hl : l.settings.persist = true) {w : World}
    (hw : w.Sound) (file : String) (node : NodeId) : l.Settles file (.removeNode node) w := by
  have hsound : (w.removeNode file node).2.Sound :=
    ⟨hw.inMemory, hw.distinct.apply (.removeNode node w.now) file⟩
  rcases hremove : w.removeNode file node with ⟨affected, w'⟩
  rw [hremove] at hsound
  have hstore : w'.store = w.store := congrArg (fun p => p.2.store) hremove.symm
  have hworkspace : w.workspace.removeNode file node w.now = (affected, w'.workspace) :=
    congrArg (fun p => (p.1, p.2.workspace)) hremove
  -- whoever lost steps ran the node, so its turn was taken and it is among those to be settled
  refine .of_settle hl ((w.touching file node).filter affected.contains)
    (fun _ => .names affected) trivial hsound hstore ?_ ?_
  · intro other name
    have hcases := w.workspace.session?_removeNode file node w.now other name
    rw [hworkspace] at hcases
    rcases hcases with hsame | ⟨rfl, f, s, s', hf, hs, hs', hlt, htouch, hgiven⟩
    · exact .inl hsame
    · refine .inr ⟨rfl, List.mem_filter.mpr ⟨?_, ?_⟩, s, s', hs, hs', hlt⟩
      · rw [World.touching, hf]
        exact List.mem_mergeSort.mpr htouch
      · exact List.contains_iff_mem.mpr hgiven
  · rw [answer, removeNode]
    simp only [hremove]
    cases (l.settle file w' ((w.touching file node).filter affected.contains)).1 <;> rfl

/-- Every call settles the sessions that it changes, unless it breaks off. -/
theorem settles {l : Ledger} (hl : l.settings.persist = true) {w : World} (hw : w.Sound)
    (file : String) (request : Request) : l.Settles file request w := by
  cases request with
  | start name => exact .of_tidy (tidy_start hl hw file name)
  | record session node code => exact .of_tidy (tidy_execute hl hw file session node [code])
  | execute session node => exact .of_tidy (tidy_executeNode hl hw file session node)
  | replay session => exact .of_tidy (tidy_replay hl hw file session).1
  | branch name path => exact .of_tidy (tidy_branch hl hw file name path)
  | branchFromTree name target node placement =>
    exact .of_tidy (tidy_branchFromTree hl hw file name target node placement)
  | removeExecutionEdge edge => exact settles_removeExecutionEdge hl hw file edge
  | removeNode node => exact settles_removeNode hl hw file node
  | removeSession name => exact .of_tidy (tidy_removeSession hw file name)

/-! ## One call after another -/

/-- The world after the first calls of a sequence, each made when the one before it has ended. -/
def inTurn (l : Ledger) (w : World) (calls : Nat → String × Request) : Nat → World
  | 0 => w
  | n + 1 => (l.answer (calls n).1 (calls n).2 (l.inTurn w calls n)).2

/-- A call broke off on a session, and what has been stored for the session since then is the state
it had before that call. -/
structure StoredSince (l : Ledger) (w : World) (calls : Nat → String × Request)
    (file name : String) (s : Session) (m n : Nat) : Prop where
  /-- the call was made before -/
  before : m < n
  /-- it was about the session's file -/
  sameFile : (calls m).1 = file
  /-- it broke off on the session -/
  breaksOff : l.BreaksOff file (calls m).2 (l.inTurn w calls m) name
  /-- the session before that call -/
  session : (l.inTurn w calls m).workspace.session? file name = some s
  /-- the state that is stored -/
  stored : ∀ k, m ≤ k → k ≤ n →
    (l.inTurn w calls k).store.text? file name = some s.overall.compact

/-- As long as nothing is stored for the session anew, it stays so. -/
theorem StoredSince.succ {l : Ledger} {w : World} {calls : Nat → String × Request}
    {file name : String} {s : Session} {m n : Nat} (h : l.StoredSince w calls file name s m n)
    (hsame : (l.inTurn w calls (n + 1)).store.text? file name =
      (l.inTurn w calls n).store.text? file name) :
    l.StoredSince w calls file name s m (n + 1) := by
  refine ⟨Nat.lt_succ_of_lt h.before, h.sameFile, h.breaksOff, h.session, fun k hmk hkn => ?_⟩
  rcases Nat.le_or_eq_of_le_succ hkn with hle | rfl
  · exact h.stored k hmk hle
  · rw [hsame]
    exact h.stored n (Nat.le_of_lt h.before) (Nat.le_refl n)

/-- At any moment a session agrees with what is stored for it, or is there and has been left behind
by a call that broke off. -/
theorem agrees_or_storedSince {l : Ledger} (hl : l.settings.persist = true) {w : World}
    (hw : w.Sound) (hagrees : ∀ file name, w.Agrees file name) (calls : Nat → String × Request)
    (n : Nat) : (l.inTurn w calls n).Sound ∧ ∀ file name,
      (l.inTurn w calls n).Agrees file name ∨
        (l.inTurn w calls n).workspace.session? file name ≠ none ∧
          ∃ s m, l.StoredSince w calls file name s m n := by
  induction n with
  | zero => exact ⟨hw, fun file name => .inl (hagrees file name)⟩
  | succ n ih =>
    obtain ⟨hsound, hold⟩ := ih
    obtain ⟨hsound', hcall⟩ := settles hl hsound (calls n).1 (calls n).2
    refine ⟨hsound', fun file name => ?_⟩
    rcases hcall file name with hsame | hnow | ⟨rfl, hbreak⟩
    · rcases hold file name with hagreed | ⟨hthere, s, m, hsince⟩
      · exact .inl (hagreed.of_same hsame)
      · exact .inr ⟨hsame.1 ▸ hthere, s, m, hsince.succ hsame.2⟩
    · exact .inl hnow
    · obtain ⟨htext, s, s', hs, hs', -⟩ := hbreak.leftBehind
      have hthere : (l.inTurn w calls (n + 1)).workspace.session? (calls n).1 name ≠ none :=
        fun hnone => nomatch hnone.symm.trans hs'
      right
      rcases hold (calls n).1 name with hagreed | ⟨-, t, m, hsince⟩
      · -- the first call that breaks off leaves behind what it found
        rw [Agrees, hs] at hagreed
        refine ⟨hthere, s, n, Nat.lt_succ_self n, rfl, hbreak, hs, fun k hnk hkn => ?_⟩
        rcases Nat.le_or_eq_of_le_succ hkn with hle | rfl
        · rw [Nat.le_antisymm hle hnk]
          exact hagreed
        · exact htext.trans hagreed
      · exact ⟨hthere, t, m, hsince.succ htext⟩

/-- **What is stored agrees with what is in memory, unless a call broke off.** Calls are made one
after another on a ledger whose store in memory is empty at first and whose files have no sessions
yet. After each of them the state of every session is stored, and nothing for any other session,
except where a deletion took steps out of a session that was to be run anew and broke off: then the
state before that deletion has been stored ever since. -/
theorem disagrees_iff (l : Ledger) (hl : l.settings.persist = true) (w : World)
    (hstore : w.store = .memory .empty)
    (hsessions : ∀ file f, w.workspace.file? file = some f → f.book.sessions = [])
    (calls : Nat → String × Request) (n : Nat) (file name : String) :
    ¬ (l.inTurn w calls n).Agrees file name ↔
      ∃ m s t, l.StoredSince w calls file name s m n ∧
        (l.inTurn w calls n).workspace.session? file name = some t ∧
        t.overall.compact ≠ s.overall.compact := by
  have hnone : ∀ file name, w.workspace.session? file name = none := by
    intro file name
    rw [Workspace.session?]
    cases hf : w.workspace.file? file with
    | none => rfl
    | some f =>
      rw [Option.bind_some, Book.get?, hsessions file f hf]
      rfl
  have hsound : w.Sound := by
    refine ⟨⟨.empty, hstore⟩, fun file f hf => ?_⟩
    rw [Book.names, hsessions file f hf]
    exact List.nodup_nil
  have hagrees : ∀ file name, w.Agrees file name := by
    intro file name
    rw [Agrees, hnone, hstore]
    rfl
  -- such a call stored nothing, so disagreement lasts just as long as the states print differently
  constructor
  · intro hnot
    rcases (agrees_or_storedSince hl hsound hagrees calls n).2 file name with hagreed |
      ⟨hthere, s, m, hsince⟩
    · exact absurd hagreed hnot
    · obtain ⟨t, ht⟩ := Option.ne_none_iff_exists'.mp hthere
      refine ⟨m, s, t, hsince, ht, fun heq => hnot ?_⟩
      rw [Agrees, hsince.stored n (Nat.le_of_lt hsince.before) (Nat.le_refl n), ht,
        Option.map_some, heq]
  · rintro ⟨m, s, t, hsince, ht, hne⟩ hagreed
    rw [Agrees, hsince.stored n (Nat.le_of_lt hsince.before) (Nat.le_refl n), ht,
      Option.map_some] at hagreed
    exact hne (Option.some.inj hagreed).symm

/-- A runner that puts the code itself among the variables, and gives up after two calls. Sessions
are run anew when they have lost steps. -/
def tiring : Ledger where
  runner number code prior :=
    if number ≤ 2 then
      .ok { stdout := "", stderr := "", state := prior.insert code .null trivial, time := .zero }
    else .error (.unavailable "tired")
  settings := { replayOnRemoval := true }

/-- One file with one node that has code. -/
def codedPage : World :=
  { World.initial default with
    workspace := Workspace.empty.insertFile "f"
      (Graph.empty.upsertNode { Node.new "a" .fragment with code := some "x" }) .empty }

/-- A session is started and two steps of it are recorded. Then the second one is deleted. -/
def cutShort (n : Nat) : String × Request :=
  ("f", ([.start "s", .record "s" "a" "x", .record "s" "a" "y",
    .removeExecutionEdge "exec:s:2"][n]?).getD (.start "s"))

/-- The page once the step is taken out and before the session is run anew. -/
def cutPage : World := ((tiring.inTurn codedPage cutShort 3).removeEdge "f" "exec:s:2").2

theorem sessions_codedPage (file : String) (f : FileState)
    (h : codedPage.workspace.file? file = some f) : f.book.sessions = [] := by
  by_cases hfile : file = "f"
  · rw [hfile] at h
    cases h
    rfl
  · rw [codedPage, Workspace.insertFile, Workspace.file?_setFile_of_ne _ _ hfile] at h
    cases h

/-- The runner is tired by the time the session is to be run anew, and the call leaves the page as
it was before that. -/
theorem inTurn_cutShort :
    (tiring.inTurn codedPage cutShort 4).workspace = cutPage.workspace ∧
      (tiring.inTurn codedPage cutShort 4).store = cutPage.store := by
  obtain ⟨s, hs, hpath⟩ : ∃ s, cutPage.workspace.session? "f" "s" = some s ∧ s.path = ["a"] :=
    ⟨_, rfl, rfl⟩
  have hsteps : cutPage.workspace.steps? "f" "a" = some ["x"] :=
    Workspace.steps?_of_code rfl rfl rfl
  have hfresh : tiring.runFresh cutPage.workspace "f" cutPage.calls s.path =
      .error (.unavailable "tired") := by
    rw [hpath, runFresh, List.foldlM_cons, runNext_some hsteps]
    rfl
  obtain ⟨hfault, hworkspace, hstore⟩ := replay_of_error hs hfresh
  have hcall : tiring.inTurn codedPage cutShort 4 = (tiring.settle "f" cutPage ["s"]).2 := rfl
  have hmode : tiring.settings.replayOnRemoval = true := rfl
  rw [hcall, settle, if_pos hmode]
  rcases hreplay : tiring.replay "f" "s" cutPage with ⟨fault | count, w⟩
  · rw [hreplay] at hworkspace hstore
    exact ⟨hworkspace, hstore⟩
  · rw [hreplay] at hfault
    cases hfault

/-- The session has one step left, and the state after both is stored. -/
theorem not_agrees_cutShort : ¬ (tiring.inTurn codedPage cutShort 4).Agrees "f" "s" := by
  rw [Agrees, inTurn_cutShort.1, inTurn_cutShort.2]
  decide

theorem disagrees_iff_cutShort :
    tiring.settings.persist = true ∧ codedPage.store = .memory .empty ∧
      (∀ file f, codedPage.workspace.file? file = some f → f.book.sessions = []) ∧
      ∃ m s t, tiring.StoredSince codedPage cutShort "f" "s" s m 4 ∧
        (tiring.inTurn codedPage cutShort 4).workspace.session? "f" "s" = some t ∧
        t.overall.compact ≠ s.overall.compact :=
  ⟨rfl, rfl, sessions_codedPage,
    (disagrees_iff tiring rfl codedPage rfl sessions_codedPage cutShort 4 "f" "s").mp
      not_agrees_cutShort⟩

/-- Not every call that ends has stored what it changed. -/
theorem not_always_agrees :
    ¬ ∀ (l : Ledger) (w : World) (calls : Nat → String × Request), l.settings.persist = true →
      w.store = .memory .empty →
      (∀ file f, w.workspace.file? file = some f → f.book.sessions = []) →
      ∀ n file name, (l.inTurn w calls n).Agrees file name := by
  intro h
  exact not_agrees_cutShort (h tiring codedPage cutShort rfl rfl sessions_codedPage 4 "f" "s")

end Ledger

end Runbook
