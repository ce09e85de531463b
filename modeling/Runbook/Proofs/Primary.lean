import Runbook.Proofs.Replay
import Runbook.Proofs.Splices

/-!
# The primary session after a deletion

Deleting a node may empty the primary session; then the one updated last of those that are not
empty takes its place. Where sessions that lost steps are run anew, each of them becomes primary in
its turn, whatever was primary before and whatever is left of it.

* `Book.KeepsPrimary`, `Book.HasLivePrimary`: what is expected of the primary session
* `Book.keepsPrimary_refreshPrimary`, `Book.hasLivePrimary_refreshPrimary`: what taking a node out
  of the sessions does about it
* `Ledger.primary_settle`: of the sessions that are run anew, the last stays primary
* `Ledger.primary_misplaced_iff`: when a deletion leaves the wrong session primary
-/

namespace Runbook

/-! ## Books -/

namespace Book

/-- A session of this name is there and not empty. -/
def IsLive (b : Book) (name : String) : Prop := ∃ s, b.get? name = some s ∧ s.isEmpty = false

/-- The session that was primary before a change still is, unless it is empty or gone. -/
def KeepsPrimary (b b' : Book) : Prop :=
  ∀ name, b.primary = some name → b'.IsLive name → b'.primary = some name

/-- Where any session is not empty, the primary session is one that is not. -/
def HasLivePrimary (b : Book) : Prop :=
  (∃ s ∈ b.sessions, s.isEmpty = false) → ∃ name, b.primary = some name ∧ b.IsLive name

variable {b b' : Book}

theorem isLive_refreshPrimary {name : String} : b.refreshPrimary.IsLive name ↔ b.IsLive name := by
  rw [IsLive, IsLive, get?_refreshPrimary]

theorem primaryIsLive_iff :
    b.primaryIsLive = true ↔ ∃ name, b.primary = some name ∧ b.IsLive name := by
  rw [primaryIsLive]
  cases hprimary : b.primary with
  | none => simp
  | some name =>
    cases hs : b.get? name with
    | none => simp [IsLive, hs]
    | some s => simp [IsLive, hs]

theorem get?_of_mem (h : b.names.Nodup) {s : Session} (hs : s ∈ b.sessions) :
    b.get? s.id = some s := by
  cases hget : b.get? s.id with
  | none => exact absurd (decide_eq_true rfl) (List.find?_eq_none.mp hget s hs)
  | some t =>
    rw [List.inj_on_of_nodup_map h (List.mem_of_find?_eq_some hget) hs (exists_split hget).1]

theorem mem_of_latest? {sessions : List Session} {s : Session} (h : latest? sessions = some s) :
    s ∈ sessions := by
  cases sessions with
  | nil => cases h
  | cons first rest =>
    obtain rfl := Option.some.inj h
    clear h
    -- the best so far is the first or one of those that were compared with it
    induction rest generalizing first with
    | nil => exact List.mem_singleton_self _
    | cons next rest ih =>
      rw [List.foldl_cons]
      have hbest := ih (if first.lastUpdate.le next.lastUpdate then next else first)
      rcases List.mem_cons.mp hbest with heq | hmem
      · rw [heq]
        split
        · exact List.mem_cons_of_mem _ (List.mem_cons_self ..)
        · exact List.mem_cons_self ..
      · exact List.mem_cons_of_mem _ (List.mem_cons_of_mem _ hmem)

theorem latest?_eq_none_iff {sessions : List Session} : latest? sessions = none ↔ sessions = [] := by
  cases sessions <;> simp [latest?]

/-- A primary session that is not empty stays. -/
theorem keepsPrimary_refreshPrimary (b : Book) : b.KeepsPrimary b.refreshPrimary := by
  intro name hprimary hlive
  rw [isLive_refreshPrimary] at hlive
  rw [refreshPrimary, if_pos (primaryIsLive_iff.mpr ⟨name, hprimary, hlive⟩), hprimary]

/-- One that is empty or gone is replaced if there is any that is not empty. -/
theorem hasLivePrimary_refreshPrimary (h : b.names.Nodup) : b.refreshPrimary.HasLivePrimary := by
  rintro ⟨s, hs, hlive⟩
  rw [sessions_refreshPrimary] at hs
  simp only [isLive_refreshPrimary]
  rw [refreshPrimary]
  split
  · rename_i hprimary
    exact primaryIsLive_iff.mp hprimary
  · cases hlatest : latest? (b.sessions.filter fun s => !s.isEmpty) with
    | none =>
      rw [latest?_eq_none_iff, List.filter_eq_nil_iff] at hlatest
      exact absurd (by rw [hlive]; rfl) (hlatest s hs)
    | some t =>
      obtain ⟨ht, htlive⟩ := List.mem_filter.mp (mem_of_latest? hlatest)
      exact ⟨t.id, rfl, t, get?_of_mem h ht, by simpa using htlive⟩

/-- What it takes for the session that is primary afterwards to be the wrong one. -/
theorem misplaced_iff {last : String} (h : b'.primary = some last) :
    ¬ (b.KeepsPrimary b' ∧ b'.HasLivePrimary) ↔
      (∃ name, b.primary = some name ∧ name ≠ last ∧ b'.IsLive name) ∨
        ¬ b'.IsLive last ∧ ∃ s ∈ b'.sessions, s.isEmpty = false := by
  have hkeeps : b.KeepsPrimary b' ↔
      ∀ name, b.primary = some name → b'.IsLive name → name = last := by
    rw [KeepsPrimary, h]
    exact forall_congr' fun name => by rw [Option.some.injEq, eq_comm (a := last)]
  have hlive : b'.HasLivePrimary ↔ ((∃ s ∈ b'.sessions, s.isEmpty = false) → b'.IsLive last) := by
    rw [HasLivePrimary, h]
    simp only [Option.some.injEq, exists_eq_left']
  rw [hkeeps, hlive]
  grind

end Book

/-! ## Files -/

/-- Deleting a node that is there names the sessions that ran it, and leaves the primary session
where it was or moves it to one that is not empty. -/
theorem FileState.removeNode_primary {f : FileState} {node : NodeId} (hnames : f.book.names.Nodup)
    (hstart : node ≠ startId) (hnode : f.graph.hasNode node = true) (now : Instant) :
    (f.removeNode node now).1 = f.book.touching node ∧
      (f.removeNode node now).2.book.names = f.book.names ∧
      f.book.KeepsPrimary (f.removeNode node now).2.book ∧
      (f.removeNode node now).2.book.HasLivePrimary := by
  rcases f.removeNode_cases node now with ⟨hrefused, -⟩ | ⟨-, -, g, sessions', heq, hsame, -⟩
  · simp [hstart, hnode] at hrefused
  · rw [heq]
    refine ⟨rfl, (Book.names_refreshPrimary _).trans hsame, ?_, ?_⟩
    · exact Book.keepsPrimary_refreshPrimary ({ f.book with sessions := sessions' } : Book)
    · refine Book.hasLivePrimary_refreshPrimary ?_
      rw [Book.names, hsame]
      exact hnames

namespace Ledger

variable {l : Ledger} {file : String}

/-! ## Settling -/

/-- Storing the states of sessions does not change the workspace. -/
theorem workspace_settle (hmode : l.settings.replayOnRemoval = false) (names : List String) :
    ∀ w : World, (l.settle file w names).2.workspace = w.workspace := by
  induction names with
  | nil => exact fun w => rfl
  | cons name rest ih =>
    intro w
    rw [settle, if_neg (by rw [hmode]; exact Bool.false_ne_true), ih, World.workspace_persistSession]

/-- A session that is run anew becomes primary. -/
theorem primary_replay {name : String} {w : World} {f : FileState} {n : Nat}
    (hf : w.workspace.file? file = some f) (hname : name ∈ f.book.names)
    (hok : (l.replay file name w).1 = .ok n) :
    ∃ f', (l.replay file name w).2.workspace.file? file = some f' ∧
      f'.book.names = f.book.names ∧ f'.book.primary = some name := by
  obtain ⟨s, hs⟩ : ∃ s, f.book.get? name = some s :=
    Option.isSome_iff_exists.mp (Book.contains_iff.mpr hname)
  have hsession : w.workspace.session? file name = some s := by
    rw [Workspace.session?, hf, Option.bind_some, hs]
  cases hfresh : l.runFresh w.workspace file w.calls s.path with
  | error b => cases (replay_of_error hsession hfresh).1.symm.trans hok
  | ok done =>
    obtain ⟨f₁, pre, post, s', w', hf₁, hsplit, -, hid, -, -, -, happly, hreplay⟩ :=
      replay_of_ok hsession hfresh
    obtain rfl : f = f₁ := Option.some.inj (hf.symm.trans hf₁)
    rw [hreplay, World.workspace_persist, happly, Workspace.file?_setFile_self]
    refine ⟨_, rfl, ?_, rfl⟩
    rw [Book.names, Book.names, hsplit, List.map_append, List.map_append, List.map_cons,
      List.map_cons, hid, (Book.exists_split hs).1]

/-- Of the sessions that are run anew, the last is primary in the end. -/
theorem primary_settle (hmode : l.settings.replayOnRemoval = true) (names : List String) :
    ∀ {w : World} {f : FileState}, w.workspace.file? file = some f →
      (∀ name ∈ names, name ∈ f.book.names) → (l.settle file w names).1 = .ok () →
      ∃ f', (l.settle file w names).2.workspace.file? file = some f' ∧
        f'.book.names = f.book.names ∧ f'.book.primary = names.getLast?.or f.book.primary := by
  induction names with
  | nil => exact fun {w f} hf _ _ => ⟨f, hf, rfl, rfl⟩
  | cons name rest ih =>
    intro w f hf hmem hok
    rw [settle, if_pos hmode] at hok ⊢
    rcases hreplay : l.replay file name w with ⟨fault | n, w'⟩
    · rw [hreplay] at hok
      cases hok
    · obtain ⟨f₁, hf₁, hsame, hprimary⟩ :=
        primary_replay hf (hmem name (List.mem_cons_self ..)) (by rw [hreplay])
      rw [hreplay] at hf₁ hok
      obtain ⟨f', hf', hnames, hlast⟩ := ih hf₁
        (fun other h => hsame ▸ hmem other (List.mem_cons_of_mem _ h)) hok
      refine ⟨f', hf', hnames.trans hsame, ?_⟩
      rw [hlast, hprimary, List.getLast?_cons]
      cases rest.getLast? <;> rfl

/-! ## Deletions -/

theorem removeNode_world {node : NodeId} {w : World} {f : FileState}
    (hf : w.workspace.file? file = some f) : w.removeNode file node =
      ((f.removeNode node w.now).1,
        w.withWorkspace (w.workspace.setFile file (f.removeNode node w.now).2)) := by
  rw [World.removeNode, Workspace.removeNode, Workspace.update, hf]

/-- The start and nodes that are not there stay, and so does all else. -/
theorem removeNode_refused {node : NodeId} {w : World} {f : FileState}
    (hf : w.workspace.file? file = some f)
    (hrefused : node = startId ∨ f.graph.hasNode node = false) :
    l.removeNode file node w = (.ok [], w.withWorkspace (w.workspace.setFile file f)) := by
  have hfile : f.removeNode node w.now = ([], f) := by
    rcases f.removeNode_cases node w.now with ⟨-, heq⟩ | ⟨hstart, hnode, -⟩
    · exact heq
    · simp [hstart, hnode] at hrefused
  have hnone : (w.touching file node).filter ([] : List String).contains = [] :=
    List.filter_eq_nil_iff.mpr fun _ _ => Bool.false_ne_true
  rw [removeNode, removeNode_world hf, hfile]
  simp only [hnone, settle, Except.map]

/-- Otherwise the node is taken out of the sessions, and then all that ran it are settled. -/
theorem removeNode_settles {node : NodeId} {w : World} {f : FileState} {names : List String}
    (hf : w.workspace.file? file = some f) (hnames : f.book.names.Nodup) (hstart : node ≠ startId)
    (hnode : f.graph.hasNode node = true) (hok : (l.removeNode file node w).1 = .ok names) :
    ∃ w', w'.workspace.file? file = some (f.removeNode node w.now).2 ∧
      names = f.book.touching node ∧ (l.settle file w' (w.touching file node)).1 = .ok () ∧
      (l.removeNode file node w).2 = (l.settle file w' (w.touching file node)).2 := by
  have hgiven := (FileState.removeNode_primary hnames hstart hnode w.now).1
  have hall : (w.touching file node).filter (f.book.touching node).contains =
      w.touching file node := by
    rw [List.filter_eq_self]
    exact fun name h => List.contains_iff_mem.mpr ((World.mem_touching hf).mp h)
  refine ⟨w.withWorkspace (w.workspace.setFile file (f.removeNode node w.now).2),
    Workspace.file?_setFile_self w.workspace file _, ?_⟩
  rw [removeNode, removeNode_world hf, hgiven] at hok ⊢
  simp only [hall] at hok ⊢
  cases hsettle : (l.settle file (w.withWorkspace (w.workspace.setFile file
      (f.removeNode node w.now).2)) (w.touching file node)).1 with
  | error fault =>
    rw [hsettle] at hok
    cases hok
  | ok u =>
    rw [hsettle] at hok
    exact ⟨(Except.ok.inj hok).symm, rfl, trivial⟩

/-- **When a deletion leaves the wrong session primary.** A node that is the start or not there is
left alone, and everything with it. Otherwise the session that was primary stays so unless it is
empty now, and one that is not empty is primary if there is any; but where sessions that lost steps
are run anew, the last of them by name is primary, be it that another one was, or that nothing is
left of it. -/
theorem primary_misplaced_iff {node : NodeId} {w : World} {f : FileState} {names : List String}
    (hf : w.workspace.file? file = some f) (hnames : f.book.names.Nodup)
    (hok : (l.removeNode file node w).1 = .ok names) :
    ∃ f', (l.removeNode file node w).2.workspace.file? file = some f' ∧
      (node = startId ∨ f.graph.hasNode node = false → names = [] ∧ f' = f) ∧
      (node ≠ startId → f.graph.hasNode node = true →
        names = f.book.touching node ∧ f'.book.names = f.book.names ∧
        (¬ (f.book.KeepsPrimary f'.book ∧ f'.book.HasLivePrimary) ↔
          l.settings.replayOnRemoval = true ∧ ∃ last,
            (w.touching file node).getLast? = some last ∧ f'.book.primary = some last ∧
            ((∃ name, f.book.primary = some name ∧ name ≠ last ∧ f'.book.IsLive name) ∨
              ¬ f'.book.IsLive last ∧ ∃ s ∈ f'.book.sessions, s.isEmpty = false))) := by
  by_cases hrefused : node = startId ∨ f.graph.hasNode node = false
  · rw [removeNode_refused hf hrefused] at hok ⊢
    refine ⟨f, Workspace.file?_setFile_self .., fun _ => ⟨(Except.ok.inj hok).symm, rfl⟩, ?_⟩
    intro hstart hnode
    rcases hrefused with h | h
    · exact absurd h hstart
    · cases hnode.symm.trans h
  · obtain ⟨hstart, hnode⟩ := not_or.mp hrefused
    rw [Bool.not_eq_false] at hnode
    obtain ⟨w', hw', hgiven, hsettle, hremove⟩ := removeNode_settles hf hnames hstart hnode hok
    obtain ⟨-, hsame, hkeeps, hlive⟩ := FileState.removeNode_primary hnames hstart hnode w.now
    rw [hremove]
    cases hmode : l.settings.replayOnRemoval with
    | false =>
      -- storing states leaves the sessions as taking the node out left them
      refine ⟨_, by rw [workspace_settle hmode]; exact hw', fun h => absurd h hrefused,
        fun _ _ => ⟨hgiven, hsame, ?_⟩⟩
      exact iff_of_false (fun h => h ⟨hkeeps, hlive⟩) fun h => nomatch h.1
    | true =>
      have hthere : ∀ name ∈ w.touching file node,
          name ∈ (f.removeNode node w.now).2.book.names := by
        rw [hsame]
        exact fun name h => f.book.touching_subset_names node ((World.mem_touching hf).mp h)
      obtain ⟨f', hf', hnames', hprimary⟩ := primary_settle hmode _ hw' hthere hsettle
      cases hlast : (w.touching file node).getLast? with
      | none =>
        -- no session ran the node, and none is run anew
        rw [List.getLast?_eq_none_iff] at hlast
        rw [hlast]
        refine ⟨_, hw', fun h => absurd h hrefused, fun _ _ => ⟨hgiven, hsame, ?_⟩⟩
        exact iff_of_false (fun h => h ⟨hkeeps, hlive⟩) fun ⟨_, _, h, _⟩ => nomatch h
      | some last =>
        rw [hlast, Option.some_or] at hprimary
        refine ⟨f', hf', fun h => absurd h hrefused,
          fun _ _ => ⟨hgiven, hnames'.trans hsame, ?_⟩⟩
        rw [Book.misplaced_iff hprimary]
        constructor
        · exact fun h => ⟨rfl, last, rfl, hprimary, h⟩
        · rintro ⟨-, other, hother, -, h⟩
          rwa [Option.some.inj hother]

/-- A session in which one node has run. -/
def ranOnce (name : String) (node : NodeId) : Session :=
  (Session.new name (default : World).now).push
    { node, stdout := "", stderr := "", state := .empty, time := .zero } (default : World).now

/-- A file with two nodes and two sessions, of which the one that ran the second node is primary. -/
def twoRan : FileState :=
  .load ((Graph.empty.upsertNode { Node.new "a" .fragment with code := some "x" }).upsertNode
    { Node.new "b" .fragment with code := some "y" }) ⟨[ranOnce "s" "a", ranOnce "t" "b"], some "t"⟩

/-- The file alone. -/
def twoRanPage : World :=
  { (default : World) with workspace := Workspace.empty.setFile "f" twoRan }

/-- A runner that leaves the state as it is. Sessions are run anew when they have lost steps. -/
def rerunning : Ledger where
  runner _ _ prior := .ok { stdout := "", stderr := "", state := prior, time := .zero }
  settings := { replayOnRemoval := true }

theorem touching_twoRanPage : twoRanPage.touching "f" "a" = ["s"] := List.mergeSort_singleton "s"

theorem removeNode_twoRanPage : (rerunning.removeNode "f" "a" twoRanPage).1 = .ok ["s"] := by
  rw [removeNode, touching_twoRanPage]
  rfl

/-- The session that lost its only step is primary, and the one that was primary has its step. -/
theorem primary_twoRanPage : ∃ f',
    (rerunning.removeNode "f" "a" twoRanPage).2.workspace.file? "f" = some f' ∧
      f'.book.primary = some "s" ∧ ¬ f'.book.IsLive "s" ∧ f'.book.IsLive "t" := by
  rw [removeNode, touching_twoRanPage]
  refine ⟨_, rfl, rfl, ?_, _, rfl, rfl⟩
  rintro ⟨s, hs, hlive⟩
  cases hs
  cases hlive

theorem primary_misplaced_iff_twoRan :
    twoRanPage.workspace.file? "f" = some twoRan ∧ twoRan.book.names.Nodup ∧
      (rerunning.removeNode "f" "a" twoRanPage).1 = .ok ["s"] ∧
      ∃ f', (rerunning.removeNode "f" "a" twoRanPage).2.workspace.file? "f" = some f' ∧
        ¬ (twoRan.book.KeepsPrimary f'.book ∧ f'.book.HasLivePrimary) := by
  refine ⟨rfl, by decide, removeNode_twoRanPage, ?_⟩
  obtain ⟨f', hf', -, hdeleted⟩ :=
    @primary_misplaced_iff rerunning "f" "a" twoRanPage twoRan ["s"] rfl (by decide)
      removeNode_twoRanPage
  obtain ⟨f₁, hf₁, hprimary, -, hlive⟩ := primary_twoRanPage
  obtain rfl : f' = f₁ := Option.some.inj (hf'.symm.trans hf₁)
  refine ⟨f', hf', (hdeleted (by decide) (by decide)).2.2.mpr ⟨rfl, "s", ?_, hprimary, .inl ?_⟩⟩
  · rw [touching_twoRanPage]
    rfl
  · exact ⟨"t", rfl, by decide, hlive⟩

/-- Not every deletion leaves the session primary that was, nor one that is not empty. -/
theorem not_always_keepsPrimary :
    ¬ ∀ (l : Ledger) (w : World) (file : String) (node : NodeId) (f f' : FileState)
        (names : List String), w.workspace.file? file = some f → f.book.names.Nodup →
      (l.removeNode file node w).1 = .ok names →
      (l.removeNode file node w).2.workspace.file? file = some f' →
      f.book.KeepsPrimary f'.book ∧ f'.book.HasLivePrimary := by
  intro h
  obtain ⟨f', hf', hprimary, hempty, hlive⟩ := primary_twoRanPage
  have hkept := h rerunning twoRanPage "f" "a" twoRan f' ["s"] rfl (by decide)
    removeNode_twoRanPage hf'
  have hstays : f'.book.primary = some "t" := hkept.1 "t" rfl hlive
  rw [hprimary] at hstays
  exact absurd hstays (by decide)

end Ledger

end Runbook
