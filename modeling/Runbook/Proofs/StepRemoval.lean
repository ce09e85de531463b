import Runbook.Proofs.Updates

/-!
# Steps that are taken out of a session

A step is taken out by the name of its edge, and a node by the names of the edges of all its places.
The edges need not be a chain for that: names may be doubled or missing, and labels may say anything
or nothing. What is taken out can be told from the edges as they are, and where anything is, they
are a chain afterwards.

* `Text.Says`, `Text.natural?_trim_eq_some`: the numbers that are read from texts
* `Edge.StandsFor`, `Session.NamesStep`: the steps that edges and their names stand for
* `Session.CutBy`, `Session.cutBy_removeStep`: all that taking out a step can do
* `Session.Spared`, `Session.removeNode_spared`: what is left when a node is taken out
-/

namespace Runbook

/-! ## Numbers in texts -/

namespace Text

/-- A text says a number in decimal digits, at least one, with or without a plus sign before them
and with any blanks around. -/
def Says (cs : List Char) (n : Nat) : Prop :=
  ∃ before sign digits after, cs = before ++ (sign ++ digits) ++ after ∧
    (∀ c ∈ before, isBlank c = true) ∧ (∀ c ∈ after, isBlank c = true) ∧
    (sign = [] ∨ sign = ['+']) ∧ digits ≠ [] ∧ (∀ c ∈ digits, c.isDigit = true) ∧
    Nat.ofDigitChars 10 digits 0 = n

theorem digits?_eq_some {cs : List Char} {n : Nat} : digits? cs = some n ↔
    cs ≠ [] ∧ (∀ c ∈ cs, c.isDigit = true) ∧ Nat.ofDigitChars 10 cs 0 = n := by
  have hvalue : digitsValue cs = Nat.ofDigitChars 10 cs 0 := by
    rw [digitsValue, Nat.ofDigitChars_eq_foldl]
  by_cases hcs : cs = []
  · simp [digits?, hcs]
  · by_cases hall : ∀ c ∈ cs, c.isDigit = true
    · have hdigits : cs.all Char.isDigit = true := List.all_eq_true.mpr hall
      simpa [digits?, hcs, hdigits, hvalue] using fun _ => hall
    · have hother : cs.all Char.isDigit = false := by
        rwa [← Bool.not_eq_true, List.all_eq_true]
      simp [digits?, hother, hall]

/-- A plus sign is no digit, so there is one way only to read a sign and digits. -/
theorem natural?_eq_some {cs : List Char} {n : Nat} : natural? cs = some n ↔
    ∃ sign digits, cs = sign ++ digits ∧ (sign = [] ∨ sign = ['+']) ∧ digits ≠ [] ∧
      (∀ c ∈ digits, c.isDigit = true) ∧ Nat.ofDigitChars 10 digits 0 = n := by
  constructor
  · intro h
    rw [natural?.eq_def] at h
    split at h
    · exact ⟨['+'], _, rfl, .inr rfl, digits?_eq_some.mp h⟩
    · exact ⟨[], cs, rfl, .inl rfl, digits?_eq_some.mp h⟩
  · rintro ⟨sign, digits, rfl, rfl | rfl, h⟩
    · rw [List.nil_append, natural?]
      · exact digits?_eq_some.mpr h
      · rintro cs rfl
        exact absurd (h.2.1 '+' (List.mem_cons_self ..)) (by decide)
    · exact digits?_eq_some.mpr h

/-- What is trimmed off a text are blanks. -/
theorem exists_trim (cs : List Char) : ∃ before after, cs = before ++ trim cs ++ after ∧
    (∀ c ∈ before, isBlank c = true) ∧ ∀ c ∈ after, isBlank c = true := by
  have hblank : ∀ (cs : List Char), ∀ c ∈ cs.takeWhile isBlank, isBlank c = true :=
    fun _ => List.all_eq_true.mp List.all_takeWhile
  refine ⟨cs.takeWhile isBlank, ((trimLeft cs).reverse.takeWhile isBlank).reverse, ?_, hblank cs,
    fun c hc => hblank _ c (List.mem_reverse.mp hc)⟩
  have hright : trim cs ++ ((trimLeft cs).reverse.takeWhile isBlank).reverse = trimLeft cs := by
    rw [trim, trimRight, ← List.reverse_append, List.takeWhile_append_dropWhile,
      List.reverse_reverse]
  rw [List.append_assoc, hright, trimLeft, List.takeWhile_append_dropWhile]

/-- Blanks around a text that has none at its ends are trimmed off, and nothing else. -/
theorem trim_append {before body after : List Char} (hbefore : ∀ c ∈ before, isBlank c = true)
    (hafter : ∀ c ∈ after, isBlank c = true) (hbody : body ≠ [])
    (hhead : isBlank (body.head hbody) = false) (hlast : isBlank (body.getLast hbody) = false) :
    trim (before ++ body ++ after) = body := by
  have hkeep : ∀ (cs rest : List Char) (hcs : cs ≠ []), isBlank (cs.head hcs) = false →
      (cs ++ rest).dropWhile isBlank = cs ++ rest := by
    intro cs rest hcs hc
    cases cs with
    | nil => exact absurd rfl hcs
    | cons c cs => exact List.dropWhile_cons_of_neg (by simpa using hc)
  have hreverse : body.reverse ≠ [] := by simpa using hbody
  rw [trim, trimLeft, List.append_assoc, List.dropWhile_append_of_pos hbefore,
    hkeep body after hbody hhead, trimRight, List.reverse_append,
    List.dropWhile_append_of_pos fun c hc => hafter c (List.mem_reverse.mp hc),
    ← List.append_nil body.reverse, hkeep _ _ hreverse (by simpa using hlast), List.append_nil,
    List.reverse_reverse]

/-- The number that is read from a text, blanks aside, is the one that the text says. -/
theorem natural?_trim_eq_some {cs : List Char} {n : Nat} :
    natural? (trim cs) = some n ↔ Says cs n := by
  rw [natural?_eq_some]
  constructor
  · rintro ⟨sign, digits, htrim, hnumeral⟩
    obtain ⟨before, after, hcs, hbefore, hafter⟩ := exists_trim cs
    rw [htrim] at hcs
    exact ⟨before, sign, digits, after, hcs, hbefore, hafter, hnumeral⟩
  · rintro ⟨before, sign, digits, after, rfl, hbefore, hafter, hsign, hne, hdigits, hvalue⟩
    refine ⟨sign, digits, ?_, hsign, hne, hdigits, hvalue⟩
    -- a numeral starts with a sign or a digit and ends with a digit
    have hblank : ∀ c ∈ sign ++ digits, isBlank c = false := by
      intro c hc
      rcases List.mem_append.mp hc with hc | hc
      · rcases hsign with rfl | rfl
        · cases hc
        · rw [List.mem_singleton.mp hc]
          decide
      · exact isBlank_of_isDigit (hdigits c hc)
    exact trim_append hbefore hafter (List.append_ne_nil_of_right_ne_nil _ hne)
      (hblank _ (List.head_mem _)) (hblank _ (List.getLast_mem _))

end Text

/-! ## Steps that edges stand for -/

/-- The edge stands for a step of the session: it is one, and its label says which. -/
def Edge.StandsFor (name : String) (position : Nat) (e : Edge) : Prop :=
  e.kind = .execution name ∧ ∃ label, e.label = some label ∧ Text.Says label.toList position

namespace Session

theorem standsFor_iff {name : String} {position : Nat} {e : Edge} :
    e.StandsFor name position ↔ e.isExecutionOf name = true ∧ e.step? = some position := by
  rw [Edge.StandsFor, isExecutionOf_iff]
  refine and_congr_right fun hkind => ?_
  have hexec : e.isExecution = true := isExecution_of_isExecutionOf (isExecutionOf_iff.mpr hkind)
  rw [Edge.step?, if_pos hexec, Option.bind_eq_some_iff]
  simp only [Text.natural?_trim_eq_some]

/-- A name stands for a position of the session's path, counted from one, if the first edge of that
name does. -/
def NamesStep (s : Session) (es : List Edge) (id : EdgeId) (position : Nat) : Prop :=
  (∃ pre e post, es = pre ++ e :: post ∧ (∀ d ∈ pre, d.id ≠ id) ∧ e.id = id ∧
    e.StandsFor s.id position) ∧ 1 ≤ position ∧ position ≤ s.length

/-- The session with only some executions left, and the state that the last of them left. -/
def keeping (s : Session) (xs : List Execution) (now : Instant) : Session :=
  { s with executions := xs, lastUpdate := now, overall := lastState xs }

/-- What comes of taking out the step that the name of an edge stands for. -/
structure CutBy (id : EdgeId) (now : Instant) (es : List Edge) (s : Session)
    (result : Except Fault (Option Execution) × List Edge × Session) : Prop where
  /-- there is a complaint exactly if no edge has the name -/
  error_iff : ∀ fault, result.1 = .error fault ↔ fault = .unknownEdge id ∧ ∀ e ∈ es, e.id ≠ id
  /-- unless an execution is given, everything stays -/
  stays : (∀ x, result.1 ≠ .ok (some x)) → result.2 = (es, s)
  /-- an execution is given exactly if it is at the place that the name stands for -/
  gives_iff : ∀ x, result.1 = .ok (some x) ↔
    ∃ position, s.NamesStep es id position ∧ s.executions[position - 1]? = some x
  /-- the executions before and behind it are left, and the session's chain is drawn anew behind the
  edges that are no steps of it -/
  leaves : ∀ before x after, s.executions = before ++ x :: after →
    s.NamesStep es id (before.length + 1) →
      result = (.ok (some x), otherEdges s.id es ++ (s.keeping (before ++ after) now).edges,
        s.keeping (before ++ after) now)

section RemoveStep

variable {id : EdgeId} {es : List Edge} {s : Session}

/-- The first edge of a name, by what comes before it. -/
theorem find?_id_eq_some {e : Edge} : es.find? (fun e => e.id = id) = some e ↔
    ∃ pre post, es = pre ++ e :: post ∧ (∀ d ∈ pre, d.id ≠ id) ∧ e.id = id := by
  simp only [List.find?_eq_some_iff_append, decide_eq_true_eq, Bool.not_eq_true',
    decide_eq_false_iff_not]
  exact ⟨fun ⟨hid, pre, post, hes, hpre⟩ => ⟨pre, post, hes, hpre, hid⟩,
    fun ⟨pre, post, hes, hpre, hid⟩ => ⟨hid, pre, post, hes, hpre⟩⟩

theorem namesStep_iff {position : Nat} : s.NamesStep es id position ↔
    (∃ e, es.find? (fun e => e.id = id) = some e ∧ e.isExecutionOf s.id = true ∧
      e.step? = some position) ∧ 1 ≤ position ∧ position ≤ s.length := by
  refine and_congr_left fun _ => ?_
  constructor
  · rintro ⟨pre, e, post, hes, hpre, hid, hstands⟩
    exact ⟨e, find?_id_eq_some.mpr ⟨pre, post, hes, hpre, hid⟩, standsFor_iff.mp hstands⟩
  · rintro ⟨e, hfind, hstands⟩
    obtain ⟨pre, post, hes, hpre, hid⟩ := find?_id_eq_some.mp hfind
    exact ⟨pre, e, post, hes, hpre, hid, standsFor_iff.mpr hstands⟩

/-- A name stands for one position at most. -/
theorem NamesStep.unique {p q : Nat} (hp : s.NamesStep es id p) (hq : s.NamesStep es id q) :
    p = q := by
  obtain ⟨⟨e, hfind, -, hstep⟩, -⟩ := namesStep_iff.mp hp
  obtain ⟨⟨f, hfind', -, hstep'⟩, -⟩ := namesStep_iff.mp hq
  cases hfind.symm.trans hfind'
  exact Option.some.inj (hstep.symm.trans hstep')

/-- The path at a position that a name stands for. -/
theorem NamesStep.exists_split {position : Nat} (h : s.NamesStep es id position) :
    ∃ before x after, s.executions = before ++ x :: after ∧ position = before.length + 1 := by
  obtain ⟨-, hpos, hle⟩ := h
  have hlt : position - 1 < s.executions.length := by
    rw [length] at hle
    omega
  refine ⟨s.executions.take (position - 1), s.executions[position - 1],
    s.executions.drop (position - 1 + 1), ?_, ?_⟩
  · rw [List.getElem_cons_drop, List.take_append_drop]
  · rw [List.length_take_of_le (Nat.le_of_lt hlt), Nat.sub_add_cancel hpos]

/-- Between what comes before it and what comes behind it, an execution is taken out. -/
theorem removeAt?_append {before after : List Execution} {x : Execution}
    (h : s.executions = before ++ x :: after) (now : Instant) :
    s.removeAt? (before.length + 1) now = some (x, s.keeping (before ++ after) now) := by
  rw [removeAt?_eq_some, Nat.add_sub_cancel, h, List.getElem?_append_right (Nat.le_refl _),
    Nat.sub_self, List.eraseIdx_append_of_length_le (Nat.le_refl _), Nat.sub_self]
  exact ⟨Nat.le_add_left .., rfl, rfl⟩

theorem removeStep_of_unknown (h : ∀ e ∈ es, e.id ≠ id) (now : Instant) :
    s.removeStep id now es = (.error (.unknownEdge id), es, s) := by
  have hnone : es.find? (fun e => e.id = id) = none :=
    List.find?_eq_none.mpr fun e he => by simpa using h e he
  rw [removeStep, hnone]

theorem removeStep_of_namesStep {before after : List Execution} {x : Execution}
    (hsplit : s.executions = before ++ x :: after)
    (h : s.NamesStep es id (before.length + 1)) (now : Instant) :
    s.removeStep id now es = (.ok (some x),
      otherEdges s.id es ++ (s.keeping (before ++ after) now).edges,
      s.keeping (before ++ after) now) := by
  obtain ⟨⟨e, hfind, hown, hstep⟩, -⟩ := namesStep_iff.mp h
  rw [removeStep, hfind]
  simp only [hown, if_true, hstep, Option.bind_some, removeAt?_append hsplit]
  rfl

theorem removeStep_of_not_namesStep (hthere : ∃ e ∈ es, e.id = id)
    (h : ∀ position, ¬s.NamesStep es id position) (now : Instant) :
    s.removeStep id now es = (.ok none, es, s) := by
  rcases s.removeStep_cases id now es with ⟨hnone, -⟩ | heq |
    ⟨e, position, x, rest, hfind, hown, hstep, hat, -⟩
  · obtain ⟨e, he, hid⟩ := hthere
    exact absurd (decide_eq_true hid) (List.find?_eq_none.mp hnone e he)
  · exact heq
  · -- a step that can be taken out is one that the name stands for
    obtain ⟨hpos, hx, -⟩ := removeAt?_eq_some.mp hat
    have hlt : position - 1 < s.executions.length := (List.getElem?_eq_some_iff.mp hx).1
    refine absurd (namesStep_iff.mpr ⟨⟨e, hfind, hown, hstep⟩, hpos, ?_⟩) (h position)
    rw [length]
    omega

end RemoveStep

/-- Where a name stands for no position, all that is left to tell is whether an edge has it. -/
theorem CutBy.of_stays {id : EdgeId} {now : Instant} {es : List Edge} {s : Session}
    {outcome : Except Fault (Option Execution)} (hnames : ∀ position, ¬s.NamesStep es id position)
    (herror : ∀ fault, outcome = .error fault ↔
      fault = .unknownEdge id ∧ ∀ e ∈ es, e.id ≠ id)
    (hgives : ∀ x, outcome ≠ .ok (some x)) : CutBy id now es s (outcome, es, s) where
  error_iff := herror
  stays _ := rfl
  gives_iff x := ⟨fun h => absurd h (hgives x), fun h => absurd h.choose_spec.1 (hnames _)⟩
  leaves _ _ _ _ h := absurd h (hnames _)

/-- **All that taking out a step can do,** whatever the edges are: complain that there is no edge of
the name, leave everything as it is, or take out the one execution that the first edge of the name
stands for and draw the session's chain anew. -/
theorem cutBy_removeStep (id : EdgeId) (now : Instant) (es : List Edge) (s : Session) :
    CutBy id now es s (s.removeStep id now es) := by
  by_cases hunknown : ∀ e ∈ es, e.id ≠ id
  · have hnames : ∀ position, ¬s.NamesStep es id position := by
      rintro position ⟨⟨pre, e, post, rfl, -, hid, -⟩, -⟩
      exact hunknown e (by simp) hid
    rw [removeStep_of_unknown hunknown]
    refine .of_stays hnames (fun fault => ?_) (by rintro _ ⟨⟩)
    rw [and_iff_left hunknown, Except.error.injEq, eq_comm]
  · have hthere : ∃ e ∈ es, e.id = id := by simpa using hunknown
    by_cases hnames : ∃ position, s.NamesStep es id position
    · obtain ⟨position, h⟩ := hnames
      obtain ⟨before, x, after, hsplit, rfl⟩ := h.exists_split
      have hx : s.executions[before.length + 1 - 1]? = some x := by simp [hsplit]
      refine ⟨fun fault => ?_, fun hgiven => ?_, fun y => ?_,
        fun _ _ _ hsplit' h' => removeStep_of_namesStep hsplit' h' now⟩
      · rw [removeStep_of_namesStep hsplit h, iff_false_right fun h => hunknown h.2]
        rintro ⟨⟩
      · exact absurd (congrArg Prod.fst (removeStep_of_namesStep hsplit h now)) (hgiven x)
      · rw [removeStep_of_namesStep hsplit h]
        constructor
        · rintro ⟨⟩
          exact ⟨_, h, hx⟩
        · rintro ⟨position, h', hy⟩
          obtain rfl := h.unique h'
          rw [Option.some.inj (hx.symm.trans hy)]
    · rw [removeStep_of_not_namesStep hthere (not_exists.mp hnames)]
      refine .of_stays (not_exists.mp hnames) (fun fault => ?_) (by rintro _ ⟨⟩)
      rw [iff_false_right fun h => hunknown h.2]
      rintro ⟨⟩

/-! ## Nodes that are taken out -/

/-- What is left of a session and of its edges when a node is taken out. -/
structure Spared (node : NodeId) (now : Instant) (es : List Edge) (s : Session)
    (es' : List Edge) (s' : Session) : Prop where
  /-- the session keeps its name -/
  id : s'.id = s.id
  /-- the executions of other nodes stay in order -/
  executions : s'.executions = s.executions.filter fun e => e.node ≠ node
  /-- so do the edges that are no steps of the session -/
  others : otherEdges s.id es' = otherEdges s.id es
  /-- if the node ran, the steps of the session are its chain, and it has the state that the last
  execution left -/
  redrawn : node ∈ s.path → es' = otherEdges s.id es ++ s'.edges ∧ stepsIn s.id es' = s'.edges ∧
    s'.lastUpdate = now ∧ s'.overall = lastState s'.executions
  /-- if it did not, everything stays -/
  stays : node ∉ s.path → es' = es ∧ s' = s

/-- **Taking out a node mends the edges.** It is enough that no edge has the name of a step without
being that step; edges of the chain may be missing, or be there twice, in any order and between any
nodes. The executions of the node are counted and taken out, and if there are any, the session's
steps are its chain afterwards. -/
theorem removeNode_spared {s : Session} {es : List Edge}
    (h : ∀ e ∈ es, ∀ position, e.id = edgeId s.id position → e.StandsFor s.id position)
    (node : NodeId) (now : Instant) :
    ∃ es' s', s.removeNode node now es = (.ok (s.path.count node), es', s') ∧
      Spared node now es s es' s' := by
  have haddr : s.Addressed es := fun e he position hid =>
    standsFor_iff.mp (h e he position hid)
  obtain ⟨es', s', hrun, hid, hexec, hnone, hsome⟩ := removePositions_placesOf node now
    s.executions [] 0 es s (List.append_nil _).symm haddr
  rw [List.append_nil] at hexec
  have hcount : s.path.count node = s.executions.countP fun e => e.node = node := by
    rw [path, List.count_eq_countP, List.countP_map]
    rfl
  refine ⟨es', s', ?_, hid, hexec, ?_, fun hmem => ?_, hnone⟩
  · rw [removeNode, positionsOf, ← placesOf, hrun, Nat.zero_add, hcount]
  · by_cases hmem : node ∈ s.path
    · rw [(hsome hmem).1, ← hid, otherEdges_rebuildEdges]
    · rw [(hnone hmem).1]
  · obtain ⟨rfl, htime, hstate⟩ := hsome hmem
    rw [← hid]
    exact ⟨rfl, stepsIn_rebuildEdges s' es, htime, hstate⟩

/-- The edges of a session that ran `a`, `b`, `a`, out of step with it: the first is missing, there
is one too many, the order is lost, and the ends are wrong. -/
def scattered : List Edge :=
  [edge "s" 9 "x" "y", ⟨"a-b", "a", "b", .base, none⟩, edge "s" 3 "b" "b", edge "t" 1 startId "b",
    ⟨edgeId "s" 2, "a", "a", .execution "s", some " +02 "⟩]

/-- Taking out `a` leaves one step, and the other edges. -/
theorem removeNode_spared_scattered :
    (∀ e ∈ scattered, ∀ position, e.id = edgeId "s" position → e.StandsFor "s" position) ∧
    ∃ s', (Workspace.idleSession "s" ["a", "b", "a"]).removeNode "a" (Clock.now ⟨1⟩) scattered =
        (.ok 2, [⟨"a-b", "a", "b", .base, none⟩, edge "t" 1 startId "b", edge "s" 1 startId "b"],
          s') ∧
      s'.path = ["b"] := by
  have hstands : ∀ e ∈ scattered, ∀ position, e.id = edgeId "s" position →
      e.StandsFor "s" position := by
    intro e he position hid
    rw [standsFor_iff]
    simp only [scattered, List.mem_cons, List.not_mem_nil, or_false] at he
    rcases he with rfl | rfl | rfl | rfl | rfl
    · obtain ⟨-, rfl⟩ := edgeId_inj hid
      exact ⟨isExecutionOf_edge .., step?_edge ..⟩
    · exact absurd hid (ne_edgeId (by decide) _ _)
    · obtain ⟨-, rfl⟩ := edgeId_inj hid
      exact ⟨isExecutionOf_edge .., step?_edge ..⟩
    · exact absurd (edgeId_inj hid).1 (by decide)
    · obtain ⟨-, rfl⟩ := edgeId_inj hid
      exact ⟨by decide, by decide⟩
  obtain ⟨es', s', hrun, hspared⟩ := removeNode_spared
    (s := Workspace.idleSession "s" ["a", "b", "a"]) hstands "a" (Clock.now ⟨1⟩)
  have hpath : s'.path = ["b"] := by
    rw [path, hspared.executions]
    decide
  refine ⟨hstands, s', ?_, hpath⟩
  rw [hrun, (hspared.redrawn (by decide)).1, edges, hspared.id, hpath]
  rfl

end Session

end Runbook
