import Runbook.Book
import Runbook.Graph
import Runbook.Proofs.FieldOrder
import Runbook.Settings
import Runbook.Store.Archive
import Runbook.Tree

/-!
# Forms of records

What is written as a value is read again: graphs, sessions, books, trees and settings with all that
is in them. The reader may get the fields of objects in any order.

* `Node.reads`, `Edge.Kind.reads`, `Edge.reads`, `Graph.reads`: fields that are left out when they
  have no value, and kinds told apart by their words
* `Snapshot.reads`, `Execution.reads`, `Session.reads`, `Book.reads`: any values, and times
* `Tree.reads`: trees of any depth
* `forms_loseNothing`: no form loses anything
-/

namespace Runbook

open Document (Reads ReadsField)

/-! ## Nodes -/

-- In each proof here the fields of a record come up in the order in which the reader asks for
-- them: first the documents found for them, then what is made of each.

theorem Dependencies.reads (d : Dependencies) : Reads ofDocument? d.toJson d := by
  intro doc hdoc
  obtain ⟨_, hrecord, _ | ⟨hvars, _ | ⟨hfunctions, _ | ⟨hclasses, _ | ⟨hmodules, _ | _⟩⟩⟩⟩⟩ :=
    hdoc.record?_eq ["variables", "functions", "classes", "modules"]
      [some (.strings d.vars.names), some (.strings d.functions.names),
        some (.strings d.classes.names), some (.strings d.modules.names)] (by simp)
  rw [ofDocument?, hrecord]
  simp only [Option.bind_eq_bind, Option.bind_some,
    (Document.reads_nameSet d.vars).defaulted .empty _ hvars,
    (Document.reads_nameSet d.functions).defaulted .empty _ hfunctions,
    (Document.reads_nameSet d.classes).defaulted .empty _ hclasses,
    (Document.reads_nameSet d.modules).defaulted .empty _ hmodules]
  rfl

theorem Definitions.reads (d : Definitions) : Reads ofDocument? d.toJson d := by
  intro doc hdoc
  obtain ⟨_, hrecord, _ | ⟨hvars, _ | ⟨hfunctions, _ | ⟨hclasses, _ | _⟩⟩⟩⟩ :=
    hdoc.record?_eq ["variables", "functions", "classes"]
      [some (.strings d.vars.names), some (.strings d.functions.names),
        some (.strings d.classes.names)] (by simp)
  rw [ofDocument?, hrecord]
  simp only [Option.bind_eq_bind, Option.bind_some,
    (Document.reads_nameSet d.vars).defaulted .empty _ hvars,
    (Document.reads_nameSet d.functions).defaulted .empty _ hfunctions,
    (Document.reads_nameSet d.classes).defaulted .empty _ hclasses]
  rfl

theorem SessionRef.reads (r : SessionRef) : Reads ofDocument? r.toJson r := by
  intro doc hdoc
  obtain ⟨_, hrecord, _ | ⟨hfile, _ | ⟨hsession, _ | _⟩⟩⟩ :=
    hdoc.record?_eq ["file", "session"] [some (.str r.file), some (.str r.session)] (by simp)
  rw [ofDocument?, hrecord]
  simp only [Option.bind_eq_bind, Option.bind_some, (Document.reads_str _).required _ hfile,
    (Document.reads_str _).required _ hsession]
  rfl

theorem Node.Kind.reads (k : Kind) : Reads ofDocument? k.toJson k :=
  Document.reads_word (ofWord?_word k)

/-- The text that a record has or leaves out. -/
theorem Document.readsField_text (o : Option String) :
    ReadsField (defaulted? none (option? str?)) (o.map Json.str) o :=
  readsField_whenSome reads_str (fun _ => nofun) o

theorem Node.reads (n : Node) : Reads ofDocument? n.toJson n := by
  intro doc hdoc
  obtain ⟨_, hrecord, _ | ⟨hid, _ | ⟨hkind, _ | ⟨hlabel, _ | ⟨hcode, _ | ⟨hscope,
    _ | ⟨hdependencies, _ | ⟨hdefinitions, _ | ⟨hgraph, _ | _⟩⟩⟩⟩⟩⟩⟩⟩⟩ :=
    hdoc.record?_eq
      ["id", "kind", "label", "code", "scope", "dependencies", "definitions", "graph"]
      [some (.str n.id), some n.kind.toJson, some (.str n.label), n.code.map .str,
        n.scope.map .str, some n.dependencies.toJson, some n.definitions.toJson,
        n.graph.map SessionRef.toJson] (by simp)
  rw [ofDocument?, hrecord]
  simp only [Option.bind_eq_bind, Option.bind_some, (Document.reads_str _).required _ hid,
    (Node.Kind.reads _).required _ hkind, (Document.reads_str _).defaulted "" _ hlabel,
    Document.readsField_text _ _ hcode, Document.readsField_text _ _ hscope,
    (Dependencies.reads _).defaulted default _ hdependencies,
    (Definitions.reads _).defaulted default _ hdefinitions,
    Document.readsField_whenSome SessionRef.reads (fun _ => nofun) _ _ hgraph]
  rfl

/-! ## Edges and graphs -/

theorem Edge.Kind.reads (k : Kind) : Reads ofDocument? k.toJson k := by
  intro doc hdoc
  obtain ⟨v, hvalue, -⟩ := Document.value?_of_saidBy hdoc
  obtain ⟨docs, rfl⟩ := hdoc.exists_fields
  obtain ⟨_, htype, ⟨hword⟩⟩ := hdoc.field?_eq "type" (some (.str k.word)) (by simp)
  obtain ⟨_, hsession, hname⟩ := hdoc.field?_eq "session" (k.session?.map .str) (by simp)
  rw [ofDocument?, hvalue, htype]
  simp only [Option.bind_eq_bind, Option.bind_some, (Document.reads_str _).required _ (.some hword)]
  cases k with
  | execution session =>
    rw [if_pos (show (execution session).word = "execution" from rfl), hsession]
    simp only [Option.bind_some, (Document.reads_str session).required _ hname]
    rfl
  | _ => rfl

/-- The word for a kind need not come first. -/
example : Edge.Kind.ofDocument? (.obj [("session", .str "s"), ("type", .str "execution")]) =
    some (.execution "s") := by decide +kernel

theorem Edge.reads (e : Edge) : Reads ofDocument? e.toJson e := by
  intro doc hdoc
  obtain ⟨_, hrecord, _ | ⟨hid, _ | ⟨hsource, _ | ⟨htarget, _ | ⟨hkind, _ | ⟨hlabel, _ | _⟩⟩⟩⟩⟩⟩ :=
    hdoc.record?_eq ["id", "source", "target", "kind", "label"]
      [some (.str e.id), some (.str e.source), some (.str e.target), some e.kind.toJson,
        e.label.map .str] (by simp)
  rw [ofDocument?, hrecord]
  simp only [Option.bind_eq_bind, Option.bind_some, (Document.reads_str _).required _ hid,
    (Document.reads_str _).required _ hsource, (Document.reads_str _).required _ htarget,
    (Edge.Kind.reads _).required _ hkind, Document.readsField_text _ _ hlabel]
  rfl

theorem Graph.reads_notes (t : Table String) : Reads notes?
    (.obj (t.entries.map fun (key, note) => (key, .str note))) t := by
  rintro _ ⟨docs, inOrder, rfl, hperm, hdocs⟩
  have hentries : inOrder.mapM (fun f => (Document.str? f.2).map (f.1, ·)) = some t.entries := by
    have hsaid := List.forall₂_map_right_iff.mp (Json.fieldsSaidBy_iff.mp hdocs).flip
    refine mapM_eq_some_iff.mpr (hsaid.imp ?_)
    rintro ⟨_, _⟩ ⟨key, note⟩ ⟨rfl, rfl⟩
    rfl
  obtain ⟨mixed, hmixed, hmixedPerm⟩ := mapM_of_perm hperm hentries
  rw [notes?, hmixed, Option.map_some, t.ofList_of_perm hmixedPerm]

theorem Graph.reads (g : Graph) : Reads ofDocument? g.toJson g := by
  intro doc hdoc
  obtain ⟨_, hrecord, _ | ⟨hnodes, _ | ⟨hedges, _ | ⟨hmetadata, _ | _⟩⟩⟩⟩ :=
    hdoc.record?_eq ["nodes", "edges", "metadata"]
      [some (.arr (g.nodes.map Node.toJson)), some (.arr (g.edges.map Edge.toJson)),
        some (.obj (g.metadata.entries.map fun (key, note) => (key, .str note)))] (by simp)
  rw [ofDocument?, hrecord]
  simp only [Option.bind_eq_bind, Option.bind_some,
    (Document.reads_list Node.reads _).required _ hnodes,
    (Document.reads_list Edge.reads _).required _ hedges,
    (Graph.reads_notes _).defaulted .empty _ hmetadata]
  rfl

/-! ## Sessions and books -/

theorem Duration.reads (d : Duration) : Reads ofDocument? d.toJson d := by
  intro doc hdoc
  obtain ⟨_, hrecord, _ | ⟨hsecs, _ | ⟨hnanos, _ | _⟩⟩⟩ := hdoc.exactRecord?_eq ["secs", "nanos"]
    [some (.nat d.secs), some (.nat d.nanos)] (by simp) (by simp)
  have hbound : d.nanos < UInt32.size := Nat.lt_trans d.nanos_lt (by decide)
  rw [ofDocument?, hrecord]
  simp only [Option.bind_eq_bind, Option.bind_some,
    (Document.reads_below d.secs_lt).required _ hsecs,
    (Document.reads_below hbound).required _ hnanos, ofParts?_self]

theorem Instant.reads (t : Instant) : Reads ofDocument? t.toJson t := by
  intro doc hdoc
  obtain ⟨_, hrecord, _ | ⟨hsecs, _ | ⟨hnanos, _ | _⟩⟩⟩ :=
    hdoc.exactRecord?_eq ["secs_since_epoch", "nanos_since_epoch"]
      [some (.nat t.secs), some (.nat t.nanos)] (by simp) (by simp)
  have hsecsBound : t.secs < UInt64.size := Nat.lt_trans t.secs_lt (by decide)
  have hnanosBound : t.nanos < UInt32.size := Nat.lt_trans t.nanos_lt (by decide)
  rw [ofDocument?, hrecord]
  simp only [Option.bind_eq_bind, Option.bind_some,
    (Document.reads_below hsecsBound).required _ hsecs,
    (Document.reads_below hnanosBound).required _ hnanos, ofParts?_self]

theorem Snapshot.reads (s : Snapshot) : Reads ofDocument? s.toJson s := by
  intro doc hdoc
  obtain ⟨v, hvalue, hcanonical⟩ := Document.value?_of_saidBy hdoc
  obtain rfl := hcanonical s.canonical
  rw [ofDocument?]
  split
  · next fields hfields =>
    obtain rfl := Json.obj.inj (Option.some.inj (hvalue.symm.trans hfields))
    rfl
  · next hnot => exact absurd hvalue (hnot _)

theorem Execution.reads (e : Execution) : Reads ofDocument? e.toJson e := by
  intro doc hdoc
  obtain ⟨_, hrecord, _ | ⟨hnode, _ | ⟨hstdout, _ | ⟨hstderr, _ | ⟨hstate, _ | ⟨htime,
    _ | _⟩⟩⟩⟩⟩⟩ :=
    hdoc.record?_eq ["node_id", "stdout", "stderr", "state", "execution_time"]
      [some (.str e.node), some (.str e.stdout), some (.str e.stderr), some e.state.toJson,
        some e.time.toJson] (by simp)
  rw [ofDocument?, hrecord]
  simp only [Option.bind_eq_bind, Option.bind_some, (Document.reads_str _).required _ hnode,
    (Document.reads_str _).defaulted "" _ hstdout, (Document.reads_str _).defaulted "" _ hstderr,
    (Snapshot.reads _).defaulted .empty _ hstate, (Duration.reads _).defaulted .zero _ htime]
  rfl

theorem Session.reads (s : Session) : Reads ofDocument? s.toJson s := by
  intro doc hdoc
  obtain ⟨_, hrecord, _ | ⟨hid, _ | ⟨hexecutions, _ | ⟨hlastUpdate, _ | ⟨hoverall, _ | _⟩⟩⟩⟩⟩ :=
    hdoc.record?_eq ["id", "executions", "last_update", "overall_configuration"]
      [some (.str s.id), some (.arr (s.executions.map Execution.toJson)),
        some s.lastUpdate.toJson, some s.overall.toJson] (by simp)
  rw [ofDocument?, hrecord]
  simp only [Option.bind_eq_bind, Option.bind_some, (Document.reads_str _).required _ hid,
    (Document.reads_list Execution.reads _).defaulted [] _ hexecutions,
    (Instant.reads _).required _ hlastUpdate, (Snapshot.reads _).defaulted .empty _ hoverall]
  rfl

theorem Document.reads_optionStr (o : Option String) :
    Reads (option? str?) (Json.optionStr o) o := by
  cases o with
  | none =>
    rintro _ rfl
    rfl
  | some s => exact (reads_str s).option nofun

theorem Book.reads (b : Book) : Reads ofDocument? b.toJson b := by
  intro doc hdoc
  obtain ⟨_, hrecord, _ | ⟨hsessions, _ | ⟨hprimary, _ | _⟩⟩⟩ :=
    hdoc.record?_eq ["sessions", "primary"]
      [some (.arr (b.sessions.map Session.toJson)), some (.optionStr b.primary)] (by simp)
  rw [ofDocument?, hrecord]
  simp only [Option.bind_eq_bind, Option.bind_some,
    (Document.reads_list Session.reads _).required _ hsessions,
    (Document.reads_optionStr _).defaulted none _ hprimary]
  rfl

/-! ## Stored records -/

theorem SessionRecord.reads {r : SessionRecord} (h : r.version < UInt32.size) :
    Reads ofDocument? r.toJson r := by
  intro doc hdoc
  obtain ⟨_, hrecord, _ | ⟨hversion, _ | ⟨hsavedAt, _ | ⟨hlastUpdate, _ | ⟨hexecutions,
    _ | _⟩⟩⟩⟩⟩ :=
    hdoc.record?_eq ["version", "saved_at", "last_update", "executions"]
      [some (.nat r.version), some r.savedAt.toJson, some r.lastUpdate.toJson,
        some (.arr (r.executions.map Execution.toJson))] (by simp)
  rw [ofDocument?, hrecord]
  simp only [Option.bind_eq_bind, Option.bind_some, (Document.reads_below h).required _ hversion,
    (Instant.reads _).required _ hsavedAt, (Instant.reads _).required _ hlastUpdate,
    (Document.reads_list Execution.reads _).defaulted [] _ hexecutions]
  rfl

theorem BookRecord.reads (r : BookRecord) : Reads ofDocument? r.toJson r := by
  intro doc hdoc
  obtain ⟨_, hrecord, _ | ⟨hcurrent, _ | ⟨hsessions, _ | _⟩⟩⟩ :=
    hdoc.record?_eq ["current", "sessions"] [r.current.map .str, some (.strings r.sessions)]
      (by simp)
  rw [ofDocument?, hrecord]
  simp only [Option.bind_eq_bind, Option.bind_some, Document.readsField_text _ _ hcurrent,
    (Document.reads_list Document.reads_str _).defaulted [] _ hsessions]
  rfl

/-! ## Trees -/

namespace Tree

theorem childrenOf?_of_ne {f : String × Document} (h : f.1 ≠ "children") :
    childrenOf? f = some none := by
  obtain ⟨key, doc⟩ := f
  cases doc <;> exact if_neg h

theorem childrenField?_of_missing {fields : List (String × Document)}
    (h : fields.filter (fun f => f.1 = "children") = []) : childrenField? fields = some none := by
  induction fields with
  | nil => rfl
  | cons f rest ih =>
    have hf : f.1 ≠ "children" := by
      simpa using List.filter_eq_nil_iff.mp h f (List.mem_cons_self ..)
    rw [List.filter_cons_of_neg (by simpa using hf)] at h
    rw [childrenField?, childrenOf?_of_ne hf, ih h]
    rfl

theorem childrenField?_eq {fields : List (String × Document)} {items : List Document}
    (h : fields.filter (fun f => f.1 = "children") = [("children", .arr items)]) :
    childrenField? fields = (ofDocuments? items).map some := by
  induction fields with
  | nil => cases h
  | cons f rest ih =>
    by_cases hf : f.1 = "children"
    · rw [List.filter_cons_of_pos (by simpa using hf)] at h
      obtain ⟨rfl, hrest⟩ := List.cons.inj h
      rw [childrenField?, childrenField?_of_missing hrest, childrenOf?, if_pos rfl]
      cases ofDocuments? items <;> rfl
    · rw [List.filter_cons_of_neg (by simpa using hf)] at h
      rw [childrenField?, childrenOf?_of_ne hf, ih h]
      cases ofDocuments? items <;> rfl

mutual

theorem reads : ∀ t : Tree, Reads ofDocument? t.toJson t
  | ⟨id, node, label, children⟩ => by
    intro doc hdoc
    obtain ⟨docs, rfl⟩ := hdoc.exists_fields
    obtain ⟨_, hid, hidSaid⟩ := hdoc.field?_eq "id" (some (.str id)) (by simp)
    obtain ⟨_, hnode, hnodeSaid⟩ := hdoc.field?_eq "original_id" (some (.str node)) (by simp)
    obtain ⟨_, hlabel, hlabelSaid⟩ := hdoc.field?_eq "label" (some (.str label)) (by simp)
    obtain ⟨_, hchildren, ⟨items, rfl, hitems⟩⟩ :=
      hdoc.field?_eq "children" (some (.arr (toJsons children))) (by simp)
    have hbelow : childrenField? docs = some (some children) := by
      rw [childrenField?_eq (Document.filter_of_field? hchildren), reads_all children hitems,
        Option.map_some]
    rw [ofDocument?, hid, hnode, hlabel, hbelow]
    simp only [Option.bind_eq_bind, Option.bind_some,
      (Document.reads_str _).required _ hidSaid, (Document.reads_str _).required _ hnodeSaid,
      (Document.reads_str _).required _ hlabelSaid]
    rfl

theorem reads_all : ∀ (ts : List Tree) {docs : List Document},
    Json.AllSaidBy (toJsons ts) docs → ofDocuments? docs = some ts
  | [], _, rfl => rfl
  | t :: rest, _, ⟨doc, more, rfl, hdoc, hmore⟩ => by
    rw [ofDocuments?, reads t doc hdoc, reads_all rest hmore]
    rfl

end

theorem reads_whole (t : Tree) : Reads ofWholeDocument? t.wholeToJson t := by
  intro doc hdoc
  obtain ⟨_, hrecord, _ | ⟨hroot, _ | _⟩⟩ :=
    hdoc.record?_eq ["root"] [some t.toJson] (by simp)
  rw [ofWholeDocument?, hrecord]
  exact (reads t).required _ hroot

end Tree

/-! ## Settings -/

theorem Settings.reads (s : Settings) : Reads ofDocument? s.toJson s := by
  intro doc hdoc
  obtain ⟨_, hrecord, _ | ⟨hdir, _ | ⟨hpersist, _ | ⟨hreplay, _ | _⟩⟩⟩⟩ :=
    hdoc.record?_eq ["sessions_dir", "persist", "replay_on_removal"]
      [some (.str s.sessionsDir), some (.bool s.persist), some (.bool s.replayOnRemoval)] (by simp)
  rw [ofDocument?, hrecord]
  simp only [Option.bind_eq_bind, Option.bind_some, (Document.reads_str _).defaulted _ _ hdir,
    (Document.reads_bool _).defaulted _ _ hpersist, (Document.reads_bool _).defaulted _ _ hreplay]
  rfl

/-! ## All forms -/

/-- A form loses nothing: what is written is read again. -/
structure LosesNothing {α : Type} (write : α → Json) (read : Document → Option α) : Prop where
  /-- from the fields as they are written -/
  printed : ∀ a, read (write a).document = some a
  /-- and from the same fields in any order, as notes come in none of their own -/
  anyOrder : ∀ a d, (write a).SaidBy d → read d = some a

theorem LosesNothing.of_reads {α : Type} {write : α → Json} {read : Document → Option α}
    (h : ∀ a, Reads read (write a) a) : LosesNothing write read :=
  ⟨fun a => h a _ (write a).saidBy_document, h⟩

/-- **No form loses anything.** Graphs, sessions, books, trees and settings are read again from
what is written of them. -/
theorem forms_loseNothing :
    LosesNothing Graph.toJson Graph.ofDocument? ∧
    LosesNothing Session.toJson Session.ofDocument? ∧
    LosesNothing Book.toJson Book.ofDocument? ∧
    LosesNothing Tree.wholeToJson Tree.ofWholeDocument? ∧
    LosesNothing Settings.toJson Settings.ofDocument? :=
  ⟨.of_reads Graph.reads, .of_reads Session.reads, .of_reads Book.reads,
    .of_reads Tree.reads_whole, .of_reads Settings.reads⟩

end Runbook
