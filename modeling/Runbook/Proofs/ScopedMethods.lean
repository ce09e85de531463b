import Runbook.Proofs.DerivedEdges
import Runbook.Proofs.FieldOrder

/-!
# Methods within classes

A method that belongs to a class has its functions named within the class, the class first and a dot
between. The bare names are read off what stands between the first dot and the next. That gives the
names of the functions back if the name of the class has no dot. The name of a class within another
has one, and then all that is found is the name of the inner class, once for all functions.

* `methodName?_within`: what is read off a function named within a class
* `NameSet.mem_map`: the names of a set of images
* `Node.KeepsNames`: the bare names are those of the functions in the analysis
* `Node.mem_functions_applyAnalysis`, `Node.mem_qualifiedMethods_applyAnalysis`: what is defined and
  what is found
* `Node.keepsNames_iff`: when the bare names are kept, and what else holds of an analysis
-/

namespace Runbook

/-! ## Sets of images -/

theorem Fields.mem_keys_put {α : Type} {key name : String} {value : α}
    {fields : List (String × α)} :
    name ∈ (put key value fields).map Prod.fst ↔ name = key ∨ name ∈ fields.map Prod.fst := by
  induction fields with
  | nil => simp [put]
  | cons f rest ih =>
    obtain ⟨k, v⟩ := f
    rw [put]
    split
    · simp
    · split
      · rename_i heq
        simp [heq]
      · rw [List.map_cons, List.map_cons, List.mem_cons, ih, List.mem_cons]
        exact or_left_comm

theorem Fields.mem_keys_sorted {α : Type} {name : String} (fields : List (String × α)) :
    name ∈ (sorted fields).map Prod.fst ↔ name ∈ fields.map Prod.fst := by
  suffices H : ∀ acc : List (String × α),
      name ∈ (fields.foldl (fun acc f => put f.1 f.2 acc) acc).map Prod.fst ↔
        name ∈ fields.map Prod.fst ∨ name ∈ acc.map Prod.fst from
    (H []).trans (or_iff_left List.not_mem_nil)
  induction fields with
  | nil => exact fun acc => (or_iff_right List.not_mem_nil).symm
  | cons f rest ih =>
    intro acc
    rw [List.foldl_cons, ih, mem_keys_put, List.map_cons, List.mem_cons, ← or_assoc,
      or_comm (a := name ∈ rest.map Prod.fst)]

namespace NameSet

variable {s : NameSet} {name : String} {f : String → String}

theorem mem_ofList {names : List String} : name ∈ (ofList names).names ↔ name ∈ names := by
  show name ∈ (Fields.sorted _).map Prod.fst ↔ _
  rw [Fields.mem_keys_sorted, List.map_map]
  show name ∈ names.map id ↔ _
  rw [List.map_id]

theorem mem_map : name ∈ (s.map f).names ↔ ∃ bare ∈ s.names, f bare = name := by
  rw [map, mem_ofList, List.mem_map]

theorem nodup (s : NameSet) : s.names.Nodup := s.increasing.imp String.ne_of_lt

/-- A set whose names all stand for themselves is its own image. -/
theorem map_eq_self (h : ∀ name ∈ s.names, f name = name) : s.map f = s := by
  have hnames : s.names.map f = s.names.map id := List.map_congr_left h
  rw [map, hnames, List.map_id, ofList_names]

end NameSet

/-! ## Names within classes -/

section Names

variable {className name : String}

theorem methodName?_eq_none_iff : methodName? name = none ↔ '.' ∉ name.toList := by
  rw [methodName?, Option.map_eq_none_iff]
  constructor
  · intro h hmem
    obtain ⟨front, rest, hname, hfront⟩ := List.eq_append_cons_of_mem hmem
    cases h.symm.trans (Text.breakAt_eq_some.mpr ⟨hfront, hname⟩)
  · intro h
    refine Option.eq_none_iff_forall_ne_some.mpr ?_
    rintro ⟨front, rest⟩ hbreak
    apply h
    rw [(Text.breakAt_eq_some.mp hbreak).2]
    exact List.mem_append_right _ (List.mem_cons_self ..)

/-- What is read off a function named within a class: its own name, or if the name of the class has
dots of its own, the same as is read off that. -/
theorem methodName?_within (hbare : '.' ∉ name.toList) :
    methodName? (className ++ "." ++ name) = (methodName? className).or (some name) := by
  cases hclass : methodName? className with
  | none =>
    rw [Option.none_or]
    exact methodName?_eq_some.mpr
      ⟨hbare, className, methodName?_eq_none_iff.mp hclass, .inl rfl⟩
  | some part =>
    rw [Option.some_or]
    obtain ⟨hpart, outer, houter, rfl | ⟨more, rfl⟩⟩ := methodName?_eq_some.mp hclass
    · exact methodName?_eq_some.mpr ⟨hpart, outer, houter, .inr ⟨name, rfl⟩⟩
    · refine methodName?_eq_some.mpr ⟨hpart, outer, houter, .inr ⟨more ++ "." ++ name, ?_⟩⟩
      simp only [String.append_assoc]

theorem qualify_of_bare (h : '.' ∉ name.toList) :
    qualify className name = className ++ "." ++ name := by
  rw [qualify, if_neg (by simpa using h)]

/-- A function that is named within a class keeps its name. -/
theorem qualify_within :
    qualify className (className ++ "." ++ name) = className ++ "." ++ name := by
  rw [qualify, if_pos]
  simp

end Names

/-! ## Analysis -/

namespace Node

variable {n : Node} {a : Analysis} {className : String}

/-- What is known about the code of a node. -/
def analysis (n : Node) : Analysis := ⟨n.dependencies, n.definitions⟩

/-- The bare names of methods that a node defines with an analysis are those of the functions in
it. -/
def KeepsNames (n : Node) (a : Analysis) : Prop :=
  ∀ name, name ∈ (n.applyAnalysis a).definitions.qualifiedMethods ↔
    name ∈ a.definitions.functions.names

theorem methodScope?_applyAnalysis : (n.applyAnalysis a).methodScope? = n.methodScope? := rfl

section Scoped

variable (hkind : n.kind = .method) (hscope : n.scope = some className)

include hkind hscope

theorem methodScope?_of_method : n.methodScope? = some className := by
  rw [methodScope?, if_pos hkind, hscope]

theorem functions_applyAnalysis : (n.applyAnalysis a).definitions.functions =
    a.definitions.functions.map (qualify className) := by
  rw [applyAnalysis, methodScope?_of_method hkind hscope]

variable (hbare : ∀ f ∈ a.definitions.functions.names, '.' ∉ f.toList)

include hbare

/-- The functions are defined within the class. -/
theorem mem_functions_applyAnalysis {f : String} :
    f ∈ (n.applyAnalysis a).definitions.functions.names ↔
      ∃ bare ∈ a.definitions.functions.names, f = className ++ "." ++ bare := by
  rw [functions_applyAnalysis hkind hscope, NameSet.mem_map]
  refine exists_congr fun bare => and_congr_right fun hmem => ?_
  rw [qualify_of_bare (hbare bare hmem)]
  exact eq_comm

/-- What is found for each of them. -/
theorem mem_qualifiedMethods_applyAnalysis {name : String} :
    name ∈ (n.applyAnalysis a).definitions.qualifiedMethods ↔
      ∃ bare ∈ a.definitions.functions.names, (methodName? className).getD bare = name := by
  rw [Definitions.qualifiedMethods, List.mem_filterMap]
  constructor
  · rintro ⟨f, hf, hname⟩
    obtain ⟨bare, hmem, rfl⟩ := (mem_functions_applyAnalysis hkind hscope hbare).mp hf
    rw [methodName?_within (hbare bare hmem), Option.or_some] at hname
    exact ⟨bare, hmem, Option.some.inj hname⟩
  · rintro ⟨bare, hmem, rfl⟩
    refine ⟨_, (mem_functions_applyAnalysis hkind hscope hbare).mpr ⟨bare, hmem, rfl⟩, ?_⟩
    rw [methodName?_within (hbare bare hmem), Option.or_some]

/-- What is known about a method after an analysis is nothing new to it. -/
theorem applyAnalysis_analysis :
    (n.applyAnalysis a).applyAnalysis (n.applyAnalysis a).analysis = n.applyAnalysis a := by
  have hself : (n.applyAnalysis a).definitions.functions.map (qualify className) =
      (n.applyAnalysis a).definitions.functions := by
    refine NameSet.map_eq_self fun f hf => ?_
    obtain ⟨bare, -, rfl⟩ := (mem_functions_applyAnalysis hkind hscope hbare).mp hf
    exact qualify_within
  have hmethod : (n.applyAnalysis a).methodScope? = some className := by
    rw [methodScope?_applyAnalysis, methodScope?_of_method hkind hscope]
  rw [applyAnalysis, hmethod]
  show { n.applyAnalysis a with
    definitions := { (n.applyAnalysis a).definitions with
      functions := (n.applyAnalysis a).definitions.functions.map (qualify className) } } = _
  rw [hself]

/-- All functions of a class whose own name has a dot are found by the same name. -/
theorem mem_qualifiedMethods_of_isMethodName {part name : String}
    (hpart : IsMethodName className part) :
    name ∈ (n.applyAnalysis a).definitions.qualifiedMethods ↔
      name = part ∧ a.definitions.functions.names ≠ [] := by
  rw [mem_qualifiedMethods_applyAnalysis hkind hscope hbare, methodName?_eq_some.mpr hpart]
  constructor
  · rintro ⟨bare, hmem, rfl⟩
    exact ⟨rfl, List.ne_nil_of_mem hmem⟩
  · rintro ⟨rfl, hne⟩
    obtain ⟨bare, hmem⟩ := List.exists_mem_of_ne_nil _ hne
    exact ⟨bare, hmem, rfl⟩

/-- The names are kept in a class whose own name has no dot. -/
theorem keepsNames_of_not_mem (hdot : '.' ∉ className.toList) : n.KeepsNames a := by
  intro name
  rw [mem_qualifiedMethods_applyAnalysis hkind hscope hbare, methodName?_eq_none_iff.mpr hdot]
  exact exists_eq_right

theorem keepsNames_of_isMethodName {part : String} (hpart : IsMethodName className part) :
    n.KeepsNames a ↔
      a.definitions.functions.names = [] ∨ a.definitions.functions.names = [part] := by
  have hnodup : a.definitions.functions.names.Nodup :=
    a.definitions.functions.nodup
  simp only [KeepsNames, mem_qualifiedMethods_of_isMethodName hkind hscope hbare hpart]
  constructor
  · intro h
    refine or_iff_not_imp_left.mpr fun hne => ?_
    -- all that is defined is the one name that is found, and nothing is defined twice
    exact List.perm_singleton.mp ((List.perm_ext_iff_of_nodup hnodup (List.nodup_singleton _)).mpr
      fun name => (h name).symm.trans ((and_iff_left hne).trans List.mem_singleton.symm))
  · rintro (h | h) name
    · simp [h]
    · simp [h]

/-- **What an analysis of a method does.** The bare names of the methods are those of the functions
in the analysis if the name of the class has no dot, and else only in two cases: there are no
functions, or there is one and its name is the second part of the name of the class. That part is
all that is found for such a class. Whatever the name of the class, the functions are defined within
it, all else is taken over, and an analysis that says what is known already changes nothing. -/
theorem keepsNames_iff :
    (n.KeepsNames a ↔ '.' ∉ className.toList ∨ a.definitions.functions.names = [] ∨
      ∃ part, IsMethodName className part ∧ a.definitions.functions.names = [part]) ∧
    (∀ part, IsMethodName className part → ∀ name,
      name ∈ (n.applyAnalysis a).definitions.qualifiedMethods ↔
        name = part ∧ a.definitions.functions.names ≠ []) ∧
    (∀ f, f ∈ (n.applyAnalysis a).definitions.functions.names ↔
      ∃ bare ∈ a.definitions.functions.names, f = className ++ "." ++ bare) ∧
    (n.applyAnalysis a).dependencies = a.dependencies ∧
    (n.applyAnalysis a).definitions.vars = a.definitions.vars ∧
    (n.applyAnalysis a).definitions.classes = a.definitions.classes ∧
    (n.applyAnalysis a).applyAnalysis (n.applyAnalysis a).analysis = n.applyAnalysis a := by
  refine ⟨?_, fun part hpart name =>
    mem_qualifiedMethods_of_isMethodName hkind hscope hbare hpart,
    fun f => mem_functions_applyAnalysis hkind hscope hbare, rfl, rfl, rfl,
    applyAnalysis_analysis hkind hscope hbare⟩
  cases hclass : methodName? className with
  | none =>
    have hdot := methodName?_eq_none_iff.mp hclass
    exact iff_of_true (keepsNames_of_not_mem hkind hscope hbare hdot) (.inl hdot)
  | some found =>
    have hfound := methodName?_eq_some.mp hclass
    have hdot : ¬ '.' ∉ className.toList := fun h => by
      rw [methodName?_eq_none_iff.mpr h] at hclass
      cases hclass
    have honly : ∀ part, IsMethodName className part ↔ part = found := fun part => by
      rw [← methodName?_eq_some, hclass, Option.some.injEq, eq_comm]
    rw [keepsNames_of_isMethodName hkind hscope hbare hfound, or_iff_right hdot]
    simp only [honly, exists_eq_left]

end Scoped

/-- A method `run` of a class within another. -/
def nestedMethod : Node := { Node.new "m1" .method with scope := some "Outer.Inner" }

/-- The analysis of a method `run`. -/
def runAnalysis : Analysis where
  dependencies := default
  definitions := { (default : Definitions) with functions := .ofList ["run"] }

theorem mem_functions_runAnalysis {f : String} :
    f ∈ runAnalysis.definitions.functions.names ↔ f = "run" :=
  NameSet.mem_ofList.trans List.mem_singleton

theorem isBare_runAnalysis : ∀ f ∈ runAnalysis.definitions.functions.names, '.' ∉ f.toList := by
  intro f hf
  obtain rfl := mem_functions_runAnalysis.mp hf
  decide +kernel

/-- The method `run` of `Inner` within `Outer` is found by the name of `Inner`. -/
theorem keepsNames_iff_nestedMethod :
    nestedMethod.kind = .method ∧ nestedMethod.scope = some "Outer.Inner" ∧
      (∀ f ∈ runAnalysis.definitions.functions.names, '.' ∉ f.toList) ∧
      ∀ name, name ∈ (nestedMethod.applyAnalysis runAnalysis).definitions.qualifiedMethods ↔
        name = "Inner" := by
  have hpart : IsMethodName "Outer.Inner" "Inner" := methodName?_eq_some.mp (by decide +kernel)
  have hne : runAnalysis.definitions.functions.names ≠ [] :=
    List.ne_nil_of_mem (mem_functions_runAnalysis.mpr rfl)
  obtain ⟨-, hfound, -⟩ := keepsNames_iff (n := nestedMethod) (a := runAnalysis) rfl rfl
    isBare_runAnalysis
  exact ⟨rfl, rfl, isBare_runAnalysis, fun name =>
    (hfound "Inner" hpart name).trans (and_iff_left hne)⟩

/-- Not all methods keep the names of their functions. -/
theorem not_always_keepsNames : ¬∀ (n : Node) (a : Analysis) (className : String),
    n.kind = .method → n.scope = some className →
      (∀ f ∈ a.definitions.functions.names, '.' ∉ f.toList) → n.KeepsNames a := by
  intro h
  have hpart : IsMethodName "Outer.Inner" "Inner" := methodName?_eq_some.mp (by decide +kernel)
  have hrun := (h nestedMethod runAnalysis "Outer.Inner" rfl rfl isBare_runAnalysis "run").mpr
    (mem_functions_runAnalysis.mpr rfl)
  have hname := ((mem_qualifiedMethods_of_isMethodName rfl rfl isBare_runAnalysis hpart).mp hrun).1
  exact absurd hname (by decide)

end Node

end Runbook
