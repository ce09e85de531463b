import Runbook.Relations
import Runbook.Session.Path

/-!
# The names and labels of execution edges

The name of an execution edge says whose step it is and which one, and its label says which one
once more. Both can be read back:

* `Text.natural?_toString`, `Text.trim_toString`: a number is read from its digits
* `Session.edgeId_inj`: the name of an edge determines the session and the position, whatever
  colons and digits the session's own name has
* `Session.step?_edge`: the label of an edge is its position
* `Relations.id_ne_edgeId`: no derived edge bears the name of an execution edge
-/

namespace Runbook

/-! ## Numbers in digits -/

namespace Text

theorem toList_toString (n : Nat) : (toString n).toList = Nat.toDigits 10 n := by
  rw [Nat.toString_eq_repr, Nat.toList_repr]

theorem isDigit_of_mem_toString {n : Nat} {c : Char} (h : c ∈ (toString n).toList) :
    c.isDigit = true := by
  rw [toList_toString] at h
  exact Nat.isDigit_of_mem_toDigits (by decide) (by decide) h

theorem toString_ne_nil (n : Nat) : (toString n).toList ≠ [] := by
  rw [toList_toString]
  exact Nat.toDigits_ne_nil

theorem digitsValue_toString (n : Nat) : digitsValue (toString n).toList = n := by
  rw [toList_toString, digitsValue, ← Nat.ofDigitChars_eq_foldl, Nat.ofDigitChars_ten_toDigits]

theorem digits?_toString (n : Nat) : digits? (toString n).toList = some n := by
  have hempty : (toString n).toList.isEmpty = false := by
    rw [List.isEmpty_eq_false_iff]
    exact toString_ne_nil n
  have hall : (toString n).toList.all Char.isDigit = true :=
    List.all_eq_true.mpr fun c hc => isDigit_of_mem_toString hc
  rw [digits?, hempty, hall, digitsValue_toString]
  rfl

/-- The digits of a number stand for that number. -/
theorem natural?_toString (n : Nat) : natural? (toString n).toList = some n := by
  rcases h : (toString n).toList with _ | ⟨c, cs⟩
  · exact absurd h (toString_ne_nil n)
  · have hdigit : c.isDigit = true :=
      isDigit_of_mem_toString (n := n) (h ▸ List.mem_cons_self ..)
    have hplus : c ≠ '+' := by
      rintro rfl
      exact absurd hdigit (by decide)
    rw [natural?]
    · rw [← h]
      exact digits?_toString n
    · rintro cs' ⟨⟩
      exact hplus rfl

theorem isBlank_of_isDigit {c : Char} (h : c.isDigit = true) : isBlank c = false := by
  have hc : 48 ≤ c.toNat ∧ c.toNat ≤ 57 := by
    simp only [Char.isDigit, Bool.and_eq_true, decide_eq_true_eq] at h
    exact ⟨UInt32.le_iff_toNat_le.mp h.1, UInt32.le_iff_toNat_le.mp h.2⟩
  simp only [isBlank, Bool.or_eq_false_iff, Bool.and_eq_false_iff, decide_eq_false_iff_not]
  omega

/-- There are no blanks around the digits of a number. -/
theorem trim_toString (n : Nat) : trim (toString n).toList = (toString n).toList := by
  have hblank : ∀ c ∈ (toString n).toList, isBlank c = false := fun c hc =>
    isBlank_of_isDigit (isDigit_of_mem_toString hc)
  have hkeep : ∀ cs : List Char, (∀ c ∈ cs, isBlank c = false) → cs.dropWhile isBlank = cs := by
    intro cs h
    cases cs with
    | nil => rfl
    | cons c cs => rw [List.dropWhile_cons_of_neg (by simp [h c])]
  rw [trim, trimRight, trimLeft, hkeep _ hblank, hkeep _ fun c hc => hblank c (by simpa using hc),
    List.reverse_reverse]

theorem toString_inj {m n : Nat} (h : (toString m).toList = (toString n).toList) : m = n := by
  rw [← digitsValue_toString m, h, digitsValue_toString]

theorem colon_not_mem_toString (n : Nat) : ':' ∉ (toString n).toList := fun h =>
  absurd (isDigit_of_mem_toString h) (by decide)

end Text

/-! ## Execution edges -/

namespace Session

theorem toList_edgeId (name : String) (position : Nat) :
    (edgeId name position).toList =
      "exec:".toList ++ (name.toList ++ ':' :: (toString position).toList) := by
  simp [edgeId]

/-- What does not start like the name of a step is none. -/
theorem ne_edgeId {id : EdgeId} (h : ¬ "exec:".toList <+: id.toList) (name : String)
    (position : Nat) : id ≠ edgeId name position := by
  rintro rfl
  rw [toList_edgeId] at h
  exact h (List.prefix_append ..)

/-- A list is cut only one way at a mark that is not in what follows. -/
theorem append_mark_inj {α : Type} {x : α} {a b p q : List α} (hp : x ∉ p) (hq : x ∉ q)
    (h : a ++ x :: p = b ++ x :: q) : a = b ∧ p = q := by
  rcases List.append_eq_append_iff.mp h with ⟨c, rfl, hc⟩ | ⟨c, rfl, hc⟩
  · rcases List.cons_eq_append_iff.mp hc with ⟨rfl, hc⟩ | ⟨d, rfl, rfl⟩
    · exact ⟨by simp, (List.cons.inj hc).2⟩
    · exact absurd (List.mem_append_right d (List.mem_cons_self ..)) hp
  · rcases List.cons_eq_append_iff.mp hc with ⟨rfl, hc⟩ | ⟨d, rfl, rfl⟩
    · exact ⟨by simp, (List.cons.inj hc).2.symm⟩
    · exact absurd (List.mem_append_right d (List.mem_cons_self ..)) hq

/-- The name of an execution edge determines the session and the position. The last colon parts
them, since a position is written without any. -/
theorem edgeId_inj {s t : String} {p q : Nat} (h : edgeId s p = edgeId t q) : s = t ∧ p = q := by
  have hlist := congrArg String.toList h
  rw [toList_edgeId, toList_edgeId] at hlist
  obtain ⟨hname, hposition⟩ := append_mark_inj (Text.colon_not_mem_toString p)
    (Text.colon_not_mem_toString q) (List.append_cancel_left hlist)
  exact ⟨String.toList_inj.mp hname, Text.toString_inj hposition⟩

/-- The label of an execution edge is its position. -/
@[simp] theorem step?_edge (name : String) (position : Nat) (source target : NodeId) :
    (edge name position source target).step? = some position := by
  simp only [Edge.step?, edge, Edge.isExecution, Edge.Kind.isExecution, Edge.Kind.session?,
    Option.isSome_some, if_true, Option.bind_some]
  rw [Text.trim_toString, Text.natural?_toString]

@[simp] theorem isExecutionOf_edge (name : String) (position : Nat) (source target : NodeId) :
    (edge name position source target).isExecutionOf name = true := by
  simp [edge, Edge.isExecutionOf, Edge.Kind.isExecutionOf]

end Session

/-! ## Derived edges -/

namespace Relations

/-- A derived edge is of one of three kinds, and its name starts with the word for that. -/
theorem kind_of_mem_infer {nodes : List Node} {existing : List Edge} {e : Edge}
    (h : e ∈ infer nodes existing) :
    (e.kind = .dependency ∨ e.kind = .inheritance ∨ e.kind = .overrides) ∧
      ∃ rest, e.id = e.kind.word ++ (":" ++ rest) := by
  simp only [infer, List.mem_append, dependencies, inheritance, overrides, List.mem_map] at h
  rcases h with (⟨⟨s, t, names⟩, -, rfl⟩ | ⟨r, -, rfl⟩) | ⟨r, -, rfl⟩
  · refine ⟨.inl rfl, s ++ "->" ++ t, ?_⟩
    simp only [Edge.Kind.word, ← String.append_assoc]
    rfl
  · refine ⟨.inr (.inl rfl), r.source ++ "->" ++ r.target ++ ":" ++ r.name, ?_⟩
    simp only [edgeOf, ← String.append_assoc]
  · refine ⟨.inr (.inr rfl), r.source ++ "->" ++ r.target ++ ":" ++ r.name, ?_⟩
    simp only [edgeOf, ← String.append_assoc]

/-- No derived edge is named as execution edges are: the first letters differ. -/
theorem not_exec_of_mem_infer {nodes : List Node} {existing : List Edge} {e : Edge}
    (h : e ∈ infer nodes existing) : ¬ "exec:".toList <+: e.id.toList := by
  obtain ⟨hkind, rest, hid⟩ := kind_of_mem_infer h
  rw [hid, String.toList_append]
  rcases hkind with hk | hk | hk <;> rw [hk] <;> simp [Edge.Kind.word]

theorem id_ne_edgeId {nodes : List Node} {existing : List Edge} {e : Edge}
    (h : e ∈ infer nodes existing) (name : String) (position : Nat) :
    e.id ≠ Session.edgeId name position :=
  Session.ne_edgeId (not_exec_of_mem_infer h) name position

/-- A derived edge is no step of a session. -/
theorem not_isExecution_of_mem_infer {nodes : List Node} {existing : List Edge} {e : Edge}
    (h : e ∈ infer nodes existing) : e.isExecution = false := by
  rcases (kind_of_mem_infer h).1 with hk | hk | hk <;> rw [Edge.isExecution, hk] <;> rfl

end Relations

end Runbook
