import Mathlib.Data.List.Nodup
import Mathlib.Logic.Function.Basic
import Runbook.Proofs.Turns

/-!
# The locks behind the gates

In memory a gate is a lock that one call at a time holds, and that passes to those who wait for it
in order of their arrival. The table knows one lock for each session. It forgets a lock when nobody
else knows it, and tells that by a count of all who know it. Gates are a view of these locks: the
line at a gate is who holds the lock and, behind him, who waits for it.

* `Lock`, `Locks`: a lock with its count, and all locks with the table
* `Locks.Act`, `Locks.Reached`: what may happen at the locks, and what has happened at them
* `Locks.Shows`: the gates show what is at the locks; `Locks.Reached.shows` says they always do
* `Locks.Reached.waiting`: a lock passes from one call to the other in order of arrival
* `Locks.Reached.exclusive`: no session ever has two locks, whichever are forgotten meanwhile
* `Locks.exists_reached_history`: the gates of all traffic come about in this way
-/

namespace Runbook

/-! ## Locks -/

/-- A lock, which one call at a time holds. -/
structure Lock where
  /-- how many know it: the table, whoever holds it, and everyone who waits for it -/
  count : Nat
  /-- who holds it -/
  holder : Option Turn
  /-- who waits for it, in order of arrival -/
  queue : List Turn

namespace Lock

/-- A lock that nobody knows. -/
def unknown : Lock := ⟨0, none, []⟩

instance : Inhabited Lock := ⟨unknown⟩

/-- Whoever holds the lock and, behind him, who waits for it. -/
def places (x : Lock) : List Turn := x.holder.toList ++ x.queue

/-- One more comes to know the lock, and waits for it. -/
def await (x : Lock) (t : Turn) : Lock :=
  { x with count := x.count + 1, queue := x.queue ++ [t] }

/-- The first of those who wait comes to hold the lock. -/
def grant (x : Lock) : Lock := { x with holder := x.queue.head?, queue := x.queue.tail }

/-- Whoever holds the lock gives it up, and forgets it. -/
def release (x : Lock) : Lock := { x with count := x.count - 1, holder := none }

/-- One of those who wait for the lock goes away, and forgets it. -/
def cancel (x : Lock) (t : Turn) : Lock :=
  { x with count := x.count - 1, queue := x.queue.filter fun u => u.serial ≠ t.serial }

/-- The table forgets the lock. -/
def forget (x : Lock) : Lock := { x with count := x.count - 1 }

end Lock

/-- All locks, and the table of those that stand for a session. -/
structure Locks where
  /-- which lock stands for which file and session -/
  table : List ((String × String) × Nat)
  /-- the locks in memory -/
  lock : Nat → Lock
  /-- the next lock to be made -/
  nextGate : Nat
  /-- the serial of the next place -/
  nextSerial : Nat

namespace Locks

/-- No locks yet. -/
def empty : Locks := { table := [], lock := fun _ => .unknown, nextGate := 0, nextSerial := 0 }

instance : Inhabited Locks := ⟨empty⟩

/-- The lock that stands for a session. -/
def gate? (k : Locks) (file session : String) : Option Nat :=
  (k.table.find? fun entry => entry.1 = (file, session)).map Prod.snd

/-- The locks with one of them changed. -/
def set (k : Locks) (gate : Nat) (x : Lock) : Locks :=
  { k with lock := Function.update k.lock gate x }

@[simp] theorem lock_set_self (k : Locks) (gate : Nat) (x : Lock) :
    (k.set gate x).lock gate = x := Function.update_self ..

theorem lock_set_of_ne (k : Locks) {gate gate' : Nat} (h : gate' ≠ gate) (x : Lock) :
    (k.set gate x).lock gate' = k.lock gate' := Function.update_of_ne h ..

/-- Makes the table forget the locks that only it knows. -/
def prune (k : Locks) : Locks :=
  { k with
    table := k.table.filter fun entry => 1 < (k.lock entry.2).count
    lock := fun gate =>
      if gate ∈ k.table.map Prod.snd ∧ (k.lock gate).count ≤ 1 then (k.lock gate).forget
      else k.lock gate }

theorem lock_prune (k : Locks) (gate : Nat) : k.prune.lock gate =
    if gate ∈ k.table.map Prod.snd ∧ (k.lock gate).count ≤ 1 then (k.lock gate).forget
    else k.lock gate := rfl

@[simp] theorem queue_prune (k : Locks) (gate : Nat) :
    (k.prune.lock gate).queue = (k.lock gate).queue := by
  rw [lock_prune]
  split <;> rfl

/-- The locks with a new one, which the table knows for a session. -/
def addLock (k : Locks) (file session : String) : Locks :=
  { k.set k.nextGate ⟨1, none, []⟩ with
    table := k.table ++ [((file, session), k.nextGate)], nextGate := k.nextGate + 1 }

/-- Makes somebody wait for a lock. -/
def join (k : Locks) (file session : String) (gate : Nat) : Turn × Locks :=
  let turn : Turn := { serial := k.nextSerial, file, session, gate }
  (turn, { k.set gate ((k.lock gate).await turn) with nextSerial := k.nextSerial + 1 })

@[simp] theorem lock_addLock (k : Locks) (file session : String) (gate : Nat) :
    (k.addLock file session).lock gate = (k.set k.nextGate ⟨1, none, []⟩).lock gate := rfl

@[simp] theorem lock_join (k : Locks) (file session : String) (gate gate' : Nat) :
    (k.join file session gate).2.lock gate' =
      (k.set gate ((k.lock gate).await (k.join file session gate).1)).lock gate' := rfl

/-- Makes somebody wait for the lock of a session, after a `prune`. The lock is made if the table
knows none. -/
def arrive (k : Locks) (file session : String) : Turn × Locks :=
  let k := k.prune
  match k.gate? file session with
  | some gate => k.join file session gate
  | none => (k.addLock file session).join file session k.nextGate

/-! ## What the gates show -/

/-- The gates show what is at the locks: who holds one is at the head of the line, who waits for it
stands behind him, and a lock is known to all of these and at most once to the table. -/
structure Shows (g : Gates) (k : Locks) : Prop where
  /-- the tables are the same -/
  table : k.table = g.table
  /-- the next gate is the next lock -/
  nextGate : k.nextGate = g.nextGate
  /-- the next place has the same serial -/
  nextSerial : k.nextSerial = g.nextSerial
  /-- the line at the gate are those at the lock -/
  places : ∀ gate, (k.lock gate).places = g.line gate
  /-- the count is right -/
  count : ∀ gate, (k.lock gate).count =
    g.table.countP (fun entry => entry.2 = gate) + (g.line gate).length

theorem shows_empty : Shows .empty .empty where
  table := rfl
  nextGate := rfl
  nextSerial := rfl
  places _ := rfl
  count _ := rfl

namespace Shows

variable {g : Gates} {k : Locks}

theorem gate?_eq (h : Shows g k) (file session : String) :
    k.gate? file session = g.gate? file session := by
  rw [gate?, h.table, Gates.gate?]

/-- The table knows a lock once or not at all. -/
theorem countP_table (hkept : g.WellKept) (gate : Nat) :
    g.table.countP (fun entry => entry.2 = gate) =
      if gate ∈ g.table.map Prod.snd then 1 else 0 := by
  rw [← hkept.gates.count, List.count, List.countP_map]
  rfl

/-- A lock that the table knows is known to nobody else just when nobody is at its gate. -/
theorem count_of_mem (h : Shows g k) (hkept : g.WellKept) {gate : Nat}
    (hgate : gate ∈ g.table.map Prod.snd) : (k.lock gate).count = 1 + g.refs gate := by
  rw [h.count, countP_table hkept, if_pos hgate, Gates.refs_eq_length]

theorem prune (h : Shows g k) (hkept : g.WellKept) : Shows g.prune k.prune where
  table := by
    rw [Locks.prune, h.table]
    refine List.filter_congr fun entry hentry => decide_eq_decide.mpr ?_
    rw [h.count_of_mem hkept (List.mem_map_of_mem hentry)]
    omega
  nextGate := h.nextGate
  nextSerial := h.nextSerial
  places gate := by
    rw [Gates.line_prune, ← h.places, lock_prune]
    split <;> rfl
  count gate := by
    have hcount := h.count gate
    have hpruned := countP_table hkept.prune gate
    have htable := countP_table hkept gate
    have hmem := g.mem_table_prune gate
    rw [Gates.refs_eq_length] at hmem
    rw [Gates.line_prune, hpruned, lock_prune, h.table]
    by_cases hgate : gate ∈ g.table.map Prod.snd
    · rw [if_pos hgate] at htable
      by_cases hnobody : (g.line gate).length = 0
      · -- the table alone knows the lock, and forgets it
        have hdrop : gate ∈ g.table.map Prod.snd ∧ (k.lock gate).count ≤ 1 := ⟨hgate, by omega⟩
        have hgone : gate ∉ g.prune.table.map Prod.snd := fun hkeep => by
          have := (hmem.mp hkeep).2
          omega
        have hforget : (k.lock gate).forget.count = (k.lock gate).count - 1 := rfl
        rw [if_pos hdrop, if_neg hgone, hforget]
        omega
      · have hkeep : ¬ (gate ∈ g.table.map Prod.snd ∧ (k.lock gate).count ≤ 1) := by omega
        rw [if_neg hkeep, if_pos (hmem.mpr ⟨hgate, by omega⟩)]
        omega
    · have hkeep : ¬ (gate ∈ g.table.map Prod.snd ∧ (k.lock gate).count ≤ 1) :=
        fun hdrop => hgate hdrop.1
      have hgone : gate ∉ g.prune.table.map Prod.snd := fun hkept' => hgate (hmem.mp hkept').1
      rw [if_neg hgate] at htable
      rw [if_neg hkeep, if_neg hgone]
      omega

theorem addLock (h : Shows g k) (hkept : g.WellKept) (file session : String) :
    Shows (g.addGate file session) (k.addLock file session) where
  table := by rw [Locks.addLock, h.table, h.nextGate, Gates.addGate]
  nextGate := by rw [Locks.addLock, h.nextGate, Gates.addGate]
  nextSerial := h.nextSerial
  places gate := by
    by_cases hgate : gate = k.nextGate
    · rw [hgate, lock_addLock, lock_set_self, h.nextGate]
      exact hkept.line_nextGate.symm
    · rw [lock_addLock, lock_set_of_ne _ hgate]
      exact h.places gate
  count gate := by
    have hsplit : (g.addGate file session).table.countP (fun entry => entry.2 = gate) =
        g.table.countP (fun entry => entry.2 = gate) + if g.nextGate = gate then 1 else 0 := by
      rw [Gates.addGate, List.countP_append, List.countP_singleton]
      simp only [decide_eq_true_eq]
    have hline : (g.addGate file session).line gate = g.line gate := rfl
    rw [hsplit, hline, lock_addLock]
    by_cases hgate : gate = k.nextGate
    · have hnone : g.table.countP (fun entry => entry.2 = g.nextGate) = 0 :=
        List.countP_eq_zero.mpr fun entry hentry heq =>
          absurd (hkept.gate_lt entry hentry) (of_decide_eq_true heq ▸ Nat.lt_irrefl _)
      rw [hgate, lock_set_self, h.nextGate, hnone, hkept.line_nextGate, if_pos rfl]
      rfl
    · rw [lock_set_of_ne _ hgate, if_neg fun heq => hgate (h.nextGate ▸ heq.symm)]
      exact h.count gate

theorem join (h : Shows g k) (file session : String) (gate : Nat) :
    (k.join file session gate).1 = (g.join file session gate).1 ∧
      Shows (g.join file session gate).2 (k.join file session gate).2 := by
  have hturn : (k.join file session gate).1 = (g.join file session gate).1 := by
    rw [Locks.join, Gates.join, h.nextSerial]
  refine ⟨hturn, h.table, h.nextGate, congrArg (· + 1) h.nextSerial, fun gate' => ?_,
    fun gate' => ?_⟩
  · rw [Gates.line_join, ← h.places, ← hturn, lock_join]
    by_cases hgate : gate' = gate
    · rw [hgate, if_pos rfl, lock_set_self, Lock.places, Lock.await, Lock.places,
        List.append_assoc]
    · rw [if_neg (Ne.symm hgate), List.append_nil, lock_set_of_ne _ hgate]
  · have hcount := h.count gate'
    have htable : (g.join file session gate).2.table = g.table := rfl
    rw [Gates.line_join, List.length_append, lock_join, htable]
    by_cases hgate : gate' = gate
    · have hawait : ∀ x t, (Lock.await x t).count = x.count + 1 := fun _ _ => rfl
      subst hgate
      rw [if_pos rfl, lock_set_self, hawait, List.length_singleton]
      omega
    · rw [if_neg (Ne.symm hgate), lock_set_of_ne _ hgate, List.length_nil]
      omega

theorem arrive (h : Shows g k) (hkept : g.WellKept) (file session : String) :
    (k.arrive file session).1 = (g.arrive file session).1 ∧
      Shows (g.arrive file session).2 (k.arrive file session).2 := by
  have hpruned := h.prune hkept
  rw [Locks.arrive, Gates.arrive]
  simp only [hpruned.gate?_eq]
  cases hgate : g.prune.gate? file session with
  | some gate => exact hpruned.join file session gate
  | none =>
    simp only [hpruned.nextGate]
    exact (hpruned.addLock hkept.prune file session).join file session g.prune.nextGate

theorem grant (h : Shows g k) {gate : Nat} (hfree : (k.lock gate).holder = none) :
    Shows g (k.set gate (k.lock gate).grant) := by
  refine ⟨h.table, h.nextGate, h.nextSerial, fun gate' => ?_, fun gate' => ?_⟩
  · by_cases hgate : gate' = gate
    · rw [← h.places, hgate, lock_set_self, Lock.places, Lock.grant, Lock.places, hfree]
      cases (k.lock gate).queue <;> rfl
    · rw [← h.places, lock_set_of_ne _ hgate]
  · by_cases hgate : gate' = gate
    · rw [← h.count, hgate, lock_set_self]
      rfl
    · rw [← h.count, lock_set_of_ne _ hgate]

/-- Whoever is at a lock is at the gate of the same number. -/
theorem mem_of_places (h : Shows g k) {gate : Nat} {t : Turn} (ht : t ∈ (k.lock gate).places) :
    t ∈ g.turns ∧ t.gate = gate := by
  rw [h.places] at ht
  obtain ⟨ht, hgate⟩ := List.mem_filter.mp ht
  exact ⟨ht, of_decide_eq_true hgate⟩

/-- When one place is given up at a lock, the gates show that if the lock does. -/
theorem leave (h : Shows g k) (hkept : g.WellKept) {gate : Nat} {t : Turn} {x : Lock}
    {pre post : List Turn} (hplaces : (k.lock gate).places = pre ++ t :: post)
    (hleft : x.places = pre ++ post) (hcount : x.count = (k.lock gate).count - 1) :
    Shows (g.release t) (k.set gate x) := by
  obtain ⟨ht, rfl⟩ := h.mem_of_places (hplaces ▸ List.mem_append_right _ (List.mem_cons_self ..))
  have hline := (h.places t.gate).symm.trans hplaces
  obtain ⟨-, -, hline'⟩ := hkept.line_release_split hline
  refine ⟨h.table, h.nextGate, h.nextSerial, fun gate' => ?_, fun gate' => ?_⟩
  · by_cases hgate : gate' = t.gate
    · rw [hgate, lock_set_self, hline', hleft]
    · rw [lock_set_of_ne _ hgate, hkept.line_release_of_ne ht hgate, h.places]
  · by_cases hgate : gate' = t.gate
    · have hbefore := h.count t.gate
      rw [hline, List.length_append, List.length_cons] at hbefore
      have htable : (g.release t).table = g.table := rfl
      rw [hgate, lock_set_self, hline', hcount, hbefore, List.length_append, htable]
      omega
    · rw [lock_set_of_ne _ hgate, hkept.line_release_of_ne ht hgate, h.count]
      rfl

theorem release (h : Shows g k) (hkept : g.WellKept) {gate : Nat} {t : Turn}
    (hholder : (k.lock gate).holder = some t) :
    Shows (g.release t) (k.set gate (k.lock gate).release) := by
  have hplaces : (k.lock gate).places = [] ++ t :: (k.lock gate).queue := by
    rw [Lock.places, hholder]
    rfl
  exact h.leave hkept hplaces rfl rfl

theorem cancel (h : Shows g k) (hkept : g.WellKept) {gate : Nat} {t : Turn}
    (hwaits : t ∈ (k.lock gate).queue) :
    Shows (g.release t) (k.set gate ((k.lock gate).cancel t)) := by
  obtain ⟨pre, post, hqueue⟩ := List.append_of_mem hwaits
  have hplaces : (k.lock gate).places = ((k.lock gate).holder.toList ++ pre) ++ t :: post := by
    rw [Lock.places, hqueue, List.append_assoc]
  obtain ⟨-, rfl⟩ := h.mem_of_places (hplaces ▸ List.mem_append_right _ (List.mem_cons_self ..))
  obtain ⟨hpre, hpost, -⟩ := hkept.line_release_split ((h.places t.gate).symm.trans hplaces)
  refine h.leave hkept hplaces ?_ rfl
  have hbefore : pre.filter (fun u => u.serial ≠ t.serial) = pre :=
    List.filter_eq_self.mpr fun u hu => List.filter_eq_self.mp hpre u (List.mem_append_right _ hu)
  rw [Lock.places, Lock.cancel, hqueue, List.filter_append, List.filter_cons_of_neg (by simp),
    hbefore, hpost, List.append_assoc]

end Shows

/-! ## What happens at the locks -/

/-- What may happen at the locks. -/
inductive Act where
  /-- somebody arrives and waits -/
  | arrive (t : Turn)
  /-- whoever waits first comes to hold the lock -/
  | grant (t : Turn)
  /-- whoever holds a lock gives it up -/
  | release (t : Turn)
  /-- somebody who waits goes away -/
  | cancel (t : Turn)
  /-- the table forgets what only it knows -/
  | prune

/-- What has happened so far, and what that has made of the gates and of the locks. -/
inductive Reached : List Act → Gates → Locks → Prop
  /-- nothing has happened yet -/
  | empty : Reached [] .empty .empty
  /-- anybody may arrive for any session -/
  | arrive {acts : List Act} {g : Gates} {k : Locks} (file session : String)
    (h : Reached acts g k) :
    Reached (acts ++ [.arrive (k.arrive file session).1]) (g.arrive file session).2
      (k.arrive file session).2
  /-- a lock that nobody holds passes to whoever waits first -/
  | grant {acts : List Act} {g : Gates} {k : Locks} {t : Turn} {rest : List Turn} (gate : Nat)
    (h : Reached acts g k) (hfree : (k.lock gate).holder = none)
    (hqueue : (k.lock gate).queue = t :: rest) :
    Reached (acts ++ [.grant t]) g (k.set gate (k.lock gate).grant)
  /-- whoever holds a lock may give it up -/
  | release {acts : List Act} {g : Gates} {k : Locks} {t : Turn} (gate : Nat)
    (h : Reached acts g k) (hholder : (k.lock gate).holder = some t) :
    Reached (acts ++ [.release t]) (g.release t) (k.set gate (k.lock gate).release)
  /-- anybody who waits may go away -/
  | cancel {acts : List Act} {g : Gates} {k : Locks} {t : Turn} (gate : Nat)
    (h : Reached acts g k) (hwaits : t ∈ (k.lock gate).queue) :
    Reached (acts ++ [.cancel t]) (g.release t) (k.set gate ((k.lock gate).cancel t))
  /-- the locks that only the table knows may be forgotten at any time -/
  | prune {acts : List Act} {g : Gates} {k : Locks} (h : Reached acts g k) :
    Reached (acts ++ [.prune]) g.prune k.prune

/-- Who arrives. -/
def Act.arrived? : Act → Option Turn
  | arrive t => some t
  | _ => none

/-- Who comes to hold a lock. -/
def Act.granted? : Act → Option Turn
  | grant t => some t
  | _ => none

/-- Who has arrived for a session, in order. -/
def arrivals (file session : String) (acts : List Act) : List Turn :=
  (acts.filterMap Act.arrived?).filter fun t => t.file = file ∧ t.session = session

/-- Who has come to hold the lock of a session, in order. -/
def grants (file session : String) (acts : List Act) : List Turn :=
  (acts.filterMap Act.granted?).filter fun t => t.file = file ∧ t.session = session

section

variable (file session : String) (acts : List Act)

theorem arrivals_concat (t : Turn) : arrivals file session (acts ++ [.arrive t]) =
    arrivals file session acts ++ if t.file = file ∧ t.session = session then [t] else [] := by
  rw [arrivals, List.filterMap_append, List.filter_append, arrivals]
  exact congrArg _ (by simp [Act.arrived?, List.filter_cons])

theorem arrivals_concat_of_none {act : Act} (h : act.arrived? = none) :
    arrivals file session (acts ++ [act]) = arrivals file session acts := by
  rw [arrivals, List.filterMap_append, List.filterMap_cons_none h, List.filterMap_nil,
    List.append_nil, arrivals]

theorem grants_concat (t : Turn) : grants file session (acts ++ [.grant t]) =
    grants file session acts ++ if t.file = file ∧ t.session = session then [t] else [] := by
  rw [grants, List.filterMap_append, List.filter_append, grants]
  exact congrArg _ (by simp [Act.granted?, List.filter_cons])

theorem grants_concat_of_none {act : Act} (h : act.granted? = none) :
    grants file session (acts ++ [act]) = grants file session acts := by
  rw [grants, List.filterMap_append, List.filterMap_cons_none h, List.filterMap_nil,
    List.append_nil, grants]

end

namespace Reached

variable {acts : List Act} {g : Gates} {k : Locks}

theorem wellKept_and_shows (h : Reached acts g k) : g.WellKept ∧ Shows g k := by
  induction h with
  | empty => exact ⟨Gates.wellKept_empty, shows_empty⟩
  | arrive file session _ ih =>
    exact ⟨(ih.1.arrive file session).1, (ih.2.arrive ih.1 file session).2⟩
  | grant _ _ hfree _ ih => exact ⟨ih.1, ih.2.grant hfree⟩
  | release _ _ hholder ih => exact ⟨ih.1.release _, ih.2.release ih.1 hholder⟩
  | cancel _ _ hwaits ih => exact ⟨ih.1.release _, ih.2.cancel ih.1 hwaits⟩
  | prune _ ih => exact ⟨ih.1.prune, ih.2.prune ih.1⟩

theorem wellKept (h : Reached acts g k) : g.WellKept := h.wellKept_and_shows.1

/-- The gates show what is at the locks, whatever happens. -/
theorem shows (h : Reached acts g k) : Shows g k := h.wellKept_and_shows.2

end Reached

/-! ## Who waits -/

/-- Who waits for the lock of a session, in order of arrival. -/
def waiting (g : Gates) (k : Locks) (file session : String) : List Turn :=
  (g.lineOf file session).filter fun t => t ∈ (k.lock t.gate).queue

namespace Shows

variable {g : Gates} {k : Locks}

/-- Those who wait for the lock of a session are in the queue of the lock they are at. -/
theorem waiting_eq (h : Shows g k) (hkept : g.WellKept) {t : Turn} (ht : t ∈ g.turns) :
    waiting g k t.file t.session = (k.lock t.gate).queue := by
  have hnodup : (g.line t.gate).Nodup := hkept.nodup_turns.filter _
  have hgates : ∀ u ∈ g.line t.gate, u.gate = t.gate :=
    fun u hu => of_decide_eq_true (List.mem_filter.mp hu).2
  rw [waiting, ← hkept.line_eq_lineOf ht]
  rw [← h.places, Lock.places] at hnodup hgates ⊢
  rw [List.filter_append, List.filter_eq_nil_iff.mpr, List.filter_eq_self.mpr, List.nil_append]
  · intro u hu
    rw [hgates u (List.mem_append_right _ hu)]
    exact decide_eq_true hu
  · intro u hu hwaits
    rw [hgates u (List.mem_append_left _ hu)] at hwaits
    exact (List.nodup_append.mp hnodup).2.2 u hu u (of_decide_eq_true hwaits) rfl

/-- Nobody else comes to wait, or ceases to, by an arrival. -/
theorem mem_queue_arrive (h : Shows g k) (hkept : g.WellKept) (file session : String) {u : Turn}
    (hu : u ∈ g.turns) (gate : Nat) :
    u ∈ ((k.arrive file session).2.lock gate).queue ↔ u ∈ (k.lock gate).queue := by
  have hjoin : ∀ (k : Locks) (into : Nat), k.nextSerial = g.nextSerial →
      (u ∈ ((k.join file session into).2.lock gate).queue ↔ u ∈ (k.lock gate).queue) := by
    intro k into hserial
    rw [lock_join]
    by_cases hgate : gate = into
    · have hold : u ≠ (k.join file session into).1 := by
        rintro rfl
        exact absurd (hkept.serial_lt _ hu) (hserial ▸ Nat.lt_irrefl _)
      rw [hgate, lock_set_self, Lock.await, List.mem_append, List.mem_singleton]
      exact or_iff_left hold
    · rw [lock_set_of_ne _ hgate]
  rw [← queue_prune k gate, Locks.arrive]
  cases k.prune.gate? file session with
  | some into => exact hjoin k.prune into h.nextSerial
  | none =>
    refine (hjoin (k.prune.addLock file session) _ h.nextSerial).trans ?_
    rw [lock_addLock]
    by_cases hgate : gate = k.prune.nextGate
    · -- a new lock has no queue, as there was none under its number
      have hnone : (k.prune.lock k.prune.nextGate).places = [] := by
        rw [(h.prune hkept).places, (h.prune hkept).nextGate, hkept.prune.line_nextGate]
      have hqueue := (List.append_eq_nil_iff.mp hnone).2
      rw [hgate, lock_set_self, hqueue]
    · rw [lock_set_of_ne _ hgate]

/-- Whoever arrives waits. -/
theorem mem_queue_arrive_self (k : Locks) (file session : String) :
    (k.arrive file session).1 ∈
      ((k.arrive file session).2.lock (k.arrive file session).1.gate).queue := by
  have hjoin : ∀ (k : Locks) (into : Nat), (k.join file session into).1 ∈
      ((k.join file session into).2.lock (k.join file session into).1.gate).queue := by
    intro k into
    have hgate : (k.join file session into).1.gate = into := rfl
    rw [lock_join, hgate, lock_set_self]
    exact List.mem_append_right _ (List.mem_singleton_self _)
  rw [Locks.arrive]
  cases k.prune.gate? file session with
  | some into => exact hjoin ..
  | none => exact hjoin ..

/-- Whoever arrives is the last of those who wait for his session. -/
theorem waiting_arrive (h : Shows g k) (hkept : g.WellKept) (file session f s : String) :
    waiting (g.arrive file session).2 (k.arrive file session).2 f s = waiting g k f s ++
      if file = f ∧ session = s then [(k.arrive file session).1] else [] := by
  have hturn := (h.arrive hkept file session).1
  rw [waiting, hkept.lineOf_arrive, List.filter_append, ← hturn, waiting]
  congr 1
  · refine List.filter_congr fun u hu => decide_eq_decide.mpr ?_
    exact h.mem_queue_arrive hkept file session (Gates.mem_lineOf.mp hu).1 _
  · split
    · exact List.filter_cons_of_pos (decide_eq_true (mem_queue_arrive_self ..))
    · rfl

/-- Who comes to hold a lock was the first of those who wait for its session, and nobody else's
waiting is any shorter for that. -/
theorem waiting_grant (h : Shows g k) (hkept : g.WellKept) {gate : Nat} {t : Turn}
    {rest : List Turn} (hfree : (k.lock gate).holder = none)
    (hqueue : (k.lock gate).queue = t :: rest) (f s : String) :
    waiting g k f s = (if t.file = f ∧ t.session = s then [t] else []) ++
      waiting g (k.set gate (k.lock gate).grant) f s := by
  have hplaces : t ∈ (k.lock gate).places := by
    rw [Lock.places, hqueue]
    exact List.mem_append_right _ (List.mem_cons_self ..)
  obtain ⟨ht, rfl⟩ := h.mem_of_places hplaces
  by_cases hkey : t.file = f ∧ t.session = s
  · obtain ⟨rfl, rfl⟩ := hkey
    rw [if_pos ⟨rfl, rfl⟩, h.waiting_eq hkept ht, (h.grant hfree).waiting_eq hkept ht,
      lock_set_self, Lock.grant, hqueue]
    rfl
  · rw [if_neg hkey, List.nil_append]
    refine List.filter_congr fun u hu => decide_eq_decide.mpr ?_
    obtain ⟨hu, hfile, hsession⟩ := Gates.mem_lineOf.mp hu
    have hgate : u.gate ≠ t.gate := by
      intro hgate
      have hentry := List.inj_on_of_nodup_map hkept.gates (hkept.placed u hu) (hkept.placed t ht)
        hgate
      obtain ⟨hf, hs⟩ := Prod.mk.inj (congrArg Prod.fst hentry)
      exact hkey ⟨hf.symm.trans hfile, hs.symm.trans hsession⟩
    rw [lock_set_of_ne _ hgate]

end Shows

/-- When somebody has gone, nobody waits who has not waited before, and the order is the same. -/
theorem waiting_sublist {g : Gates} {k k' : Locks} (t : Turn)
    (hqueue : ∀ gate, ∀ u ∈ (k'.lock gate).queue, u ∈ (k.lock gate).queue)
    (file session : String) :
    (waiting (g.release t) k' file session).Sublist (waiting g k file session) := by
  rw [waiting, Gates.lineOf_release, waiting]
  refine (List.filter_sublist.filter _).trans (List.monotone_filter_right _ fun u hu => ?_)
  exact decide_eq_true (hqueue u.gate u (of_decide_eq_true hu))

namespace Reached

variable {acts : List Act} {g : Gates} {k : Locks}

/-- Those who came to hold the lock of a session and, after them, those who wait for it, have
arrived in this order. -/
theorem waiting (h : Reached acts g k) (file session : String) :
    (grants file session acts ++ Locks.waiting g k file session).Sublist
      (arrivals file session acts) := by
  have hset : ∀ {k : Locks} {gate : Nat} {x : Lock}, (∀ u ∈ x.queue, u ∈ (k.lock gate).queue) →
      ∀ gate', ∀ u ∈ ((k.set gate x).lock gate').queue, u ∈ (k.lock gate').queue := by
    intro k gate x hqueue gate' u hu
    by_cases hgate : gate' = gate
    · rw [hgate, lock_set_self] at hu
      exact hgate ▸ hqueue u hu
    · rwa [lock_set_of_ne _ hgate] at hu
  induction h with
  | empty => exact List.Sublist.refl _
  | @arrive acts g k f s h ih =>
    obtain ⟨-, -, hfile, hsession⟩ := h.wellKept.arrive f s
    have hturn := (h.shows.arrive h.wellKept f s).1
    rw [grants_concat_of_none _ _ _ rfl, arrivals_concat, h.shows.waiting_arrive h.wellKept,
      ← List.append_assoc, hturn, hfile, hsession]
    exact ih.append (List.Sublist.refl _)
  | @grant acts g k t rest gate h hfree hqueue ih =>
    rw [h.shows.waiting_grant h.wellKept hfree hqueue, ← List.append_assoc] at ih
    rw [grants_concat, arrivals_concat_of_none _ _ _ rfl]
    exact ih
  | @release acts g k t gate h hholder ih =>
    have hqueue : ∀ u ∈ (k.lock gate).release.queue, u ∈ (k.lock gate).queue := fun _ hu => hu
    rw [grants_concat_of_none _ _ _ rfl, arrivals_concat_of_none _ _ _ rfl]
    exact ((waiting_sublist t (hset hqueue) ..).append_left _).trans ih
  | cancel gate h hwaits ih =>
    rw [grants_concat_of_none _ _ _ rfl, arrivals_concat_of_none _ _ _ rfl]
    refine ((waiting_sublist _ (hset fun _ hu => ?_) ..).append_left _).trans ih
    exact (List.mem_filter.mp hu).1
  | @prune acts g k h ih =>
    have hsame : Locks.waiting g.prune k.prune file session = Locks.waiting g k file session := by
      rw [Locks.waiting, Gates.lineOf_prune, Locks.waiting]
      simp only [queue_prune]
    rw [grants_concat_of_none _ _ _ rfl, arrivals_concat_of_none _ _ _ rfl, hsame]
    exact ih

/-- **No session ever has two locks.** Calls may arrive for any sessions, come to hold a lock when
they wait first for it and nobody holds it, give it up, go away while they wait, and the table may
forget, at any time, the locks that nobody else knows. However these come about one after another,
the gates of the ledger show what is at the locks, and a lock is known to those at it and at most
once to the table. Everybody who is there for a session is at the one lock that the table knows for
it, so that only one of them holds the session's turn, and the turn goes from one to the next in
order of arrival. Once the table has forgotten, it knows just the sessions that somebody is there
for. -/
theorem exclusive (h : Reached acts g k) :
    (k.table = g.table ∧ ∀ gate, (k.lock gate).places = g.line gate ∧
      (k.lock gate).count =
        k.table.countP (fun entry => entry.2 = gate) + (k.lock gate).places.length) ∧
    (∀ gate, ∀ t ∈ (k.lock gate).places, k.gate? t.file t.session = some gate) ∧
    (∀ gate gate' t t', (k.lock gate).holder = some t → (k.lock gate').holder = some t' →
      t.file = t'.file → t.session = t'.session → t = t') ∧
    (∀ file session, (grants file session acts).Sublist (arrivals file session acts)) ∧
    (∀ file session gate, k.gate? file session = some gate →
      (grants file session acts ++ (k.lock gate).queue).Sublist (arrivals file session acts)) ∧
    (k.prune.table.map Prod.fst).Nodup ∧
    ∀ file session, (file, session) ∈ k.prune.table.map Prod.fst ↔
      ∃ gate, ∃ t ∈ (k.lock gate).places, t.file = file ∧ t.session = session := by
  have hshows := h.shows
  have hkept := h.wellKept
  have hplaced : ∀ gate, ∀ t ∈ (k.lock gate).places, k.gate? t.file t.session = some gate := by
    intro gate t ht
    obtain ⟨hturn, rfl⟩ := hshows.mem_of_places ht
    rw [hshows.gate?_eq]
    exact hkept.gate?_of_mem (hkept.placed t hturn)
  refine ⟨⟨hshows.table, fun gate => ⟨hshows.places gate, ?_⟩⟩, hplaced, ?_, ?_, ?_, ?_, ?_⟩
  · rw [hshows.places, hshows.table]
    exact hshows.count gate
  · intro gate gate' t t' hholder hholder' hfile hsession
    have hmem : ∀ {gate t}, (k.lock gate).holder = some t → t ∈ (k.lock gate).places := by
      intro gate t hholder
      rw [Lock.places, hholder]
      exact List.mem_cons_self ..
    -- both are at the lock that the table knows for their session
    have hgate := hplaced gate t (hmem hholder)
    rw [hfile, hsession, hplaced gate' t' (hmem hholder')] at hgate
    rw [← Option.some.inj hgate] at hholder
    exact Option.some.inj (hholder.symm.trans hholder')
  · exact fun file session => (List.sublist_append_left ..).trans (h.waiting file session)
  · intro file session gate hgate
    have hwaiting := h.waiting file session
    cases hqueue : (k.lock gate).queue with
    | nil =>
      rw [List.append_nil]
      exact (List.sublist_append_left ..).trans hwaiting
    | cons t rest =>
      have ht : t ∈ (k.lock gate).places := by
        rw [Lock.places, hqueue]
        exact List.mem_append_right _ (List.mem_cons_self ..)
      obtain ⟨hturn, rfl⟩ := hshows.mem_of_places ht
      -- the table knows the lock for one session only, which is that of whoever waits
      obtain ⟨rfl, rfl⟩ : t.file = file ∧ t.session = session := by
        rw [hshows.gate?_eq] at hgate
        have hentry := List.inj_on_of_nodup_map hkept.gates (hkept.placed t hturn)
          (Gates.mem_of_gate? hgate) rfl
        exact Prod.mk.inj (congrArg Prod.fst hentry)
      rw [hshows.waiting_eq hkept hturn, hqueue] at hwaiting
      exact hwaiting
  · rw [(hshows.prune hkept).table]
    exact hkept.prune.keys
  · intro file session
    rw [(hshows.prune hkept).table]
    constructor
    · intro hkey
      obtain ⟨entry, hentry, hkey⟩ := List.mem_map.mp hkey
      obtain ⟨hentry, hrefs⟩ := List.mem_filter.mp hentry
      obtain ⟨t, ht, hgate⟩ := List.countP_pos_iff.mp (of_decide_eq_true hrefs)
      rw [decide_eq_true_eq] at hgate
      have hsame := List.inj_on_of_nodup_map hkept.gates (hkept.placed t ht) hentry hgate
      obtain ⟨hfile, hsession⟩ := Prod.mk.inj ((congrArg Prod.fst hsame).trans hkey)
      refine ⟨t.gate, t, ?_, hfile, hsession⟩
      rw [hshows.places]
      exact List.mem_filter.mpr ⟨ht, decide_eq_true rfl⟩
    · rintro ⟨gate, t, ht, rfl, rfl⟩
      obtain ⟨hturn, -⟩ := hshows.mem_of_places ht
      exact List.mem_map_of_mem (f := Prod.fst) (hkept.prune.placed t hturn)

end Reached

/-- One call takes the turn of a session, and a second one waits for it. A third one takes the turn
of another session. Then the first one is done, the second one goes away, and the table forgets. -/
def comeAndGo : List Act :=
  [.arrive ⟨0, "f", "s", 0⟩, .grant ⟨0, "f", "s", 0⟩, .arrive ⟨1, "f", "s", 0⟩,
    .arrive ⟨2, "f", "t", 1⟩, .grant ⟨2, "f", "t", 1⟩, .release ⟨0, "f", "s", 0⟩,
    .cancel ⟨1, "f", "s", 0⟩, .prune]

theorem reached_comeAndGo :
    ∃ g k, Reached comeAndGo g k ∧ (k.lock 1).holder = some ⟨2, "f", "t", 1⟩ := by
  have h := Reached.empty.arrive "f" "s"
  have h := h.grant 0 rfl rfl
  have h := (h.arrive "f" "s").arrive "f" "t"
  have h := h.grant 1 rfl rfl
  have h := h.release 0 rfl
  have h := (h.cancel 0 (List.mem_cons_self ..)).prune
  exact ⟨_, _, h, rfl⟩

/-- The third one is at the lock that the table knows, and nobody else holds the turn. -/
theorem exclusive_comeAndGo : ∃ g k, Reached comeAndGo g k ∧
    k.gate? "f" "t" = some 1 ∧
    (∀ gate t, (k.lock gate).holder = some t → t.file = "f" → t.session = "t" → t.serial = 2) ∧
    (grants "f" "s" comeAndGo).Sublist (arrivals "f" "s" comeAndGo) ∧
    ("f", "t") ∈ k.prune.table.map Prod.fst := by
  obtain ⟨g, k, h, hholder⟩ := reached_comeAndGo
  have hplace : (⟨2, "f", "t", 1⟩ : Turn) ∈ (k.lock 1).places := by
    rw [Lock.places, hholder]
    exact List.mem_cons_self ..
  obtain ⟨-, hplaced, hone, hinOrder, -, -, hkeys⟩ := h.exclusive
  refine ⟨g, k, h, hplaced 1 _ hplace, fun gate t ht hfile hsession => ?_, hinOrder "f" "s",
    (hkeys "f" "t").mpr ⟨1, _, hplace, rfl, rfl⟩⟩
  rw [hone gate 1 t _ ht hholder hfile hsession]

/-! ## The gates of the traffic -/

namespace Reached

variable {acts : List Act} {g : Gates} {k : Locks}

/-- Whoever is at a lock can give it up, or go away. -/
theorem leave (h : Reached acts g k) {t : Turn} (ht : t ∈ g.turns) :
    ∃ acts' k', Reached acts' (g.release t) k' := by
  have hplaces : t ∈ (k.lock t.gate).places := by
    rw [h.shows.places]
    exact List.mem_filter.mpr ⟨ht, decide_eq_true rfl⟩
  rcases List.mem_append.mp hplaces with hholder | hwaits
  · exact ⟨_, _, h.release t.gate (Option.mem_toList.mp hholder)⟩
  · exact ⟨_, _, h.cancel t.gate hwaits⟩

theorem leaveAll (ts : List Turn) : ∀ {acts : List Act} {g : Gates} {k : Locks} {rest : List Turn},
    Reached acts g k → (ts ++ rest).Perm g.turns →
    ∃ acts' k', Reached acts' (g.releaseAll ts) k' := by
  induction ts with
  | nil => exact fun h _ => ⟨_, _, h⟩
  | cons t ts ih =>
    intro acts g k rest h hperm
    obtain ⟨acts', k', h'⟩ := h.leave (hperm.mem_iff.mp (List.mem_cons_self ..))
    exact ih h' (h.wellKept.perm_release hperm)

/-- Whatever a call does to its places can happen at the locks. -/
theorem shift (h : Reached acts g k) {file : String} {phase phase' : Ledger.Phase} {g' : Gates}
    (hshift : phase.Shifts file phase' g g') {others : List Turn}
    (hturns : (phase.turns ++ others).Perm g.turns) : ∃ acts' k', Reached acts' g' k' := by
  cases hshift with
  | stay => exact ⟨_, _, h⟩
  | arrive => exact ⟨_, _, h.arrive file _⟩
  | leave ts hparts _ hleft =>
    have hrest : (ts ++ (phase'.turns ++ others)).Perm g.turns := by
      rw [← List.append_assoc]
      exact (hparts.symm.append_right _).trans hturns
    obtain ⟨acts', k', h'⟩ := h.leaveAll ts hrest
    rcases hleft with rfl | rfl
    · exact ⟨_, _, h'⟩
    · exact ⟨_, _, h'.prune⟩

/-- Whoever is at the head of the line can come to hold the lock, if he does not hold it yet. -/
theorem grant_of_isGranted (h : Reached acts g k) {t : Turn} (ht : t ∈ g.turns)
    (hgranted : g.isGranted t = true) : ∃ acts' k', Reached acts' g k' ∧
      (k'.lock t.gate).holder = some t ∧
      ∀ gate u, (k.lock gate).holder = some u → (k'.lock gate).holder = some u := by
  have hhead := (h.wellKept.isGranted_iff ht).mp hgranted
  rw [← h.shows.places, Lock.places] at hhead
  cases hholder : (k.lock t.gate).holder with
  | some u =>
    rw [hholder] at hhead
    obtain rfl : u = t := Option.some.inj hhead
    exact ⟨acts, k, h, hholder, fun _ _ hu => hu⟩
  | none =>
    rw [hholder] at hhead
    obtain ⟨rest, hqueue⟩ := List.head?_eq_some_iff.mp hhead
    refine ⟨_, _, h.grant t.gate hholder hqueue, ?_, fun gate u hu => ?_⟩
    · rw [lock_set_self, Lock.grant, show (k.lock t.gate).queue = t :: rest from hqueue]
      rfl
    · by_cases hgate : gate = t.gate
      · rw [hgate, hholder] at hu
        cases hu
      · rwa [lock_set_of_ne _ hgate]

theorem grantAll (ts : List Turn) : ∀ {acts : List Act} {k : Locks}, Reached acts g k →
    (∀ t ∈ ts, t ∈ g.turns ∧ g.isGranted t = true) → ∃ acts' k', Reached acts' g k' ∧
      (∀ t ∈ ts, (k'.lock t.gate).holder = some t) ∧
      ∀ gate u, (k.lock gate).holder = some u → (k'.lock gate).holder = some u := by
  induction ts with
  | nil => exact fun h _ => ⟨_, _, h, fun _ ht => absurd ht List.not_mem_nil, fun _ _ hu => hu⟩
  | cons t ts ih =>
    intro acts k h hall
    obtain ⟨ht, hgranted⟩ := hall t (List.mem_cons_self ..)
    obtain ⟨acts₁, k₁, h₁, hholder, hkeep₁⟩ := h.grant_of_isGranted ht hgranted
    obtain ⟨acts₂, k₂, h₂, hholders, hkeep₂⟩ := ih h₁ fun u hu => hall u (List.mem_cons_of_mem _ hu)
    refine ⟨acts₂, k₂, h₂, fun u hu => ?_, fun gate u hu => hkeep₂ gate u (hkeep₁ gate u hu)⟩
    rcases List.mem_cons.mp hu with rfl | hu
    · exact hkeep₂ _ _ hholder
    · exact hholders u hu

end Reached

theorem exists_reached_next {l : Ledger} {t t' : Ledger.Traffic} {event : Ledger.Event}
    (hmove : t.Moves l event t') (horderly : t.Orderly)
    (h : ∃ acts k, Reached acts t.desk.gates k) : ∃ acts k, Reached acts t'.desk.gates k := by
  obtain ⟨acts, k, h⟩ := h
  cases hmove with
  | idle => exact ⟨_, _, h⟩
  | ask => exact ⟨_, _, h⟩
  | change => exact ⟨_, _, h⟩
  | step hcalls hstep =>
    have hfit := horderly.fit _ (hcalls ▸ List.mem_append_right _ (List.mem_cons_self ..))
    exact h.shift (Ledger.Phase.shifts_step? hfit hstep) (horderly.perm_middle hcalls)
  | @abandon _ _ c hcalls =>
    exact h.shift (Ledger.Phase.shifts_abandon c.file ..) (horderly.perm_middle hcalls)

/-- The gates of all traffic come about by arrivals, grants, releases, cancellations and prunes, so
that they are the view of some locks; and whatever turn a call holds, it holds its lock. -/
theorem exists_reached_history (l : Ledger) (w : World) (events : Nat → Ledger.Event) (n : Nat) :
    ∃ acts k, Reached acts (Ledger.Traffic.history l w events n).desk.gates k ∧
      ∀ c ∈ (Ledger.Traffic.history l w events n).calls, ∀ u ∈ c.phase.held,
        (k.lock u.gate).holder = some u := by
  have hreached : ∃ acts k, Reached acts (Ledger.Traffic.history l w events n).desk.gates k := by
    induction n with
    | zero => exact ⟨_, _, .empty⟩
    | succ n ih =>
      exact exists_reached_next (Ledger.Traffic.moves_next l _ (events n))
        (Ledger.Traffic.Orderly.run l w events n) ih
  have horderly := Ledger.Traffic.Orderly.run l w events n
  generalize Ledger.Traffic.history l w events n = t at hreached horderly ⊢
  obtain ⟨acts, k, h⟩ := hreached
  -- what the calls hold is at the head of the lines
  have hheld : ∀ u ∈ t.calls.flatMap fun c => c.phase.held,
      u ∈ t.desk.gates.turns ∧ t.desk.gates.isGranted u = true := by
    intro u hu
    obtain ⟨c, hc, hu⟩ := List.mem_flatMap.mp hu
    have hmem : u ∈ t.turns := List.mem_flatMap.mpr ⟨c, hc, Ledger.Phase.mem_turns_of_mem_held hu⟩
    exact ⟨horderly.turns.mem_iff.mp hmem, horderly.held c hc u hu⟩
  obtain ⟨acts', k', h', hholders, -⟩ := h.grantAll _ hheld
  exact ⟨acts', k', h', fun c hc u hu => hholders u (List.mem_flatMap.mpr ⟨c, hc, hu⟩)⟩

end Locks

end Runbook
