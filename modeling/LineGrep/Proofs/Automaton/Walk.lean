import LineGrep.Automaton.Nfa
import LineGrep.Proofs.Automaton.Closure

/-!
Walks through a transition table and the words that they consume. Main statement: the set in which a
nondeterministic automaton is after a word holds exactly the states to which a walk over that word
leads.
-/

namespace LineGrep

/-- What a transition with a given label consumes. -/
def Slot.Consumes : Slot → List UInt8 → Prop
  | byte b, w => w = [b]
  | any, w => ∃ b, w = [b]
  | empty, w => w = []

namespace Table

variable {table : Table}

/-- A walk of a given number of transitions leads from one state over a word to another state. -/
inductive Walk (table : Table) : Nat → Nat → List UInt8 → Nat → Prop where
  | nil (id) : Walk table 0 id [] id
  | cons {n id next last s u v} : next ∈ (table.row id).targets s → Slot.Consumes s u →
      Walk table n next v last → Walk table (n + 1) id (u ++ v) last

theorem Walk.trans {m n first middle last : Nat} {u v : List UInt8}
    (h : table.Walk m first u middle) (h' : table.Walk n middle v last) :
    table.Walk (m + n) first (u ++ v) last := by
  induction h with
  | nil => simpa using h'
  | cons target consumes _ ih =>
    rw [List.append_assoc, Nat.add_right_comm]
    exact .cons target consumes (ih h')

theorem Walk.single {id next : Nat} {s : Slot} {u : List UInt8}
    (target : next ∈ (table.row id).targets s) (consumes : s.Consumes u) :
    table.Walk 1 id u next := by
  simpa using Walk.cons target consumes (.nil next)

theorem exists_walk_of_reaches {id last : Nat} (h : table.Reaches id last) :
    ∃ n, table.Walk n id [] last := by
  induction h with
  | refl => exact ⟨0, .nil _⟩
  | step _ target _ ih =>
    obtain ⟨n, walk⟩ := ih
    exact ⟨n + 1, .cons (u := []) target rfl walk⟩

/-- Every transition leads to a state of the table. -/
def Bounded (table : Table) : Prop :=
  ∀ id slot, ∀ next ∈ (table.row id).targets slot, next < table.size

theorem lt_size_of_mem_targets {id next : Nat} {slot : Slot}
    (h : next ∈ (table.row id).targets slot) : id < table.size := by
  rcases Nat.lt_or_ge id table.size with inside | outside
  · exact inside
  · simp [row, row?_eq_none_iff.2 outside] at h

theorem Bounded.reaches_of_mem_targets (bounded : table.Bounded) {id next : Nat}
    (h : next ∈ (table.row id).targets .empty) : table.Reaches id next :=
  .step (lt_size_of_mem_targets h) h (.refl (bounded id .empty next h))

end Table

namespace Nfa

variable {nfa : Nfa} {set : StateSet}

/-- The states after a word that is read from a set of states. -/
def after (nfa : Nfa) (set : StateSet) (w : List UInt8) : StateSet :=
  w.foldl nfa.step set

@[simp] theorem after_nil (nfa : Nfa) (set : StateSet) : nfa.after set [] = set := rfl

@[simp] theorem after_cons (nfa : Nfa) (set : StateSet) (b : UInt8) (w : List UInt8) :
    nfa.after set (b :: w) = nfa.after (nfa.step set b) w := rfl

/-- Empty transitions lead from the states of the set to states of the set only. -/
def IsClosed (nfa : Nfa) (set : StateSet) : Prop :=
  ∀ id ∈ set, ∀ last, nfa.table.Reaches id last → last ∈ set

theorem isClosed_closure (nfa : Nfa) (seeds : List Nat) : nfa.IsClosed (nfa.closure seeds) :=
  fun _ mem _ reach => Table.mem_closure_of_reaches mem reach

theorem mem_consume_iff {b : UInt8} {next : Nat} :
    next ∈ nfa.consume set b ↔
      ∃ id ∈ set, ∃ slot : Slot, slot.Consumes [b] ∧ next ∈ (nfa.table.row id).targets slot := by
  simp only [consume, List.mem_flatMap, List.mem_append, StateSet.mem_def]
  constructor
  · rintro ⟨id, mem, target | target⟩
    · exact ⟨id, mem, .byte b, rfl, target⟩
    · exact ⟨id, mem, .any, ⟨b, rfl⟩, target⟩
  · rintro ⟨id, mem, slot, consumes, target⟩
    refine ⟨id, mem, ?_⟩
    cases slot with
    | byte c =>
      obtain rfl : b = c := by simpa [Slot.Consumes] using consumes
      exact Or.inl target
    | any => exact Or.inr target
    | empty => simp [Slot.Consumes] at consumes

theorem mem_step_iff {b : UInt8} {last : Nat} :
    last ∈ nfa.step set b ↔ ∃ next ∈ nfa.consume set b, nfa.table.Reaches next last :=
  Table.mem_closure_iff

theorem exists_walk_of_mem_after {w : List UInt8} {last : Nat} (h : last ∈ nfa.after set w) :
    ∃ id ∈ set, ∃ n, nfa.table.Walk n id w last := by
  induction w generalizing set with
  | nil => exact ⟨last, h, 0, .nil last⟩
  | cons b w ih =>
    obtain ⟨middle, mem, n, walk⟩ := ih h
    obtain ⟨next, consumed, reach⟩ := mem_step_iff.1 mem
    obtain ⟨id, hid, slot, consumes, target⟩ := mem_consume_iff.1 consumed
    obtain ⟨m, spread⟩ := Table.exists_walk_of_reaches reach
    exact ⟨id, hid, m + n + 1, .cons (u := [b]) target consumes (spread.trans walk)⟩

theorem mem_after_of_walk (bounded : nfa.table.Bounded) {n id last : Nat} {w : List UInt8}
    (walk : nfa.table.Walk n id w last) (closed : nfa.IsClosed set) (mem : id ∈ set) :
    last ∈ nfa.after set w := by
  -- On the walk, not on the word: an empty transition leaves the word as it is.
  induction walk generalizing set with
  | nil => exact mem
  | @cons _ id next _ slot _ _ target consumes _ ih =>
    have step {b : UInt8} (hb : slot.Consumes [b]) : next ∈ nfa.step set b :=
      mem_step_iff.2 ⟨next, mem_consume_iff.2 ⟨id, mem, slot, hb, target⟩,
        .refl (bounded id slot next target)⟩
    cases slot with
    | byte c =>
      obtain rfl := consumes
      exact ih (nfa.isClosed_closure _) (step rfl)
    | any =>
      obtain ⟨b, rfl⟩ := consumes
      exact ih (nfa.isClosed_closure _) (step ⟨b, rfl⟩)
    | empty =>
      obtain rfl := consumes
      exact ih closed (closed id mem next (bounded.reaches_of_mem_targets target))

/-- An automaton is after a word in the states to which a walk over the word leads. -/
theorem mem_after_start_iff (bounded : nfa.table.Bounded) (lt : nfa.initial < nfa.size)
    {w : List UInt8} {last : Nat} :
    last ∈ nfa.after nfa.start w ↔ ∃ n, nfa.table.Walk n nfa.initial w last := by
  constructor
  · intro h
    obtain ⟨id, mem, n, walk⟩ := exists_walk_of_mem_after h
    obtain ⟨seed, hs, reach⟩ := Table.mem_closure_iff.1 mem
    obtain rfl := List.mem_singleton.1 hs
    obtain ⟨m, spread⟩ := Table.exists_walk_of_reaches reach
    exact ⟨m + n, spread.trans walk⟩
  · rintro ⟨n, walk⟩
    exact mem_after_of_walk bounded walk (nfa.isClosed_closure _)
      (Table.mem_closure_iff.2 ⟨nfa.initial, List.mem_singleton_self _, .refl lt⟩)

theorem not_mem_after_of_isEmpty (h : set.isEmpty = true) (w : List UInt8) (last : Nat) :
    last ∉ nfa.after set w := by
  intro mem
  obtain ⟨id, hid, _⟩ := exists_walk_of_mem_after mem
  exact StateSet.isEmpty_iff.1 h id hid

theorem isEmpty_after_of_isEmpty (h : set.isEmpty = true) (w : List UInt8) :
    (nfa.after set w).isEmpty = true :=
  StateSet.isEmpty_iff.2 (not_mem_after_of_isEmpty h w)

/-- Reading a word of the alphabet to its end or to the last state gives the same answer. -/
theorem acceptsFrom_map_charOf (nfa : Nfa) (set : StateSet) (w : List UInt8) :
    nfa.acceptsFrom set (w.map charOf) = .ok ((nfa.after set w).contains nfa.accept) := by
  induction w generalizing set with
  | nil => rfl
  | cons b w ih =>
    simp only [List.map_cons, acceptsFrom, byteOf?_charOf, after_cons]
    split
    · next stopped =>
      have : (nfa.after (nfa.step set b) w).contains nfa.accept = false := by
        rw [← Bool.not_eq_true, StateSet.contains_iff]
        exact not_mem_after_of_isEmpty stopped w nfa.accept
      rw [this]
    · exact ih (nfa.step set b)

end Nfa

end LineGrep
