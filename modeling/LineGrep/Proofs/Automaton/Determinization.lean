import LineGrep.Automaton.Cursor
import LineGrep.Proofs.Automaton.Subset

/-!
The deterministic automaton as a simulation of the other one. Each state stands for a set, and the
cursor shows the set of the state on which it is. A byte moves the cursor to the set after a step,
or not at all if that set is empty. Main statement: both automata give the same answer to each word,
errors included.
-/

namespace LineGrep

namespace Nfa

variable {nfa : Nfa} {set : StateSet} {b : UInt8}

theorem closure_congr {front back : List Nat} (h : ∀ id, id ∈ front ↔ id ∈ back) :
    nfa.closure front = nfa.closure back :=
  Table.closure_congr h

theorem mem_consume_iff_targets {next : Nat} :
    next ∈ nfa.consume set b ↔ next ∈ nfa.targets set (.byte b) ∨ next ∈ nfa.targets set .any := by
  simp only [consume, targets, List.mem_flatMap, List.mem_append]
  constructor
  · rintro ⟨id, mem, target | target⟩
    · exact Or.inl ⟨id, mem, target⟩
    · exact Or.inr ⟨id, mem, target⟩
  · rintro (⟨id, mem, target⟩ | ⟨id, mem, target⟩)
    · exact ⟨id, mem, Or.inl target⟩
    · exact ⟨id, mem, Or.inr target⟩

theorem mem_moves_byte (some : nfa.targets set (.byte b) ≠ []) :
    (.byte b, nfa.step set b) ∈ nfa.moves set := by
  refine mem_moves_iff.2 ⟨by simp, some, closure_congr fun next => ?_⟩
  rw [mem_consume_iff_targets, foldedTargets, List.mem_append]

theorem mem_moves_any (none : nfa.targets set (.byte b) = []) (some : nfa.targets set .any ≠ []) :
    (.any, nfa.step set b) ∈ nfa.moves set := by
  refine mem_moves_iff.2 ⟨by simp, some, closure_congr fun next => ?_⟩
  simp [mem_consume_iff_targets, none, foldedTargets]

theorem not_mem_moves {slot : Slot} (none : nfa.targets set slot = []) (next : StateSet) :
    (slot, next) ∉ nfa.moves set :=
  fun move => (mem_moves_iff.1 move).2.1 none

/-- A step ends in no state exactly when no transition consumes the byte. -/
theorem isEmpty_step_iff (bounded : nfa.table.Bounded) :
    (nfa.step set b).isEmpty = true ↔
      nfa.targets set (.byte b) = [] ∧ nfa.targets set .any = [] := by
  rw [StateSet.isEmpty_iff, List.eq_nil_iff_forall_not_mem, List.eq_nil_iff_forall_not_mem]
  constructor
  · intro none
    have unmoved : ∀ next, next ∉ nfa.consume set b := by
      intro next mem
      obtain ⟨id, _, slot, _, target⟩ := mem_consume_iff.1 mem
      exact none next (mem_step_iff.2 ⟨next, mem, .refl (bounded id slot next target)⟩)
    exact ⟨fun next mem => unmoved next (mem_consume_iff_targets.2 (Or.inl mem)),
      fun next mem => unmoved next (mem_consume_iff_targets.2 (Or.inr mem))⟩
  · rintro ⟨noByte, noAny⟩ last mem
    obtain ⟨next, consumed, -⟩ := mem_step_iff.1 mem
    rcases mem_consume_iff_targets.1 consumed with target | target
    · exact noByte next target
    · exact noAny next target

end Nfa

namespace Dfa

variable {nfa : Nfa} {set : StateSet}

theorem lastPosition?_eq_none {α : Type} {p : α → Bool} {l : List α}
    (h : ∀ a ∈ l, p a = false) : lastPosition? p l = none := by
  induction l with
  | nil => rfl
  | cons a rest ih =>
    obtain ⟨first, others⟩ := List.forall_mem_cons.1 h
    simp [lastPosition?, ih others, first]

theorem initial_ofNfa (rooted : nfa.Rooted) : (ofNfa nfa).initial = 0 := by
  obtain ⟨rest, same⟩ := nfa.subsets_eq_start_cons
  have distinct := (Nfa.exploring_subsets nfa).distinct
  rw [same, List.nodup_cons] at distinct
  have others : lastPosition? (·.contains nfa.initial) rest = none := by
    apply lastPosition?_eq_none
    intro set mem
    have reached : nfa.Reached set := Nfa.mem_subsets_iff.1 (same ▸ List.mem_cons_of_mem _ mem)
    rw [← Bool.not_eq_true, StateSet.contains_iff, rooted.initial_mem_iff reached]
    rintro rfl
    exact distinct.1 mem
  have first : nfa.start.contains nfa.initial = true :=
    StateSet.contains_iff.2 rooted.initial_mem_start
  simp only [ofNfa, same, lastPosition?, others, first, if_true, Option.getD_some]

theorem row_ofNfa {k : Nat} (h : nfa.subsets[k]? = some set) :
    (ofNfa nfa).table.row k = subsetRow nfa nfa.subsets set := by
  simp [ofNfa, Table.row, Table.row?, h]

/-- The slots of a state are those that its set moves on, and each holds the number of one set. -/
theorem targets_subsetRow_eq (nfa : Nfa) (subsets : List StateSet) (set : StateSet) (slot : Slot) :
    (subsetRow nfa subsets set).targets slot =
      if slot ≠ .empty ∧ nfa.targets set slot ≠ [] then
        [subsets.idxOf (nfa.closure (nfa.foldedTargets set slot))]
      else [] := by
  rw [subsetRow, Nfa.moves, List.map_map]
  refine (targets_rowOf _ (fun s => subsets.idxOf (nfa.closure (nfa.foldedTargets set s)))
    _ _ slot).trans ?_
  simp only [List.mem_filter, Slot.mem_consuming_iff, Bool.not_eq_true', List.isEmpty_eq_false_iff]

theorem target_of_mem_moves {slot : Slot} {next : StateSet} (move : (slot, next) ∈ nfa.moves set)
    (subsets : List StateSet) :
    (subsetRow nfa subsets set).target slot = some (subsets.idxOf next) := by
  obtain ⟨consumes, some, rfl⟩ := Nfa.mem_moves_iff.1 move
  rw [Row.target, targets_subsetRow_eq, if_pos ⟨consumes, some⟩]
  rfl

theorem target_eq_none {slot : Slot} (h : ∀ next, (slot, next) ∉ nfa.moves set)
    (subsets : List StateSet) : (subsetRow nfa subsets set).target slot = none := by
  have none : ¬(slot ≠ .empty ∧ nfa.targets set slot ≠ []) := by
    rintro ⟨consumes, some⟩
    exact h _ (Nfa.mem_moves_iff.2 ⟨consumes, some, rfl⟩)
  rw [Row.target, targets_subsetRow_eq, if_neg none]
  rfl

/-- A byte leads to the state of the set after a step, if that set has states. -/
theorem next?_ofNfa (bounded : nfa.table.Bounded) {k : Nat} (h : nfa.subsets[k]? = some set)
    (b : UInt8) : (ofNfa nfa).next? k b =
      if (nfa.step set b).isEmpty then none else some (nfa.subsets.idxOf (nfa.step set b)) := by
  rw [next?, row_ofNfa h]
  -- A byte with a slot of its own has the wildcard's targets folded in.
  by_cases byte : nfa.targets set (.byte b) = []
  · rw [target_eq_none (Nfa.not_mem_moves byte)]
    by_cases any : nfa.targets set .any = []
    · rw [target_eq_none (Nfa.not_mem_moves any),
        if_pos ((Nfa.isEmpty_step_iff bounded).2 ⟨byte, any⟩)]
      rfl
    · rw [target_of_mem_moves (Nfa.mem_moves_any byte any),
        if_neg fun none => any ((Nfa.isEmpty_step_iff bounded).1 none).2]
      rfl
  · rw [target_of_mem_moves (Nfa.mem_moves_byte byte),
      if_neg fun none => byte ((Nfa.isEmpty_step_iff bounded).1 none).1]
    rfl

end Dfa

namespace Nfa

variable {nfa : Nfa} {set : StateSet} {b : UInt8}

theorem step_mem_subsets (bounded : nfa.table.Bounded) (mem : set ∈ nfa.subsets)
    (some : (nfa.step set b).isEmpty = false) : nfa.step set b ∈ nfa.subsets := by
  by_cases byte : nfa.targets set (.byte b) = []
  · refine mem_subsets_of_move mem (mem_moves_any byte fun any => ?_)
    simp [(isEmpty_step_iff bounded).2 ⟨byte, any⟩] at some
  · exact mem_subsets_of_move mem (mem_moves_byte byte)

end Nfa

namespace Cursor

variable {nfa : Nfa} {set : StateSet} {c : Cursor}

/-- The cursor is on the state that stands for a set. -/
structure Shows (c : Cursor) (nfa : Nfa) (set : StateSet) : Prop where
  dfa : c.dfa = Dfa.ofNfa nfa
  current : nfa.subsets[c.current]? = some set

theorem shows_start (rooted : nfa.Rooted) : (start (Dfa.ofNfa nfa)).Shows nfa nfa.start := by
  obtain ⟨rest, same⟩ := nfa.subsets_eq_start_cons
  refine ⟨rfl, ?_⟩
  rw [start, Dfa.initial_ofNfa rooted, same]
  rfl

theorem Shows.isAccepting (h : c.Shows nfa set) : c.isAccepting = set.contains nfa.accept := by
  rw [Cursor.isAccepting, Dfa.isAccepting, h.dfa, Dfa.row_ofNfa h.current]
  rfl

theorem Shows.move_eq_error (h : c.Shows nfa set) (bounded : nfa.table.Bounded) {b : UInt8}
    (none : (nfa.step set b).isEmpty = true) : c.move (charOf b) = .error .noTransition := by
  simp [move, h.dfa, Dfa.next?_ofNfa bounded h.current, none]

theorem Shows.move_eq_ok (h : c.Shows nfa set) (bounded : nfa.table.Bounded) {b : UInt8}
    (some : (nfa.step set b).isEmpty = false) :
    ∃ next, c.move (charOf b) = .ok next ∧ next.Shows nfa (nfa.step set b) := by
  have mem : nfa.step set b ∈ nfa.subsets :=
    Nfa.step_mem_subsets bounded (List.mem_of_getElem? h.current) some
  refine ⟨⟨c.dfa, nfa.subsets.idxOf (nfa.step set b)⟩, ?_, h.dfa, List.getElem?_idxOf mem⟩
  simp [move, h.dfa, Dfa.next?_ofNfa bounded h.current, some]

/-- From a state and from its set, what is left of a word is read with the same answer, and the
cursor is put back whatever the answer is. -/
theorem Shows.readThrough_eq (h : c.Shows nfa set) (bounded : nfa.table.Bounded)
    (word : List Char) :
    c.readThrough c.isAccepting word = (nfa.acceptsFrom set word, start (Dfa.ofNfa nfa)) := by
  have back : c.reset = start (Dfa.ofNfa nfa) := congrArg start h.dfa
  induction word generalizing c set with
  | nil => rw [readThrough, Nfa.acceptsFrom, h.isAccepting, back]
  | cons ch rest ih =>
    rw [readThrough, Nfa.acceptsFrom, input]
    cases hb : byteOf? ch with
    | none => simp [move, hb, back]
    | some b =>
      obtain rfl := byteOf?_eq_some_iff.1 hb
      cases stopped : (nfa.step set b).isEmpty with
      | true => simp [h.move_eq_error bounded stopped, stopped, back]
      | false =>
        obtain ⟨next, moved, shows'⟩ := h.move_eq_ok bounded stopped
        have back' : next.reset = start (Dfa.ofNfa nfa) := congrArg start shows'.dfa
        simp [moved, stopped, ih shows' back']

/-- Wherever the cursor was before, the deterministic automaton of an expression answers each word
as the nondeterministic one does. -/
theorem accepts_eq_accepts_nfa (t : Regex) (current : Nat) (word : List Char) :
    ((Cursor.mk (Dfa.ofNfa (Nfa.ofRegex t)) current).accepts word).1 =
      (Nfa.ofRegex t).accepts word :=
  congrArg Prod.fst
    ((shows_start (Nfa.rooted_ofRegex t)).readThrough_eq (Nfa.rooted_ofRegex t).bounded word)

end Cursor

end LineGrep
