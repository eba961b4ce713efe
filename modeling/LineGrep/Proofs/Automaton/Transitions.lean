import LineGrep.Proofs.Automaton.Numbering

/-!
The transitions of the deterministic automaton and the steps of the other one. A state has a slot
for each byte that some state of its set has a slot for, and one for the wildcard if some state of
its set has one. A slot of a byte wins over that of the wildcard, so it has to lead where both lead
together. Main statement: whichever slot decides, a byte leads to the state that stands for the set
after a step.
-/

namespace LineGrep

theorem Cursor.move_eq_ok_iff {dfa : Dfa} {k : Nat} {b : UInt8} {c : Cursor} :
    (Cursor.mk dfa k).move (charOf b) = .ok c ↔ ∃ id, dfa.next? k b = some id ∧ c = ⟨dfa, id⟩ := by
  rw [move, byteOf?_charOf]
  cases moved : dfa.next? k b <;> simp [moved, eq_comm]

namespace Dfa

variable {nfa : Nfa} {k : Fin (ofNfa nfa).size} {slot : Slot} {id : Nat}

/-- A slot holds the number of the set to which its label moves. -/
theorem target_ofNfa_eq_some_iff (rooted : nfa.Rooted) :
    ((ofNfa nfa).table.row k).target slot = some id ↔
      ∃ next, id = next.val ∧ (slot, setOf nfa next) ∈ nfa.moves (setOf nfa k) := by
  have held : ((ofNfa nfa).table.row k).target slot = some id ↔
      id ∈ ((ofNfa nfa).table.row k).targets slot := by
    rw [row_eq_subsetRow, targets_subsetRow, Option.mem_toList]
  rw [held, (numbers_ofNfa rooted).mem_targets_iff]
  simp only [Nfa.mem_moves_iff_leads]

/-- The slots of a state are those of the states of its set. -/
theorem exists_target_ofNfa_iff (rooted : nfa.Rooted) (consuming : slot ≠ .empty) :
    (∃ id, ((ofNfa nfa).table.row k).target slot = some id) ↔
      ∃ id ∈ setOf nfa k, (nfa.table.row id).targets slot ≠ [] := by
  rw [← Nfa.targets_ne_nil_iff]
  constructor
  · rintro ⟨id, held⟩
    obtain ⟨next, -, move⟩ := (target_ofNfa_eq_some_iff rooted).1 held
    exact (Nfa.mem_moves_iff.1 move).2.1
  · intro some
    have move := Nfa.mem_moves_iff.2 ⟨consuming, some, rfl⟩
    have found := Nfa.mem_subsets_of_move (mem_subsets_iff_setOf.2 ⟨k, rfl⟩) move
    obtain ⟨next, same⟩ := mem_subsets_iff_setOf.1 found
    exact ⟨next, (target_ofNfa_eq_some_iff rooted).2 ⟨next, rfl, same ▸ move⟩⟩

/-- The wildcard leads where its own targets lead, without those of any byte. -/
theorem setOf_of_target_any (rooted : nfa.Rooted)
    (held : ((ofNfa nfa).table.row k).target .any = some id) :
    ∃ next, id = next.val ∧ setOf nfa next = nfa.closure (nfa.targets (setOf nfa k) .any) := by
  obtain ⟨next, number, move⟩ := (target_ofNfa_eq_some_iff rooted).1 held
  exact ⟨next, number, (Nfa.mem_moves_iff.1 move).2.2⟩

theorem next?_ofNfa_eq_none_iff (rooted : nfa.Rooted) {b : UInt8} :
    (ofNfa nfa).next? k b = none ↔ (nfa.step (setOf nfa k) b).isEmpty = true := by
  rw [next?_ofNfa rooted.bounded (getElem?_subsets nfa k)]
  split <;> simp_all

theorem next?_ofNfa_eq_some_iff (rooted : nfa.Rooted) {b : UInt8} :
    (ofNfa nfa).next? k b = some id ↔
      ∃ next, id = next.val ∧ setOf nfa next = nfa.step (setOf nfa k) b := by
  rw [next?_ofNfa rooted.bounded (getElem?_subsets nfa k)]
  cases stopped : (nfa.step (setOf nfa k) b).isEmpty with
  | true =>
    -- No state stands for the set without states.
    refine iff_of_false (by simp) ?_
    rintro ⟨next, -, same⟩
    obtain ⟨id, mem⟩ := (numbers_ofNfa rooted).inhabited next
    exact StateSet.isEmpty_iff.1 stopped id (same ▸ mem)
  | false =>
    have found := Nfa.step_mem_subsets rooted.bounded (mem_subsets_iff_setOf.2 ⟨k, rfl⟩) stopped
    obtain ⟨number, same⟩ := mem_subsets_iff_setOf.1 found
    rw [← same, idxOf_setOf]
    constructor
    · intro moved
      exact ⟨number, by simpa using moved.symm, rfl⟩
    · rintro ⟨next, rfl, equal⟩
      rw [setOf_injective nfa equal]
      rfl

/-- What the row of a state says of a byte and of the wildcard, for the sets of the states. -/
structure Steps (dfa : Dfa) (nfa : Nfa) (S : Fin dfa.size → StateSet) (k : Fin dfa.size) :
    Prop where
  /-- The byte leads to a state exactly if that state stands for the set after a step. The slot of
  the byte decides, or that of the wildcard if there is none. -/
  leads_iff : ∀ (b : UInt8) (id : Nat),
    ((dfa.table.row k).target (.byte b)).or ((dfa.table.row k).target .any) = some id ↔
      ∃ next : Fin dfa.size, id = next ∧ S next = nfa.step (S k) b
  stuck_iff : ∀ b : UInt8,
    (dfa.table.row k).target (.byte b) = none ∧ (dfa.table.row k).target .any = none ↔
      ∀ id, id ∉ nfa.step (S k) b
  byte_iff : ∀ b : UInt8, (∃ id, (dfa.table.row k).target (.byte b) = some id) ↔
    ∃ id ∈ S k, (nfa.table.row id).targets (.byte b) ≠ []
  any_iff : (∃ id, (dfa.table.row k).target .any = some id) ↔
    ∃ id ∈ S k, (nfa.table.row id).targets .any ≠ []
  any_leads : ∀ id, (dfa.table.row k).target .any = some id →
    ∃ next : Fin dfa.size, id = next ∧ S next = nfa.closure (nfa.targets (S k) .any)

theorem steps_ofNfa (rooted : nfa.Rooted) (k : Fin (ofNfa nfa).size) :
    (ofNfa nfa).Steps nfa (setOf nfa) k where
  leads_iff _ _ := next?_ofNfa_eq_some_iff rooted
  stuck_iff b := by
    rw [← StateSet.isEmpty_iff, ← Option.or_eq_none_iff]
    exact next?_ofNfa_eq_none_iff rooted
  byte_iff _ := exists_target_ofNfa_iff rooted (by simp)
  any_iff := exists_target_ofNfa_iff rooted (by simp)
  any_leads _ := setOf_of_target_any rooted

/-- From the state of a set, each byte takes the deterministic automaton of an expression to the
state of the set after a step, and nowhere if no state is left then; the cursor moves so. The slots
of a state are those of the states of its set, and the wildcard leads where its own targets lead. -/
theorem transitions_follow_steps (t : Regex) :
    let nfa := Nfa.ofRegex t
    let dfa := ofNfa nfa
    nfa.determinize? = some ⟨dfa, dfa.events⟩ ∧
      ∃ S : Fin dfa.size → StateSet, dfa.Numbers nfa S ∧ ∀ k, dfa.Steps nfa S k ∧
        ∀ (b : UInt8) (c : Cursor), (Cursor.mk dfa k).move (charOf b) = .ok c ↔
          ∃ next : Fin dfa.size, c = ⟨dfa, next⟩ ∧ S next = nfa.step (S k) b := by
  have rooted := Nfa.rooted_ofRegex t
  refine ⟨Nfa.determinize?_eq rooted, setOf _, numbers_ofNfa rooted, fun k => ⟨steps_ofNfa rooted k, fun b c => ?_⟩⟩
  rw [Cursor.move_eq_ok_iff]
  constructor
  · rintro ⟨id, moved, rfl⟩
    obtain ⟨next, rfl, same⟩ := (next?_ofNfa_eq_some_iff rooted).1 moved
    exact ⟨next, rfl, same⟩
  · rintro ⟨next, rfl, same⟩
    exact ⟨next, (next?_ofNfa_eq_some_iff rooted).2 ⟨next, rfl, same⟩, rfl⟩

end Dfa

end LineGrep
