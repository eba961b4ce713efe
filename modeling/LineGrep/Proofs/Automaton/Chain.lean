import LineGrep.Proofs.Automaton.BreadthFirst
import LineGrep.Proofs.Automaton.Shape
import LineGrep.Proofs.Pattern.Derivation

/-!
Expressions without alternatives and repetitions, such as those of literal patterns. However the
neighbours are grouped, the states of such an expression are laid out from the last leaf to the
first, two for each. A set that the search for subsets meets then holds one state that consumes a
byte, so it has one move, and the sets are found one after the other. Main statement: the
deterministic automaton of a literal pattern is a chain with one state more than the pattern has
characters.
-/

namespace LineGrep

/-- The label of the transition that consumes a leaf. -/
def Regex.Leaf.slot : Leaf → Slot
  | .literal b => .byte b
  | .dot => .any

theorem Regex.Leaf.slot_ne_empty (leaf : Leaf) : leaf.slot ≠ .empty := by
  cases leaf <;> simp [slot]

/-- The label of the transition that consumes a character of a literal pattern. -/
def Slot.ofChar (c : Char) : Slot :=
  if c = Pattern.wildcard then .any else .byte (UInt8.ofNat c.toNat)

namespace Fragment

/-- The fragment of leaves side by side, by their labels. -/
def chain : List Slot → (base continuation : Nat) → Fragment
  | [], _, continuation => ⟨[], continuation⟩
  | slot :: rest, base, continuation =>
    let second := chain rest base continuation
    let first := single slot (base + second.rows.length) second.entry
    ⟨second.rows ++ first.rows, first.entry⟩

theorem chain_append (front back : List Slot) (base continuation : Nat) :
    chain (front ++ back) base continuation =
      let second := chain back base continuation
      let first := chain front (base + second.rows.length) second.entry
      ⟨second.rows ++ first.rows, first.entry⟩ := by
  induction front with
  | nil => simp [chain]
  | cons slot front ih => simp [chain, ih, Nat.add_assoc]

theorem length_chain (slots : List Slot) (base continuation : Nat) :
    (chain slots base continuation).rows.length = 2 * slots.length := by
  induction slots with
  | nil => rfl
  | cons slot rest ih =>
    simp only [chain, single, List.length_append, List.length_cons, List.length_nil, ih]
    omega

/-- The accepting state, which is the continuation here, counts as the entry of no leaves. -/
theorem entry_chain (slots : List Slot) : (chain slots 1 0).entry = 2 * slots.length - 1 := by
  cases slots with
  | nil => rfl
  | cons slot rest =>
    simp only [chain, single, length_chain, List.length_cons]
    omega

theorem ofRegex_eq_chain {t : Regex} (single : t.alternatives = 0) (once : t.repetitions = 0)
    (base continuation : Nat) :
    ofRegex t base continuation = chain (t.leaves.map (·.slot)) base continuation := by
  induction t generalizing base continuation with
  | literal | dot => rfl
  | cat left right ihl ihr =>
    simp only [Regex.alternatives, Regex.repetitions, Nat.add_eq_zero_iff] at single once
    rw [Regex.leaves, List.map_append, chain_append, ← ihr single.2 once.2]
    simp only [← ihl single.1 once.1]
    rfl
  | alt => exact absurd single (Nat.succ_ne_zero _)
  | star => exact absurd once (Nat.succ_ne_zero _)

end Fragment

namespace Table

variable {table : Table} {id next last : Nat}

theorem reaches_iff_of_rests (inside : id < table.size)
    (rests : (table.row id).targets .empty = []) : table.Reaches id last ↔ last = id := by
  constructor
  · intro reach
    cases reach with
    | refl => rfl
    | step _ target _ => exact absurd (rests ▸ target) List.not_mem_nil
  · rintro rfl
    exact .refl inside

theorem reaches_iff_of_passes (inside : id < table.size)
    (passes : (table.row id).targets .empty = [next]) :
    table.Reaches id last ↔ last = id ∨ table.Reaches next last := by
  constructor
  · intro reach
    cases reach with
    | refl => exact Or.inl rfl
    | step _ target rest =>
      obtain rfl := List.mem_singleton.1 (passes ▸ target)
      exact Or.inr rest
  · rintro (rfl | rest)
    · exact .refl inside
    · exact .step inside (passes ▸ List.mem_singleton_self _) rest

end Table

namespace Row

theorem targets_empty_add (slot s : Slot) (target : Nat) :
    (empty.add slot target).targets s = if s = slot then [target] else [] := by
  rw [targets_add, targets_empty]
  rfl

end Row

namespace Nfa

/-- The automaton is a chain for leaves with the given labels. The states for the `i`th of `n`
leaves are `2 * (n - i) - 1`, which consumes it, and then `2 * (n - i)`. The accepting state stands
in the place of one that would consume a leaf behind the last. -/
structure Chained (nfa : Nfa) (slots : List Slot) : Prop where
  consumes : ∀ slot ∈ slots, slot ≠ .empty
  size : nfa.size = 2 * slots.length + 1
  initial : nfa.initial = 2 * slots.length - 1
  accept : nfa.accept = 0
  reads : ∀ i ≤ slots.length, ∀ s, (nfa.table.row (2 * (slots.length - i) - 1)).targets s =
    if slots[i]? = some s then [2 * (slots.length - i)] else []
  passes : ∀ i < slots.length, ∀ s, (nfa.table.row (2 * (slots.length - i))).targets s =
    if s = .empty then [2 * (slots.length - (i + 1)) - 1] else []

/-- What a table with the rows of a chain holds for each leaf. -/
theorem targets_of_holds_chain {table : Table} {slots : List Slot}
    (holds : table.Holds 1 (Fragment.chain slots 1 0).rows) (i : Nat) (h : i < slots.length) :
    (table.row (2 * (slots.length - i) - 1)).targets =
        (Row.empty.add slots[i] (2 * (slots.length - i))).targets ∧
      (table.row (2 * (slots.length - i))).targets =
        (Row.empty.add .empty (2 * (slots.length - (i + 1)) - 1)).targets := by
  induction slots generalizing i with
  | nil => exact absurd h (Nat.not_lt_zero i)
  | cons slot rest ih =>
    cases i with
    | zero =>
      have rows := holds.right
      simp only [Fragment.single, Fragment.length_chain, Fragment.entry_chain] at rows
      have place : 2 * ((slot :: rest).length - 0) = 1 + 2 * rest.length + 1 := by
        rw [List.length_cons]
        omega
      have behind : (slot :: rest).length - (0 + 1) = rest.length := rfl
      rw [place, behind]
      exact ⟨rows.head, rows.tail.head⟩
    | succ i =>
      have same (k : Nat) : (slot :: rest).length - (k + 1) = rest.length - k := by
        rw [List.length_cons]
        omega
      rw [same, same]
      exact ih holds.left i (Nat.lt_of_succ_lt_succ h)

theorem chained_ofRegex {t : Regex} (single : t.alternatives = 0) (once : t.repetitions = 0) :
    (ofRegex t).Chained (t.leaves.map (·.slot)) := by
  have same := Fragment.ofRegex_eq_chain single once 1 0
  have holds : (ofRegex t).table.Holds 1 (Fragment.chain (t.leaves.map (·.slot)) 1 0).rows :=
    same ▸ holds_fragment t
  refine ⟨fun slot mem => ?_, ?_, ?_, rfl, fun i le s => ?_, fun i h s => ?_⟩
  · obtain ⟨leaf, -, rfl⟩ := List.mem_map.1 mem
    exact leaf.slot_ne_empty
  · rw [size_ofRegex, Fragment.stateCount_eq, single, once, List.length_map]
  · rw [ofRegex, same, Fragment.entry_chain]
  · rcases Nat.lt_or_eq_of_le le with inside | rfl
    · rw [(targets_of_holds_chain holds i inside).1, Row.targets_empty_add,
        List.getElem?_eq_getElem inside]
      simp only [Option.some.injEq, eq_comm]
    · rw [List.getElem?_length, Nat.sub_self]
      exact (congrFun (holds_ofRegex t).head s).trans (Row.targets_empty s)
  · rw [(targets_of_holds_chain holds i h).2, Row.targets_empty_add]

/-- The state that a chain of `count` leaves enters after the first `i` of them. -/
def place (count : Nat) : Nat → Nat
  | 0 => 2 * count - 1
  | i + 1 => 2 * (count - i)

/-- The set of states in which a chain of `count` leaves is after the first `i` of them. -/
def stage (nfa : Nfa) (count i : Nat) : StateSet :=
  nfa.closure [place count i]

namespace Chained

variable {nfa : Nfa} {slots : List Slot} {i : Nat} {slot : Slot}

theorem ne_empty (h : nfa.Chained slots) (label : slots[i]? = some slot) : slot ≠ .empty :=
  h.consumes slot (List.mem_of_getElem? label)

theorem stage_zero (h : nfa.Chained slots) : nfa.stage slots.length 0 = nfa.start := by
  rw [stage, place, start, h.initial]

theorem mem_stage_iff (h : nfa.Chained slots) (le : i ≤ slots.length) {id : Nat} :
    id ∈ nfa.stage slots.length i ↔
      id = place slots.length i ∨ id = 2 * (slots.length - i) - 1 := by
  have size : nfa.table.size = 2 * slots.length + 1 := h.size
  have rests : (nfa.table.row (2 * (slots.length - i) - 1)).targets .empty = [] := by
    rw [h.reads i le, if_neg fun label => h.ne_empty label rfl]
  have rest {last : Nat} : nfa.table.Reaches (2 * (slots.length - i) - 1) last ↔
      last = 2 * (slots.length - i) - 1 :=
    Table.reaches_iff_of_rests (by omega) rests
  rw [stage, closure, Table.mem_closure_iff]
  simp only [List.mem_singleton, exists_eq_left]
  cases i with
  | zero => exact rest.trans or_self_iff.symm
  | succ i =>
    have passes := h.passes i le .empty
    rw [if_pos rfl] at passes
    rw [place, Table.reaches_iff_of_passes (by omega) passes, rest]

/-- Different stages are told apart by the state that is to consume the next leaf. -/
theorem stage_inj (h : nfa.Chained slots) {j : Nat} (hi : i ≤ slots.length) (hj : j ≤ slots.length)
    (same : nfa.stage slots.length i = nfa.stage slots.length j) : i = j := by
  have mem : 2 * (slots.length - i) - 1 ∈ nfa.stage slots.length j :=
    same ▸ (h.mem_stage_iff hi).2 (Or.inr rfl)
  rw [h.mem_stage_iff hj] at mem
  cases j with
  | zero => simp only [place] at mem; omega
  | succ j => simp only [place] at mem; omega

/-- Of the states at a stage, one at most consumes bytes, and it does so in one way. -/
theorem exists_targets_iff (h : nfa.Chained slots) (le : i ≤ slots.length) (consumes : slot ≠ .empty)
    {next : Nat} :
    (∃ id ∈ nfa.stage slots.length i, next ∈ (nfa.table.row id).targets slot) ↔
      slots[i]? = some slot ∧ next = place slots.length (i + 1) := by
  have reads : next ∈ (nfa.table.row (2 * (slots.length - i) - 1)).targets slot ↔
      slots[i]? = some slot ∧ next = place slots.length (i + 1) := by
    rw [h.reads i le]
    split <;> simp [*, place]
  constructor
  · rintro ⟨id, mem, target⟩
    rcases (h.mem_stage_iff le).1 mem with rfl | rfl
    · cases i with
      | zero => exact reads.1 target
      | succ i =>
        rw [place, h.passes i le, if_neg consumes] at target
        exact absurd target List.not_mem_nil
    · exact reads.1 target
  · intro found
    exact ⟨_, (h.mem_stage_iff le).2 (Or.inr rfl), reads.2 found⟩

theorem targets_stage_ne_nil_iff (h : nfa.Chained slots) (le : i ≤ slots.length)
    (consumes : slot ≠ .empty) :
    nfa.targets (nfa.stage slots.length i) slot ≠ [] ↔ slots[i]? = some slot := by
  constructor
  · intro some
    obtain ⟨next, target⟩ := List.exists_mem_of_ne_nil _ some
    exact ((h.exists_targets_iff le consumes).1 (mem_targets_iff.1 target)).1
  · intro label
    exact List.ne_nil_of_mem
      (mem_targets_iff.2 ((h.exists_targets_iff le consumes).2 ⟨label, rfl⟩))

theorem closure_foldedTargets (h : nfa.Chained slots) (le : i ≤ slots.length)
    (label : slots[i]? = some slot) :
    nfa.closure (nfa.foldedTargets (nfa.stage slots.length i) slot) =
      nfa.stage slots.length (i + 1) := by
  refine closure_congr fun seed => ?_
  rw [mem_foldedTargets_iff (h.ne_empty label), List.mem_singleton]
  constructor
  · rintro ⟨id, mem, taken, takes, target⟩
    exact ((h.exists_targets_iff le (takes.ne_empty (h.ne_empty label))).1 ⟨id, mem, target⟩).2
  · intro entered
    obtain ⟨id, mem, target⟩ := (h.exists_targets_iff le (h.ne_empty label)).2 ⟨label, entered⟩
    exact ⟨id, mem, slot, slot.takes_self, target⟩

/-- A stage moves on the label of the next leaf alone, and to the next stage. -/
theorem mem_moves_stage_iff (h : nfa.Chained slots) (le : i ≤ slots.length) {next : StateSet} :
    (slot, next) ∈ nfa.moves (nfa.stage slots.length i) ↔
      slots[i]? = some slot ∧ next = nfa.stage slots.length (i + 1) := by
  rw [mem_moves_iff]
  constructor
  · rintro ⟨consumes, some, rfl⟩
    have label := (h.targets_stage_ne_nil_iff le consumes).1 some
    exact ⟨label, h.closure_foldedTargets le label⟩
  · rintro ⟨label, rfl⟩
    exact ⟨h.ne_empty label, (h.targets_stage_ne_nil_iff le (h.ne_empty label)).2 label,
      (h.closure_foldedTargets le label).symm⟩

theorem moves_stage (h : nfa.Chained slots) (le : i ≤ slots.length) :
    (nfa.moves (nfa.stage slots.length i)).map (·.2) =
      if i < slots.length then [nfa.stage slots.length (i + 1)] else [] := by
  by_cases inside : i < slots.length
  · have distinct : (nfa.moves (nfa.stage slots.length i)).Nodup :=
      (nfa.moves_ordered _).imp fun lt same => lt.ne (congrArg Prod.fst same)
    have single : nfa.moves (nfa.stage slots.length i) =
        [(slots[i], nfa.stage slots.length (i + 1))] := by
      refine List.perm_singleton.1 ((List.perm_ext_iff_of_nodup distinct
        (List.nodup_singleton _)).2 fun move => ?_)
      rw [h.mem_moves_stage_iff le, List.mem_singleton, List.getElem?_eq_getElem inside,
        Prod.ext_iff, Option.some.injEq, eq_comm]
    rw [single, if_pos inside]
    rfl
  · have none : nfa.moves (nfa.stage slots.length i) = [] := by
      refine List.eq_nil_iff_forall_not_mem.2 fun move mem => ?_
      obtain ⟨label, -⟩ := (h.mem_moves_stage_iff le).1 mem
      exact inside (List.getElem?_eq_some_iff.1 label).1
    rw [none, if_neg inside]
    rfl

end Chained

theorem of_cons_eq_ite {α : Type} {p : Prop} [Decidable p] {a b : α} {rest : List α}
    (h : b :: rest = if p then [a] else []) : p ∧ b = a ∧ rest = [] := by
  split at h
  · next holds => exact ⟨holds, List.cons.inj h⟩
  · cases h

/-- A search that meets sets one after the other finds them in that order: at each step it has found
the first `i` of them and the next one is the only one to do. -/
theorem explore_along {nfa : Nfa} {count : Nat} {f : Nat → StateSet}
    (distinct : ∀ i < count, ∀ j < count, f i = f j → i = j)
    (moves : ∀ i < count, (nfa.moves (f i)).map (·.2) = if i + 1 < count then [f (i + 1)] else [])
    {done todo : List StateSet} {within : ∀ s ∈ todo, s.Within nfa.size} {i : Nat} (le : i ≤ count)
    (found : done = (List.range i).map f) (next : todo = if i < count then [f i] else []) :
    nfa.explore done todo within = (List.range count).map f := by
  fun_induction explore nfa done todo within generalizing i with
  | case1 done =>
    have last : ¬i < count := by
      intro inside
      rw [if_pos inside] at next
      cases next
    rw [found, Nat.le_antisymm le (Nat.le_of_not_lt last)]
  | case2 done set rest within tail new grown ih =>
    obtain ⟨inside, rfl, rfl⟩ := of_cons_eq_ite next
    refine ih inside ?_ ?_
    · rw [found, List.range_succ, List.map_append]
      rfl
    · rw [List.nil_append, moves i inside]
  | case3 done set rest within tail old ih =>
    obtain ⟨inside, rfl, rfl⟩ := of_cons_eq_ite next
    have mem : f i ∈ (List.range i).map f := found ▸ Decidable.not_not.1 old
    obtain ⟨j, before, same⟩ := List.mem_map.1 mem
    rw [List.mem_range] at before
    have := distinct j (by omega) i inside same
    omega

/-- The sets that a chain reaches are found stage by stage. -/
theorem Chained.subsets_eq {nfa : Nfa} {slots : List Slot} (h : nfa.Chained slots) :
    nfa.subsets = (List.range (slots.length + 1)).map (nfa.stage slots.length) := by
  have first : [nfa.start] = [nfa.stage slots.length 0] := by rw [h.stage_zero]
  refine explore_along (i := 0) (fun i hi j hj => ?_) (fun i hi => ?_) (Nat.zero_le _) rfl ?_
  · exact h.stage_inj (Nat.le_of_lt_succ hi) (Nat.le_of_lt_succ hj)
  · rw [h.moves_stage (Nat.le_of_lt_succ hi)]
    simp only [Nat.add_lt_add_iff_right]
  · rw [if_pos (Nat.succ_pos _), first]

end Nfa

namespace Dfa

variable {nfa : Nfa} {slots : List Slot} {k : Nat}

theorem size_of_chained (h : nfa.Chained slots) : (ofNfa nfa).size = slots.length + 1 := by
  rw [size_ofNfa, h.subsets_eq, List.length_map, List.length_range]

theorem row_of_chained (h : nfa.Chained slots) (le : k ≤ slots.length) :
    (ofNfa nfa).table.row k = subsetRow nfa nfa.subsets (nfa.stage slots.length k) := by
  apply row_ofNfa
  rw [h.subsets_eq, List.getElem?_map, List.getElem?_range (Nat.lt_succ_of_le le)]
  rfl

theorem idxOf_stage (h : nfa.Chained slots) (le : k ≤ slots.length) :
    nfa.subsets.idxOf (nfa.stage slots.length k) = k := by
  have inside : k < nfa.subsets.length := by
    rw [h.subsets_eq, List.length_map, List.length_range]
    exact Nat.lt_succ_of_le le
  have found : nfa.subsets[k] = nfa.stage slots.length k := by
    simp only [h.subsets_eq, List.getElem_map, List.getElem_range]
  rw [← found, (Nfa.exploring_subsets nfa).distinct.idxOf_getElem]

theorem targets_of_chained (h : nfa.Chained slots) (le : k ≤ slots.length) (slot : Slot) :
    ((ofNfa nfa).table.row k).targets slot = if slots[k]? = some slot then [k + 1] else [] := by
  rw [row_of_chained h le, targets_subsetRow_eq]
  by_cases label : slots[k]? = some slot
  · have next : k + 1 ≤ slots.length := (List.getElem?_eq_some_iff.1 label).1
    have consumes := h.ne_empty label
    rw [if_pos ⟨consumes, (h.targets_stage_ne_nil_iff le consumes).2 label⟩, if_pos label,
      h.closure_foldedTargets le label, idxOf_stage h next]
  · rw [if_neg label, if_neg]
    rintro ⟨consumes, some⟩
    exact label ((h.targets_stage_ne_nil_iff le consumes).1 some)

/-- The last state alone accepts. -/
theorem accepting_of_chained_iff (h : nfa.Chained slots) :
    ((ofNfa nfa).table.row k).accepting = true ↔ k = slots.length := by
  by_cases le : k ≤ slots.length
  · rw [row_of_chained h le, subsetRow, rowOf, StateSet.contains_iff, h.accept, h.mem_stage_iff le]
    cases k with
    | zero => simp only [Nfa.place]; omega
    | succ k => simp only [Nfa.place]; omega
  · have outside : (ofNfa nfa).table.size ≤ k := by
      have size : (ofNfa nfa).table.size = slots.length + 1 := size_of_chained h
      omega
    rw [Table.row_of_size_le outside]
    exact iff_of_false Bool.false_ne_true fun same => le same.le

end Dfa

namespace Pattern

/-- A literal pattern derives a tree that has its characters as leaves, side by side. -/
theorem Derives.leaves_eq {level : Level} {p : List Char} {t : Regex} (h : Derives level p t)
    (plain : ∀ c ∈ p, isStructural c = false) :
    t.alternatives = 0 ∧ t.repetitions = 0 ∧ t.leaves.map (·.slot) = p.map Slot.ofChar := by
  induction h with
  | @literal c b value ordinary =>
    have other : c ≠ wildcard := by
      rintro rfl
      cases ordinary
    have label : Slot.ofChar c = .byte b := by
      rw [Slot.ofChar, if_neg other, byteOf?_eq_some_iff.1 value, toNat_charOf, UInt8.ofNat_toNat]
    refine ⟨rfl, rfl, ?_⟩
    rw [List.map_singleton, label]
    rfl
  | dot => exact ⟨rfl, rfl, rfl⟩
  | group => cases plain '(' (by simp)
  | star => cases plain '*' (by simp)
  | alt => cases plain '|' (by simp)
  | cat _ _ ihl ihr =>
    obtain ⟨single, once, leaves⟩ := ihl fun c mem => plain c (List.mem_append_left _ mem)
    obtain ⟨single', once', leaves'⟩ := ihr fun c mem => plain c (List.mem_append_right _ mem)
    refine ⟨?_, ?_, ?_⟩
    · rw [Regex.alternatives, single, single']
    · rw [Regex.repetitions, once, once']
    · rw [Regex.leaves, List.map_append, leaves, leaves', List.map_append]
  | ofAtom _ ih | ofRepetition _ ih | ofConcatenation _ ih => exact ih plain

end Pattern

namespace Automaton

/-- A literal pattern is compiled to a chain. The automaton of its tree has two states for each
character and the accepting one, and making it deterministic leaves one state for each place in the
pattern. Each leads to the next over the label of the character there and has no other transition;
the last alone accepts and leads nowhere, and the first alone is marked as initial. -/
theorem compile_literal_chain {p : List Char} {t : Regex} (parsed : Pattern.parse p = .ok t)
    (plain : ∀ c ∈ p, Pattern.isStructural c = false) :
    (Nfa.ofRegex t).size = 2 * p.length + 1 ∧
      ∃ compiled, compile p = .ok compiled ∧
        let dfa := compiled.value.dfa
        dfa.size = p.length + 1 ∧
          (∀ i (h : i < p.length) slot, (dfa.table.row i).targets slot =
            if slot = Slot.ofChar p[i] then [i + 1] else []) ∧
          (∀ slot, (dfa.table.row p.length).targets slot = []) ∧
          (∀ k, (dfa.table.row k).accepting = true ↔ k = p.length) ∧
          ∀ k, (dfa.table.row k).initial = true ↔ k = 0 := by
  obtain ⟨single, once, leaves⟩ := (Pattern.derives_of_parse_eq parsed).leaves_eq plain
  have chained := Nfa.chained_ofRegex single once
  rw [leaves] at chained
  have length : (p.map Slot.ofChar).length = p.length := List.length_map _
  obtain ⟨events, built⟩ : ∃ events, compile p = .ok ⟨.start (.ofNfa (.ofRegex t)), events⟩ :=
    ⟨_, by rw [compile, parsed]; rfl⟩
  refine ⟨length ▸ chained.size, _, built, ?_, fun i inside slot => ?_, fun slot => ?_,
    fun k => ?_, fun k => ?_⟩
  · exact length ▸ Dfa.size_of_chained chained
  · refine (Dfa.targets_of_chained chained (length ▸ Nat.le_of_lt inside) slot).trans ?_
    rw [List.getElem?_map, List.getElem?_eq_getElem inside, Option.map_some]
    simp only [Option.some.injEq, eq_comm]
  · refine (Dfa.targets_of_chained chained (length ▸ Nat.le_refl _) slot).trans ?_
    rw [List.getElem?_map, List.getElem?_length]
    rfl
  · exact length ▸ Dfa.accepting_of_chained_iff chained
  · exact Dfa.initial_row_iff (Nfa.rooted_ofRegex t)

/-- Equal characters have states of their own. -/
theorem compile_wildcard_between :
    Pattern.parse ['a', '.', 'a'] = .ok (.cat (.cat (.literal 97) .dot) (.literal 97)) ∧
      (∀ c ∈ ['a', '.', 'a'], Pattern.isStructural c = false) ∧
      ∃ compiled, compile ['a', '.', 'a'] = .ok compiled ∧ compiled.value.dfa.size = 4 ∧
        (compiled.value.dfa.table.row 0).targets (.byte 97) = [1] ∧
        (compiled.value.dfa.table.row 1).targets .any = [2] ∧
        (compiled.value.dfa.table.row 2).targets (.byte 97) = [3] ∧
        (compiled.value.dfa.table.row 3).accepting = true := by
  have a : Pattern.Derives .repetition ['a'] (.literal 97) := .ofAtom (.literal rfl rfl)
  have front : Pattern.Derives .concatenation ['a', '.'] (.cat (.literal 97) .dot) :=
    .cat (.ofRepetition a) (.ofAtom .dot)
  have parsed := (Pattern.Derives.ofConcatenation (.cat front a)).parse_eq
  have plain : ∀ c ∈ ['a', '.', 'a'], Pattern.isStructural c = false := by
    simp [Pattern.isStructural]
  obtain ⟨-, compiled, built, size, moves, -, accepting, -⟩ := compile_literal_chain parsed plain
  refine ⟨parsed, plain, compiled, built, size, ?_, ?_, ?_, (accepting 3).2 rfl⟩
  · exact moves 0 (by decide) (.byte 97)
  · exact moves 1 (by decide) .any
  · exact moves 2 (by decide) (.byte 97)

end Automaton

end LineGrep
