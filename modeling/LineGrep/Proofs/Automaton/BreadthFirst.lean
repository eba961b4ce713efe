import LineGrep.Proofs.Automaton.Numbering
import Mathlib.Data.List.Shortlex
import Mathlib.Data.Prod.Lex
import Mathlib.Order.Fin.Basic

/-!
The order of the state numbers. A state is reached over many sequences of labels, of which one comes
first if shorter sequences come before longer ones and the labels decide between those of one
length. The search for sets looks at them in the order of these first sequences: what it has found
and has still to look at is in that order, and each set still to look at goes on from one that was
found. Main statement: one state has a smaller number than another exactly if its first sequence
comes before that of the other.
-/

namespace LineGrep

namespace Slot

/-- Labels come in the order of their columns. -/
instance : LinearOrder Slot :=
  LinearOrder.lift' column fun _ _ => column_inj

/-- The place of a sequence of labels: shorter ones come first, then the labels decide. -/
def rank (word : List Slot) : ℕ ×ₗ List Slot :=
  toLex (word.length, word)

variable {u v : List Slot} {a b : Slot}

theorem rank_injective : Function.Injective rank :=
  fun _ _ same => congrArg (fun key => (ofLex key).2) same

theorem rank_lt_iff_shortlex : rank u < rank v ↔ List.Shortlex (· < ·) u v := by
  rw [rank, rank, Prod.Lex.toLex_lt_toLex, List.shortlex_def]
  exact Iff.rfl

theorem rank_nil_le (word : List Slot) : rank [] ≤ rank word := by
  rcases List.shortlex_nil_or_eq_nil (r := (· < ·)) word with before | rfl
  · exact (rank_lt_iff_shortlex.2 before).le
  · exact le_rfl

theorem rank_lt_snoc (word : List Slot) (slot : Slot) : rank word < rank (word ++ [slot]) := by
  rw [rank_lt_iff_shortlex]
  apply List.Shortlex.of_length_lt
  rw [List.length_append, List.length_singleton]
  omega

theorem rank_snoc_lt_of_lt (word : List Slot) (h : a < b) :
    rank (word ++ [a]) < rank (word ++ [b]) := by
  rw [rank_lt_iff_shortlex]
  apply List.Shortlex.append_left
  exact (List.shortlex_singleton_iff a b).2 h

theorem lex_append (same : u.length = v.length) (h : List.Lex (· < ·) u v)
    (front back : List Slot) : List.Lex (· < ·) (u ++ front) (v ++ back) := by
  induction h with
  | nil => cases same
  | cons _ ih => exact .cons (ih (Nat.succ.inj same))
  | rel before => exact .rel before

/-- The earlier of two sequences stays so when both go on by one label. -/
theorem rank_snoc_lt_snoc (h : rank u < rank v) (a b : Slot) :
    rank (u ++ [a]) < rank (v ++ [b]) := by
  rw [rank_lt_iff_shortlex, List.shortlex_def] at h ⊢
  simp only [List.length_append, List.length_singleton]
  rcases h with shorter | ⟨same, before⟩
  · left
    omega
  · right
    exact ⟨congrArg (· + 1) same, lex_append same before [a] [b]⟩

theorem rank_snoc_le_snoc (h : rank u ≤ rank v) (slot : Slot) :
    rank (u ++ [slot]) ≤ rank (v ++ [slot]) := by
  rcases h.lt_or_eq with before | same
  · exact (rank_snoc_lt_snoc before slot slot).le
  · rw [rank_injective same]

end Slot

namespace Nfa

/-- A sequence of labels leads through moves from the start set to a set. -/
inductive LabelsTo (nfa : Nfa) : List Slot → StateSet → Prop where
  | start : LabelsTo nfa [] nfa.start
  | move {word set slot next} : LabelsTo nfa word set → (slot, next) ∈ nfa.moves set →
      LabelsTo nfa (word ++ [slot]) next

/-- The sets to which the moves of a set lead, each with the labels of the way through that set. -/
def movesOn (nfa : Nfa) (entry : List Slot × StateSet) : List (List Slot × StateSet) :=
  (nfa.moves entry.2).map fun move => (entry.1 ++ [move.1], move.2)

/-- A set is among the given ones with a sequence of labels that is not after a given one. -/
def MetBy (entries : List (List Slot × StateSet)) (word : List Slot) (set : StateSet) : Prop :=
  ∃ first, (first, set) ∈ entries ∧ Slot.rank first ≤ Slot.rank word

/-- What holds at each step of the search if every set is kept with the labels on the way on which
the search came to it. -/
structure Labelling (nfa : Nfa) (done todo : List (List Slot × StateSet)) : Prop where
  ordered : (done ++ todo).Pairwise fun entry later => Slot.rank entry.1 < Slot.rank later.1
  labels : ∀ entry ∈ done ++ todo, nfa.LabelsTo entry.1 entry.2
  /-- Each set to do is the start set or was met from a set that is found. -/
  origin : ∀ entry ∈ todo, entry.1 = [] ∨ ∃ parent ∈ done, ∃ slot, entry.1 = parent.1 ++ [slot]
  start : MetBy (done ++ todo) [] nfa.start
  pending : ∀ entry ∈ done, ∀ slot next, (slot, next) ∈ nfa.moves entry.2 →
    MetBy (done ++ todo) (entry.1 ++ [slot]) next

variable {nfa : Nfa} {set next : StateSet} {word : List Slot} {entry : List Slot × StateSet}
  {done todo rest : List (List Slot × StateSet)}

theorem moves_ordered (nfa : Nfa) (set : StateSet) :
    (nfa.moves set).Pairwise fun move later => move.1 < later.1 := by
  rw [moves, List.pairwise_map]
  exact Slot.consuming_ordered.filter _

theorem movesOn_ordered (nfa : Nfa) (entry : List Slot × StateSet) :
    (nfa.movesOn entry).Pairwise fun entry later => Slot.rank entry.1 < Slot.rank later.1 := by
  rw [movesOn, List.pairwise_map]
  exact (nfa.moves_ordered entry.2).imp (Slot.rank_snoc_lt_of_lt entry.1)

theorem MetBy.mono {entries more : List (List Slot × StateSet)} (h : MetBy entries word set)
    (subset : entries ⊆ more) : MetBy more word set := by
  obtain ⟨first, mem, le⟩ := h
  exact ⟨first, subset mem, le⟩

theorem Labelling.begin (nfa : Nfa) : nfa.Labelling [] [([], nfa.start)] where
  ordered := List.pairwise_singleton _ _
  labels := by
    intro entry mem
    obtain rfl := List.mem_singleton.1 mem
    exact .start
  origin := by
    intro entry mem
    obtain rfl := List.mem_singleton.1 mem
    exact Or.inl rfl
  start := ⟨[], List.mem_singleton_self _, le_rfl⟩
  pending _ mem := absurd mem List.not_mem_nil

theorem Labelling.before (h : nfa.Labelling done todo) {entry later : List Slot × StateSet}
    (old : entry ∈ done) (mem : later ∈ todo) : Slot.rank entry.1 < Slot.rank later.1 :=
  (List.pairwise_append.1 h.ordered).2.2 entry old later mem

/-- What is met from the first set to do comes after all that was met before. -/
theorem Labelling.before_movesOn (h : nfa.Labelling done (entry :: rest))
    {other later : List Slot × StateSet} (mem : other ∈ done ++ entry :: rest)
    (met : later ∈ nfa.movesOn entry) : Slot.rank other.1 < Slot.rank later.1 := by
  obtain ⟨move, -, rfl⟩ := List.mem_map.1 met
  rcases List.mem_append.1 mem with old | waiting
  · exact (h.before old List.mem_cons_self).trans (Slot.rank_lt_snoc entry.1 move.1)
  · rcases h.origin other waiting with first | ⟨parent, old, slot, same⟩
    · rw [first]
      exact (Slot.rank_nil_le entry.1).trans_lt (Slot.rank_lt_snoc entry.1 move.1)
    · -- The parents were found in order, and one label more does not change it.
      rw [same]
      exact Slot.rank_snoc_lt_snoc (h.before old List.mem_cons_self) slot move.1

theorem Labelling.find (h : nfa.Labelling done (entry :: rest)) :
    nfa.Labelling (done ++ [entry]) (rest ++ nfa.movesOn entry) := by
  have same : (done ++ [entry]) ++ (rest ++ nfa.movesOn entry) =
      (done ++ entry :: rest) ++ nfa.movesOn entry := by
    simp
  have here : entry ∈ done ++ entry :: rest := by
    simp
  refine ⟨?_, ?_, ?_, ?_, ?_⟩
  · rw [same, List.pairwise_append]
    exact ⟨h.ordered, nfa.movesOn_ordered entry, fun _ mem _ met => h.before_movesOn mem met⟩
  · rw [same]
    intro other mem
    rcases List.mem_append.1 mem with mem | met
    · exact h.labels other mem
    · obtain ⟨move, leads, rfl⟩ := List.mem_map.1 met
      exact (h.labels entry here).move leads
  · intro other mem
    rcases List.mem_append.1 mem with waiting | met
    · rcases h.origin other (List.mem_cons_of_mem _ waiting) with first | ⟨parent, old, on⟩
      · exact Or.inl first
      · exact Or.inr ⟨parent, List.mem_append_left _ old, on⟩
    · obtain ⟨move, -, rfl⟩ := List.mem_map.1 met
      exact Or.inr ⟨entry, List.mem_append_right _ (List.mem_singleton_self _), move.1, rfl⟩
  · rw [same]
    exact h.start.mono (List.subset_append_left _ _)
  · rw [same]
    intro other mem slot next leads
    rcases List.mem_append.1 mem with old | last
    · exact (h.pending other old slot next leads).mono (List.subset_append_left _ _)
    · obtain rfl := List.mem_singleton.1 last
      exact ⟨_, List.mem_append_right _ (List.mem_map.2 ⟨_, leads, rfl⟩), le_rfl⟩

/-- A set that was found before was found with earlier labels. -/
theorem Labelling.metBy_skip (h : nfa.Labelling done (entry :: rest))
    (old : entry.2 ∈ done.map (·.2)) (met : MetBy (done ++ entry :: rest) word set) :
    MetBy (done ++ rest) word set := by
  obtain ⟨first, mem, le⟩ := met
  rcases List.mem_append.1 mem with found | waiting
  · exact ⟨first, List.mem_append_left _ found, le⟩
  rcases List.mem_cons.1 waiting with rfl | tail
  · obtain ⟨older, found, rfl⟩ := List.mem_map.1 old
    have before := h.before found List.mem_cons_self
    exact ⟨older.1, List.mem_append_left _ found, before.le.trans le⟩
  · exact ⟨first, List.mem_append_right _ tail, le⟩

theorem Labelling.skip (h : nfa.Labelling done (entry :: rest)) (old : entry.2 ∈ done.map (·.2)) :
    nfa.Labelling done rest := by
  have fewer : (done ++ rest).Sublist (done ++ entry :: rest) :=
    (List.sublist_cons_self entry rest).append_left done
  exact ⟨h.ordered.sublist fewer, fun other mem => h.labels other (fewer.subset mem),
    fun other mem => h.origin other (List.mem_cons_of_mem _ mem), h.metBy_skip old h.start,
    fun other mem slot next leads => h.metBy_skip old (h.pending other mem slot next leads)⟩

theorem Labelling.finish {found queue : List StateSet} {within : ∀ s ∈ queue, s.Within nfa.size}
    (h : nfa.Labelling done todo) (sets : done.map (·.2) = found)
    (waiting : todo.map (·.2) = queue) :
    ∃ entries, nfa.explore found queue within = entries.map (·.2) ∧ nfa.Labelling entries [] := by
  fun_induction explore nfa found queue within generalizing done todo with
  | case1 =>
    obtain rfl := List.map_eq_nil_iff.1 waiting
    exact ⟨done, sets.symm, h⟩
  | case2 found within set rest tail new next ih =>
    obtain ⟨entry, others, rfl, rfl, rfl⟩ := List.map_eq_cons_iff.1 waiting
    apply ih h.find
    · rw [List.map_append, sets]
      rfl
    · rw [List.map_append, movesOn, List.map_map]
      rfl
  | case3 found within set rest tail known next ih =>
    obtain ⟨entry, others, rfl, rfl, rfl⟩ := List.map_eq_cons_iff.1 waiting
    apply ih (h.skip ?_) sets rfl
    rw [sets]
    exact Decidable.not_not.1 known

theorem exists_labelling (nfa : Nfa) :
    ∃ entries, nfa.subsets = entries.map (·.2) ∧ nfa.Labelling entries [] :=
  (Labelling.begin nfa).finish rfl rfl

/-- No labels lead to a set before those with which it was found. -/
theorem Labelling.metBy_of_labelsTo {entries : List (List Slot × StateSet)}
    (h : nfa.Labelling entries []) (labels : nfa.LabelsTo word set) : MetBy entries word set := by
  induction labels with
  | start => simpa using h.start
  | @move word set slot next _ leads ih =>
    obtain ⟨first, mem, le⟩ := ih
    obtain ⟨earlier, met, before⟩ := h.pending (first, set) mem slot next leads
    rw [List.append_nil] at met
    exact ⟨earlier, met, before.trans (Slot.rank_snoc_le_snoc le slot)⟩

/-- The labels with which a set was found are the first that lead to it. -/
theorem Labelling.rank_le_of_labelsTo {entries : List (List Slot × StateSet)}
    (h : nfa.Labelling entries []) (distinct : (entries.map (·.2)).Nodup) (mem : entry ∈ entries)
    (labels : nfa.LabelsTo word entry.2) : Slot.rank entry.1 ≤ Slot.rank word := by
  obtain ⟨first, found, le⟩ := h.metBy_of_labelsTo labels
  have same : (first, entry.2) = entry := List.inj_on_of_nodup_map distinct found mem rfl
  rwa [← congrArg (·.1) same]

theorem LabelsTo.reached (h : nfa.LabelsTo word set) : nfa.Reached set := by
  induction h with
  | start => exact .start
  | move _ leads ih => exact ih.move leads

end Nfa

namespace Table

/-- A sequence of labels stands on the transitions of a way from one state to another. -/
inductive Path (table : Table) (first : Nat) : List Slot → Nat → Prop where
  | nil : Path table first [] first
  | snoc {word id slot next} : Path table first word id → next ∈ (table.row id).targets slot →
      Path table first (word ++ [slot]) next

/-- The first one among the sequences of labels from one state to another. -/
structure FirstPath (table : Table) (first : Nat) (word : List Slot) (id : Nat) : Prop where
  path : table.Path first word id
  least : ∀ other, table.Path first other id → other = word ∨ List.Shortlex (· < ·) word other

end Table

namespace Dfa

variable {nfa : Nfa} {word : List Slot}

/-- The labels on a way to a state are those that lead to its set. -/
theorem path_iff_labelsTo (rooted : nfa.Rooted) {k : Fin (ofNfa nfa).size} :
    (ofNfa nfa).table.Path 0 word k ↔ nfa.LabelsTo word (setOf nfa k) := by
  have numbers := numbers_ofNfa rooted
  constructor
  · generalize number : k.val = id
    intro path
    induction path generalizing k with
    | nil =>
      rw [setOf_eq_start_iff.2 number]
      exact .start
    | @snoc word id slot next path target ih =>
      have inside : id < (ofNfa nfa).size := Table.lt_size_of_mem_targets target
      obtain ⟨other, rfl, leads⟩ := (numbers.mem_targets_iff ⟨id, inside⟩ slot next).1 target
      obtain rfl := Fin.val_injective number
      exact (ih rfl).move (Nfa.mem_moves_iff_leads.2 leads)
  · generalize same : setOf nfa k = set
    intro labels
    induction labels generalizing k with
    | start =>
      rw [setOf_eq_start_iff.1 same]
      exact .nil
    | @move word set slot next labels leads ih =>
      obtain ⟨before, rfl⟩ := mem_subsets_iff_setOf.1 (Nfa.mem_subsets_iff.2 labels.reached)
      subst same
      have target := (numbers.mem_targets_iff before slot k).2
        ⟨k, rfl, Nfa.mem_moves_iff_leads.1 leads⟩
      exact (ih rfl).snoc target

theorem exists_entry {entries : List (List Slot × StateSet)}
    (sets : nfa.subsets = entries.map (·.2)) (k : Fin (ofNfa nfa).size) :
    ∃ entry, entries[k.val]? = some entry ∧ entry.2 = setOf nfa k := by
  have found := getElem?_subsets nfa k
  rw [sets, List.getElem?_map] at found
  exact Option.map_eq_some_iff.1 found

/-- Each state has a first sequence of labels, and these come in the order of the numbers. -/
theorem exists_firstPaths (rooted : nfa.Rooted) :
    ∃ w : Fin (ofNfa nfa).size → List Slot, (∀ k, (ofNfa nfa).table.FirstPath 0 (w k) k) ∧
      StrictMono fun k => Slot.rank (w k) := by
  obtain ⟨entries, sets, labelling⟩ := nfa.exists_labelling
  choose entry found same using exists_entry sets
  have mem (k : Fin (ofNfa nfa).size) : entry k ∈ entries :=
    List.mem_of_getElem? (found k)
  refine ⟨fun k => (entry k).1, fun k => ⟨?_, fun other path => ?_⟩, fun i j lt => ?_⟩
  · rw [path_iff_labelsTo rooted, ← same k]
    exact labelling.labels _ (List.mem_append_left _ (mem k))
  · rw [path_iff_labelsTo rooted, ← same k] at path
    have distinct := (Nfa.exploring_subsets nfa).distinct
    rw [sets] at distinct
    have le := labelling.rank_le_of_labelsTo distinct (mem k) path
    rcases le.lt_or_eq with before | equal
    · exact Or.inr (Slot.rank_lt_iff_shortlex.1 before)
    · exact Or.inl (Slot.rank_injective equal).symm
  · have ordered := labelling.ordered
    rw [List.append_nil, List.pairwise_iff_getElem] at ordered
    obtain ⟨inside, here⟩ := List.getElem?_eq_some_iff.1 (found i)
    obtain ⟨inside', there⟩ := List.getElem?_eq_some_iff.1 (found j)
    have before := ordered i j inside inside' lt
    rwa [here, there] at before

/-- The numbers of the states are determined by the transitions alone: of the sequences of labels
that lead from the first state to a state one is the first, shorter ones coming before longer ones,
and two states have the order of these sequences. -/
theorem numbering_canonical (t : Regex) :
    let nfa := Nfa.ofRegex t
    let dfa := ofNfa nfa
    nfa.determinize? = some ⟨dfa, dfa.events⟩ ∧ 0 < dfa.size ∧
      ∃ w : Fin dfa.size → List Slot, (∀ k, dfa.table.FirstPath 0 (w k) k) ∧
        ∀ i j, i < j ↔ List.Shortlex (· < ·) (w i) (w j) := by
  have rooted := Nfa.rooted_ofRegex t
  obtain ⟨nonempty, -⟩ := (numbers_ofNfa rooted).first
  obtain ⟨w, first, mono⟩ := exists_firstPaths rooted
  refine ⟨Nfa.determinize?_eq rooted, nonempty, w, first, fun i j => ?_⟩
  rw [← Slot.rank_lt_iff_shortlex]
  exact mono.lt_iff_lt.symm

end Dfa

end LineGrep
