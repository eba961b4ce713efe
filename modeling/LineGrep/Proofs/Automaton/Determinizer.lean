import LineGrep.Automaton.Basic
import LineGrep.Automaton.Determinizer
import LineGrep.Proofs.Automaton.LeastClosure
import LineGrep.Proofs.Automaton.Subset

/-!
The work on a deterministic automaton comes to the automaton whose states are the reached sets. The
sets that were met are those that were looked at and then those that wait, each where it was reached
first; the rows of the former are filled with numbers that do not change any more, and the rows of
the latter are empty. Main statement: the work ends, and makes the automaton, marks the initial state
and reports the sets as the search for sets has it.
-/

namespace LineGrep

namespace Moves

variable {slots : List Slot} {slot : Slot} {more : List Nat} {targets : Slot → List Nat}

/-- The slots that have targets, with these. -/
def listed (targets : Slot → List Nat) (slots : List Slot) : List (Slot × List Nat) :=
  (slots.filter fun s => !(targets s).isEmpty).map fun s => (s, targets s)

theorem listed_cons_of_nil {s : Slot} (none : targets s = []) :
    listed targets (s :: slots) = listed targets slots := by
  simp [listed, none]

theorem listed_cons_of_ne_nil {s : Slot} (some : targets s ≠ []) :
    listed targets (s :: slots) = (s, targets s) :: listed targets slots := by
  simp [listed, some]

theorem listed_congr {others : Slot → List Nat} (h : ∀ s ∈ slots, targets s = others s) :
    listed targets slots = listed others slots := by
  have filtered : slots.filter (fun s => !(targets s).isEmpty) =
      slots.filter fun s => !(others s).isEmpty :=
    List.filter_congr fun s mem => by rw [h s mem]
  rw [listed, filtered]
  exact List.map_congr_left fun s mem => by rw [h s (List.mem_of_mem_filter mem)]

theorem extend_of_before {moves : List (Slot × List Nat)}
    (h : ∀ move ∈ moves, slot.column < move.1.column) :
    extend slot more moves = (slot, more) :: moves := by
  cases moves with
  | nil => rfl
  | cons move moves =>
    have before := h move List.mem_cons_self
    have other : slot ≠ move.1 := fun same => Nat.lt_irrefl _ (same ▸ before)
    rw [extend, if_neg other, if_pos before]

/-- More targets for one slot. -/
def grow (targets : Slot → List Nat) (slot : Slot) (more : List Nat) (s : Slot) : List Nat :=
  targets s ++ if s = slot then more else []

theorem grow_self : grow targets slot more slot = targets slot ++ more := by
  rw [grow, if_pos rfl]

theorem grow_of_ne {s : Slot} (other : s ≠ slot) : grow targets slot more s = targets s := by
  rw [grow, if_neg other, List.append_nil]

/-- Targets that are put behind those of a slot keep the slots in the order of columns. -/
theorem extend_listed (ordered : slots.Pairwise fun a b => a.column < b.column) (mem : slot ∈ slots)
    (some : more ≠ []) :
    extend slot more (listed targets slots) = listed (grow targets slot more) slots := by
  induction slots with
  | nil => cases mem
  | cons s rest ih =>
    obtain ⟨above, ordered⟩ := List.pairwise_cons.1 ordered
    by_cases same : s = slot
    · subst same
      have kept : listed (grow targets s more) rest = listed targets rest :=
        listed_congr fun x later => grow_of_ne fun same => Nat.lt_irrefl _ (same ▸ above x later)
      have grown : grow targets s more s ≠ [] := by simp [grow_self, some]
      rw [listed_cons_of_ne_nil grown, kept, grow_self]
      by_cases none : targets s = []
      · rw [listed_cons_of_nil none, none]
        refine extend_of_before fun move held => ?_
        obtain ⟨x, later, rfl⟩ := List.mem_map.1 held
        exact above x (List.mem_of_mem_filter later)
      · rw [listed_cons_of_ne_nil none, extend, if_pos rfl]
    · have later := (List.mem_cons.1 mem).resolve_left (Ne.symm same)
      have kept : grow targets slot more s = targets s := grow_of_ne same
      by_cases none : targets s = []
      · rw [listed_cons_of_nil none, ih ordered later, listed_cons_of_nil (kept.trans none)]
      · have notBefore := Nat.lt_asymm (above slot later)
        have some : grow targets slot more s ≠ [] := kept ▸ none
        rw [listed_cons_of_ne_nil none, extend, if_neg (Ne.symm same), if_neg notBefore,
          ih ordered later, listed_cons_of_ne_nil some, kept]

/-- The targets that entries have for a slot. -/
def held (entries : List (Slot × List Nat)) (slot : Slot) : List Nat :=
  entries.flatMap fun entry => if slot = entry.1 then entry.2 else []

theorem foldl_extend_listed (entries : List (Slot × List Nat))
    (proper : ∀ entry ∈ entries, entry.1 ≠ .empty ∧ entry.2 ≠ []) :
    entries.foldl (fun moves entry => extend entry.1 entry.2 moves)
        (listed targets Slot.consuming) =
      listed (fun s => targets s ++ held entries s) Slot.consuming := by
  induction entries generalizing targets with
  | nil => exact listed_congr fun s _ => (List.append_nil _).symm
  | cons entry entries ih =>
    obtain ⟨⟨consumes, some⟩, others⟩ := List.forall_mem_cons.1 proper
    rw [List.foldl_cons,
      extend_listed Slot.consuming_ordered (Slot.mem_consuming_iff.2 consumes) some, ih others]
    refine listed_congr fun s _ => ?_
    rw [grow, held, held, List.flatMap_cons, List.append_assoc]

theorem held_of_not_mem (h : slot ∉ slots) : held (listed targets slots) slot = [] := by
  refine List.flatMap_eq_nil_iff.2 fun entry mem => ?_
  obtain ⟨s, kept, rfl⟩ := List.mem_map.1 mem
  refine if_neg ?_
  rintro rfl
  exact h (List.mem_of_mem_filter kept)

theorem held_listed (distinct : slots.Nodup) (mem : slot ∈ slots) :
    held (listed targets slots) slot = targets slot := by
  induction slots with
  | nil => cases mem
  | cons s rest ih =>
    obtain ⟨fresh, distinct⟩ := List.nodup_cons.1 distinct
    by_cases same : slot = s
    · subst same
      by_cases none : targets slot = []
      · rw [listed_cons_of_nil none, held_of_not_mem fresh, none]
      · rw [listed_cons_of_ne_nil none, held, List.flatMap_cons, if_pos rfl]
        exact (congrArg _ (held_of_not_mem fresh)).trans (List.append_nil _)
    · have later := (List.mem_cons.1 mem).resolve_left same
      by_cases none : targets s = []
      · rw [listed_cons_of_nil none, ih distinct later]
      · rw [listed_cons_of_ne_nil none, held, List.flatMap_cons, if_neg same]
        exact ih distinct later

theorem lookup_listed (mem : slot ∈ slots) : (listed targets slots).lookup slot =
    if targets slot = [] then none else some (targets slot) := by
  induction slots with
  | nil => cases mem
  | cons s rest ih =>
    by_cases same : slot = s
    · subst same
      by_cases none : targets slot = []
      · rw [listed_cons_of_nil none, if_pos none, List.lookup_eq_none_iff]
        intro entry held
        obtain ⟨x, kept, rfl⟩ := List.mem_map.1 held
        have some := (List.mem_filter.1 kept).2
        simp only [bne_iff_ne, ne_eq]
        rintro rfl
        simp [none] at some
      · rw [listed_cons_of_ne_nil none, List.lookup_cons_self, if_neg none]
    · have later := (List.mem_cons.1 mem).resolve_left same
      by_cases none : targets s = []
      · rw [listed_cons_of_nil none, ih later]
      · rw [listed_cons_of_ne_nil none, List.lookup_cons, beq_false_of_ne same]
        exact ih later

theorem fold_listed : fold (listed targets Slot.consuming) =
    (Slot.consuming.filter fun s => !(targets s).isEmpty).map fun
      | .byte b => (.byte b, targets (.byte b) ++ targets .any)
      | s => (s, targets s) := by
  rw [fold, lookup_listed (Slot.mem_consuming_iff.2 (by simp))]
  by_cases none : targets .any = []
  · rw [if_pos none]
    refine List.map_congr_left fun s _ => ?_
    cases s with
    | byte b => simp only [none, List.append_nil]
    | any | empty => rfl
  · rw [if_neg none, listed]
    refine List.map_map.trans (List.map_congr_left fun s _ => ?_)
    cases s <;> rfl

end Moves

namespace Row

/-- The transitions of a row hold what its slots hold. -/
theorem held_transitions (row : Row) {slot : Slot} (consumes : slot ∈ Slot.consuming) :
    Moves.held row.transitions slot = row.targets slot := by
  have distinct : Slot.consuming.Nodup := by
    refine Slot.consuming_ordered.imp ?_
    rintro slot _ lt rfl
    exact Nat.lt_irrefl _ lt
  rw [transitions_eq]
  exact Moves.held_listed distinct consumes

theorem markers_setAll (row : Row) (moves : List (Slot × Nat)) :
    (row.setAll moves).initial = row.initial ∧ (row.setAll moves).accepting = row.accepting := by
  induction moves generalizing row with
  | nil => exact ⟨rfl, rfl⟩
  | cons move moves ih => exact ih (row.set move.1 move.2)

theorem mark_setAll_empty (moves : List (Slot × Nat)) (initial accepting : Bool) :
    (empty.setAll moves).mark initial accepting = Dfa.rowOf moves initial accepting := by
  obtain ⟨notInitial, notAccepting⟩ := markers_setAll empty moves
  have unmarked : empty.setAll moves = Dfa.rowOf moves false false :=
    ext_targets (fun _ => rfl) notInitial notAccepting
  rw [unmarked]
  cases initial <;> cases accepting <;> rfl

end Row

namespace Table

theorem mapM_row? {table : Table} {ids : List Nat} (inside : ∀ id ∈ ids, id < table.size) :
    ids.mapM table.row? = some (ids.map table.row) := by
  induction ids with
  | nil => rfl
  | cons id ids ih =>
    obtain ⟨first, others⟩ := List.forall_mem_cons.1 inside
    obtain ⟨found, has⟩ := Option.ne_none_iff_exists'.1 fun none =>
      Nat.not_le.2 first (row?_eq_none_iff.1 none)
    have same : table.row id = found := by rw [row, has, Option.getD_some]
    rw [List.mapM_cons, has, ih others, List.map_cons, same]
    rfl

theorem update?_rows (front back : List Row) (row : Row) (change : Row → Row) :
    (empty.append (front ++ [row] ++ back)).update? front.length change =
      some (empty.append (front ++ [change row] ++ back)) := by
  have place : empty.size + front.length = front.length := Nat.zero_add _
  rw [List.append_assoc, List.append_assoc, ← place]
  exact update?_append _ _ _ _ _

end Table

namespace Dfa

/-- The position that counts is the last one at which the property held. -/
theorem lastPosition?_concat {α : Type} (p : α → Bool) (list : List α) (a : α) :
    (lastPosition? p (list ++ [a])).getD 0 =
      if p a then list.length else (lastPosition? p list).getD 0 := by
  have last : lastPosition? p (list ++ [a]) =
      if p a then some list.length else lastPosition? p list := by
    induction list with
    | nil => cases h : p a <;> simp [lastPosition?, h]
    | cons b list ih =>
      rw [List.cons_append, lastPosition?, ih]
      cases p a <;> rfl
  rw [last]
  split <;> rfl

end Dfa

namespace Nfa

variable {nfa : Nfa} {set : StateSet}

/-- The transitions of all states of a set together hold the targets of the set. -/
theorem held_transitions (nfa : Nfa) (set : StateSet) {slot : Slot}
    (consumes : slot ∈ Slot.consuming) :
    Moves.held ((set.ids.map nfa.table.row).flatMap Row.transitions) slot =
      nfa.targets set slot := by
  rw [Moves.held, List.flatMap_assoc, List.flatMap_map]
  exact congrArg (fun f => set.ids.flatMap f)
    (funext fun id => (nfa.table.row id).held_transitions consumes)

/-- The targets of states of the automaton by label are those that the labels take together. -/
theorem targetsByLabel?_eq (within : set.Within nfa.size) : nfa.targetsByLabel? set =
    some ((Slot.consuming.filter fun slot => !(nfa.targets set slot).isEmpty).map fun slot =>
      (slot, nfa.foldedTargets set slot)) := by
  let entries := (set.ids.map nfa.table.row).flatMap Row.transitions
  have proper : ∀ entry ∈ entries, entry.1 ≠ .empty ∧ entry.2 ≠ [] := by
    rintro ⟨slot, targets⟩ mem
    obtain ⟨row, -, held⟩ := List.mem_flatMap.1 mem
    obtain ⟨consumes, some, -⟩ := Row.mem_transitions_iff.1 held
    exact ⟨consumes, some⟩
  have collected : entries.foldl (fun moves entry => Moves.extend entry.1 entry.2 moves) [] =
      Moves.listed (nfa.targets set) Slot.consuming := by
    have none : Moves.listed (fun _ => []) Slot.consuming = [] := by simp [Moves.listed]
    rw [← none, Moves.foldl_extend_listed entries proper]
    exact Moves.listed_congr fun slot consumes => nfa.held_transitions set consumes
  rw [targetsByLabel?, Table.mapM_row? within]
  change some (Moves.fold (entries.foldl _ [])) = _
  rw [collected, Moves.fold_listed]
  refine congrArg some (List.map_congr_left fun slot _ => ?_)
  cases slot <;> rfl

end Nfa

namespace Determinizer

/-- The elements of a list that are not among the known ones, each where it comes first. -/
def firstOnes {α : Type} [DecidableEq α] (known : List α) : List α → List α
  | [] => []
  | a :: rest =>
    if a ∈ known then firstOnes known rest else a :: firstOnes (known ++ [a]) rest

section FirstOnes

variable {α : Type} [DecidableEq α] {known : List α} {a : α}

theorem firstOnes_append (known front back : List α) : firstOnes known (front ++ back) =
    firstOnes known front ++ firstOnes (known ++ firstOnes known front) back := by
  induction front generalizing known with
  | nil => rw [firstOnes, List.append_nil]; rfl
  | cons a front ih =>
    rw [List.cons_append, firstOnes, firstOnes]
    split
    · exact ih known
    · rw [ih, List.cons_append, List.append_assoc, List.singleton_append]

theorem firstOnes_cons (known : List α) (a : α) (rest : List α) :
    firstOnes known (a :: rest) =
      firstOnes known [a] ++ firstOnes (known ++ firstOnes known [a]) rest :=
  firstOnes_append known [a] rest

theorem firstOnes_of_mem (h : a ∈ known) : firstOnes known [a] = [] := by
  rw [firstOnes, if_pos h, firstOnes]

theorem firstOnes_of_not_mem (h : a ∉ known) : firstOnes known [a] = [a] := by
  rw [firstOnes, if_neg h, firstOnes]

theorem mem_append_firstOnes (known : List α) (a : α) : a ∈ known ++ firstOnes known [a] := by
  by_cases old : a ∈ known
  · exact List.mem_append_left _ old
  · rw [firstOnes_of_not_mem old]
    exact List.mem_append_right _ (List.mem_singleton_self a)

theorem lookup_zipIdx (list : List α) (first : Nat) : (list.zipIdx first).lookup a =
    if a ∈ list then some (list.idxOf a + first) else none := by
  induction list generalizing first with
  | nil => rfl
  | cons b rest ih =>
    rw [List.zipIdx_cons, List.lookup_cons]
    by_cases same : a = b
    · subst same
      simp
    · rw [beq_false_of_ne same, List.idxOf_cons_ne _ (Ne.symm same)]
      simp only [ih, List.mem_cons, same, false_or]
      split
      · rw [Nat.succ_add, Nat.add_succ]
      · rfl

theorem idxOf_of_isPrefix {front whole : List α} (h : front <+: whole) (mem : a ∈ front) :
    whole.idxOf a = front.idxOf a := by
  obtain ⟨back, rfl⟩ := h
  exact List.idxOf_append_of_mem mem

end FirstOnes

/-- The work when some sets have been looked at and others wait, with the rows of the former. -/
def stage (done waiting : List StateSet) (rows : List Row) (initial : Nat) (events : List Event) :
    Determinizer where
  ids := (done ++ waiting).zipIdx
  worklist := (waiting.zipIdx done.length).map Prod.swap
  table := Table.empty.append (rows ++ waiting.map fun _ => .empty)
  initial := initial
  events := events

variable {nfa : Nfa} {done waiting all : List StateSet} {rows front : List Row} {row : Row}
  {initial : Nat} {events : List Event} {set : StateSet}

/-- A set that is met waits if it is new, and its number is its place among the sets. -/
theorem meet_stage (filled : rows.length = done.length) (set : StateSet) :
    let new := firstOnes (done ++ waiting) [set]
    (stage done waiting rows initial events).meet set =
      ((done ++ waiting ++ new).idxOf set, stage done (waiting ++ new) rows initial events) := by
  intro new
  by_cases old : set ∈ done ++ waiting
  · have none : new = [] := firstOnes_of_mem old
    simp only [meet, stage, lookup_zipIdx, if_pos old, none, List.append_nil]
    rfl
  · have one : new = [set] := firstOnes_of_not_mem old
    have size : (stage done waiting rows initial events).table.size = (done ++ waiting).length := by
      rw [stage, Table.size_append, List.length_append, List.length_append, List.length_map, filled]
      exact Nat.zero_add _
    have number : (done ++ waiting ++ new).idxOf set = (done ++ waiting).length := by
      rw [one, List.idxOf_append_of_notMem old, List.idxOf_cons_self]
      rfl
    have ids : (done ++ waiting).zipIdx ++ [(set, (done ++ waiting).length)] =
        (done ++ (waiting ++ [set])).zipIdx := by
      have last : (done ++ waiting ++ [set]).zipIdx =
          (done ++ waiting).zipIdx ++ [set].zipIdx (0 + (done ++ waiting).length) :=
        List.zipIdx_append
      rw [← List.append_assoc, last, Nat.zero_add]
      rfl
    have worklist : (waiting.zipIdx done.length).map Prod.swap ++
        [((done ++ waiting).length, set)] =
          ((waiting ++ [set]).zipIdx done.length).map Prod.swap := by
      rw [List.zipIdx_append, List.map_append, List.length_append]
      rfl
    have table : (Table.empty.append (rows ++ waiting.map fun _ => .empty)).addState =
        Table.empty.append (rows ++ (waiting ++ [set]).map fun _ => .empty) := by
      rw [Table.addState_append, List.map_append, List.append_assoc]
      rfl
    rw [number, meet]
    simp only [size]
    simp only [stage, lookup_zipIdx, if_neg old, one, ids, worklist, table]

/-- The first set that waits has the next number after those that were looked at. -/
theorem worklist_stage (done : List StateSet) (set : StateSet) (rest : List StateSet)
    (rows : List Row) (initial : Nat) (events : List Event) :
    (stage done (set :: rest) rows initial events).worklist = (done.length, set) ::
      (stage (done ++ [set]) rest (rows ++ [.empty]) initial events).worklist := by
  simp only [stage, List.zipIdx_cons, List.map_cons, List.length_append]
  rfl

/-- When the first set that waits is taken, its row is the last one to fill. -/
theorem withWorklist_stage (done : List StateSet) (set : StateSet) (rest : List StateSet)
    (rows : List Row) (initial : Nat) (events : List Event) :
    let taken := stage (done ++ [set]) rest (rows ++ [.empty]) initial events
    { stage done (set :: rest) rows initial events with worklist := taken.worklist } = taken := by
  simp only [stage, List.map_cons, List.append_assoc, List.singleton_append]

/-- To follow a label sets it to the number of the set to which it leads. -/
theorem follow?_stage (row : Row) (initial : Nat) (events : List Event)
    (last : front.length + 1 = done.length) (slot : Slot) {seeds : List Nat}
    (closed : nfa.table.closure? seeds = some set)
    (known : done ++ waiting ++ firstOnes (done ++ waiting) [set] <+: all) :
    follow? nfa front.length (stage done waiting (front ++ [row]) initial events) (slot, seeds) =
      some (stage done (waiting ++ firstOnes (done ++ waiting) [set])
        (front ++ [row.set slot (all.idxOf set)]) initial events) := by
  have filled : (front ++ [row]).length = done.length := by
    rw [List.length_append]
    exact last
  have number := idxOf_of_isPrefix known (mem_append_firstOnes (done ++ waiting) set)
  rw [follow?, closed, Option.bind_eq_bind, Option.bind_some, meet_stage filled, ← number]
  simp only [stage, Table.update?_rows]
  rfl

/-- To follow moves one after the other meets their closures and sets their labels. -/
theorem foldlM_follow?_stage (row : Row) (initial : Nat) (events : List Event)
    (bounded : nfa.table.Bounded) (last : front.length + 1 = done.length)
    {moves : List (Slot × List Nat)}
    (inside : ∀ move ∈ moves, ∀ seed ∈ move.2, seed < nfa.table.size)
    (known : done ++ waiting ++
      firstOnes (done ++ waiting) (moves.map fun move => nfa.closure move.2) <+: all) :
    moves.foldlM (follow? nfa front.length)
        (stage done waiting (front ++ [row]) initial events) =
      some (stage done
        (waiting ++ firstOnes (done ++ waiting) (moves.map fun move => nfa.closure move.2))
        (front ++ [row.setAll (moves.map fun move => (move.1, all.idxOf (nfa.closure move.2)))])
        initial events) := by
  -- All sets of the whole search are fixed from the start, so a number that is set once is final.
  induction moves generalizing waiting row with
  | nil => simp only [List.map_nil, firstOnes, List.append_nil]; rfl
  | cons move moves ih =>
    obtain ⟨here, others⟩ := List.forall_mem_cons.1 inside
    have closed := bounded.closure?_eq_some_iff.2 ⟨here, rfl⟩
    let new := firstOnes (done ++ waiting) [nfa.closure move.2]
    have grown : done ++ waiting ++ new = done ++ (waiting ++ new) := List.append_assoc ..
    let rest := moves.map fun move => nfa.closure move.2
    have met : waiting ++ firstOnes (done ++ waiting) (nfa.closure move.2 :: rest) =
        waiting ++ new ++ firstOnes (done ++ (waiting ++ new)) rest := by
      rw [firstOnes_cons, grown, List.append_assoc]
    rw [List.map_cons, firstOnes_cons, ← List.append_assoc] at known
    have first := follow?_stage row initial events last move.1 closed
      ((List.prefix_append _ _).trans known)
    rw [List.foldlM_cons, first, Option.bind_eq_bind, Option.bind_some, List.map_cons, met]
    exact ih _ others (grown ▸ known)

/-- To look at the first set that waits fills its row and puts the new sets where its labels lead
behind the others. -/
theorem expand?_stage (initial : Nat) (events : List Event) (bounded : nfa.table.Bounded)
    (within : set.Within nfa.size) (last : front.length = done.length)
    (known : done ++ [set] ++ waiting ++
      firstOnes (done ++ [set] ++ waiting) ((nfa.moves set).map (·.2)) <+: all) :
    expand? nfa (stage (done ++ [set]) waiting (front ++ [.empty]) initial events)
        front.length set =
      some (stage (done ++ [set])
        (waiting ++ firstOnes (done ++ [set] ++ waiting) ((nfa.moves set).map (·.2)))
        (front ++ [Dfa.subsetRow nfa all set])
        (if set.contains nfa.initial then front.length else initial)
        (events ++ [.subsetNumbered front.length set])) := by
  let labels := Slot.consuming.filter fun slot => !(nfa.targets set slot).isEmpty
  let moves := labels.map fun slot => (slot, nfa.foldedTargets set slot)
  have gathered : nfa.targetsByLabel? set = some moves := Nfa.targetsByLabel?_eq within
  have closures : moves.map (fun move => nfa.closure move.2) = (nfa.moves set).map (·.2) := by
    rw [Nfa.moves, List.map_map, List.map_map]
    rfl
  have numbers : moves.map (fun move => (move.1, all.idxOf (nfa.closure move.2))) =
      (nfa.moves set).map fun move => (move.1, all.idxOf move.2) := by
    rw [Nfa.moves, List.map_map, List.map_map]
    rfl
  have inside : ∀ move ∈ moves, ∀ seed ∈ move.2, seed < nfa.table.size := by
    intro move mem seed target
    obtain ⟨slot, kept, rfl⟩ := List.mem_map.1 mem
    have consumes := Slot.mem_consuming_iff.1 (List.mem_of_mem_filter kept)
    obtain ⟨id, -, slot, -, target⟩ := (Nfa.mem_foldedTargets_iff consumes).1 target
    exact bounded id slot seed target
  have filled : front.length + 1 = (done ++ [set]).length := by
    rw [List.length_append, last]
    rfl
  rw [← closures] at known ⊢
  have followed := foldlM_follow?_stage .empty initial events bounded filled inside known
  rw [numbers] at followed
  simp only [expand?, gathered, followed, Option.bind_eq_bind, Option.bind_some]
  simp only [stage, Table.update?_rows, Row.mark_setAll_empty]
  rfl

/-- What was found and what is new among the rest come first in what is found in the end. -/
theorem append_firstOnes_isPrefix_explore {todo : List StateSet} {within : ∀ set ∈ todo, set.Within nfa.size} :
    done ++ firstOnes done todo <+: nfa.explore done todo within := by
  fun_induction Nfa.explore nfa done todo within with
  | case1 => simp [firstOnes]
  | case2 done set rest _ _ new _ ih =>
    have grown : done ++ firstOnes done (set :: rest) =
        done ++ [set] ++ firstOnes (done ++ [set]) rest := by
      rw [firstOnes, if_neg new, List.append_assoc, List.singleton_append]
    rw [firstOnes_append, ← List.append_assoc] at ih
    rw [grown]
    exact (List.prefix_append _ _).trans ih
  | case3 done set rest _ _ old _ ih =>
    rw [firstOnes, if_pos (Decidable.not_not.1 old)]
    exact ih

theorem run?_of_nil {d : Determinizer} (h : d.worklist = []) : d.run? nfa = some d := by
  rw [run?]
  split
  · rfl
  · next waiting => cases h.symm.trans waiting

theorem run?_of_cons {d : Determinizer} {id : Nat} {rest : List (Nat × StateSet)}
    (h : d.worklist = (id, set) :: rest) :
    d.run? nfa = (expand? nfa { d with worklist := rest } id set).bind (run? nfa) := by
  rw [run?]
  split
  · next waiting => cases h.symm.trans waiting
  · next waiting =>
    cases h.symm.trans waiting
    split
    · next none => rw [none]; rfl
    · next some => rw [some]; rfl

/-- The work when some sets have been looked at and the new ones among others wait. The rows hold
the numbers that the sets have in the end. -/
def reaching (nfa : Nfa) (all done todo : List StateSet) : Determinizer :=
  stage done (firstOnes done todo) (done.map (Dfa.subsetRow nfa all))
    ((Dfa.lastPosition? (·.contains nfa.initial) done).getD 0) (done.mapIdx .subsetNumbered)

/-- A set that is known does not wait again. -/
theorem reaching_of_mem {rest : List StateSet} (old : set ∈ done) :
    reaching nfa all done (set :: rest) = reaching nfa all done rest := by
  rw [reaching, firstOnes, if_pos old]
  rfl

/-- A new set is looked at, and its row is that of its state. -/
theorem run?_reaching_cons (bounded : nfa.table.Bounded) (within : set.Within nfa.size)
    {rest : List StateSet} (new : set ∉ done)
    (known : done ++ [set] ++
      firstOnes (done ++ [set]) (rest ++ (nfa.moves set).map (·.2)) <+: all) :
    (reaching nfa all done (set :: rest)).run? nfa =
      (reaching nfa all (done ++ [set]) (rest ++ (nfa.moves set).map (·.2))).run? nfa := by
  let waiting := firstOnes (done ++ [set]) rest
  let front := done.map (Dfa.subsetRow nfa all)
  let initial := (Dfa.lastPosition? (·.contains nfa.initial) done).getD 0
  let events := done.mapIdx Event.subsetNumbered
  have start : reaching nfa all done (set :: rest) =
      stage done (set :: waiting) front initial events := by
    rw [reaching, firstOnes, if_neg new]
  have last : front.length = done.length := List.length_map _
  rw [firstOnes_append, ← List.append_assoc] at known
  have expanded := expand?_stage initial events bounded within last known
  rw [start, run?_of_cons (worklist_stage ..), withWorklist_stage, ← last, expanded, Option.bind_some,
    reaching, firstOnes_append, Dfa.lastPosition?_concat, List.mapIdx_concat, List.map_append, last]
  rfl

/-- The work goes on as the search for sets does. -/
theorem run?_reaching (bounded : nfa.table.Bounded) (done todo : List StateSet)
    (within : ∀ set ∈ todo, set.Within nfa.size) :
    let all := nfa.explore done todo within
    (reaching nfa all done todo).run? nfa = some (reaching nfa all all []) := by
  -- The search puts every set behind `todo` and skips known ones later; here only new ones wait.
  fun_induction Nfa.explore nfa done todo within with
  | case1 => exact run?_of_nil rfl
  | case2 done set rest _ _ new within ih =>
    intro all
    rw [run?_reaching_cons bounded (within set List.mem_cons_self) new
      append_firstOnes_isPrefix_explore]
    exact ih
  | case3 done set rest _ _ old _ ih =>
    intro all
    rw [reaching_of_mem (Decidable.not_not.1 old)]
    exact ih

/-- The work starts with the set of the initial state. -/
theorem reaching_start (nfa : Nfa) (all : List StateSet) :
    let start := nothing.meet nfa.start
    { start.2 with initial := start.1 } = reaching nfa all [] [nfa.start] := by
  have table : Table.empty.addState = Table.empty.append [.empty] := Table.addState_append .empty []
  simp only [meet, nothing, table]
  rfl

/-- The work ends with all sets looked at. -/
theorem dfa_reaching_subsets (nfa : Nfa) : let d := reaching nfa nfa.subsets nfa.subsets []
    (⟨d.table, d.initial, d.ids.map (·.1)⟩ : Dfa) = .ofNfa nfa := by
  have rows (list : List Row) : Table.empty.append list = ⟨list.toArray⟩ := by
    rw [Table.append, Table.empty, Array.empty_append]
  have sets (list : List StateSet) : list.zipIdx.map (·.1) = list := List.zipIdx_map_fst 0 list
  simp only [reaching, firstOnes, stage, List.map_nil, List.append_nil, rows, sets]
  rfl

end Determinizer

/-- The work on an automaton that has a place for its initial state ends. It makes the automaton
of the reachable sets and reports each set when it is looked at. -/
theorem Nfa.determinize?_eq {nfa : Nfa} (rooted : nfa.Rooted) :
    nfa.determinize? = some ⟨Dfa.ofNfa nfa, (Dfa.ofNfa nfa).events⟩ := by
  have within : ∀ set ∈ [nfa.start], set.Within nfa.size :=
    List.forall_mem_singleton.2 (nfa.within_closure _)
  have start : nfa.table.closure? [nfa.initial] = some nfa.start :=
    rooted.bounded.closure?_eq_some_iff.2 ⟨List.forall_mem_singleton.2 rooted.initial_lt, rfl⟩
  have ran : (Determinizer.reaching nfa nfa.subsets [] [nfa.start]).run? nfa =
      some (Determinizer.reaching nfa nfa.subsets nfa.subsets []) :=
    Determinizer.run?_reaching rooted.bounded [] [nfa.start] within
  simp only [determinize?, start, Option.bind_eq_bind, Option.bind_some,
    Determinizer.reaching_start nfa nfa.subsets, ran, Determinizer.dfa_reaching_subsets]
  rfl

end LineGrep
