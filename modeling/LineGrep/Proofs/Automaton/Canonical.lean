import Mathlib.Data.Finset.Sort
import Mathlib.Data.List.Destutter
import LineGrep.Automaton.Bisection

/-!
A set of states is the canonical form of the lists with its elements. Collecting such a list by
sorting and by dropping repetitions gives the numbers of the set, whatever the sort does with equal
numbers; the order of sets is the lexicographic order of these numbers. Main statement: sets that are
made from lists are equal if the lists have the same elements, and everything that is asked of a set
depends on these elements alone.
-/

namespace LineGrep

namespace StateSet

/-- The numbers `ids` are those of a list, sorted in some way and without any number that follows
an equal one. -/
def Collected (list ids : List Nat) : Prop :=
  ∃ sorted : List Nat, sorted.Perm list ∧ sorted.Pairwise (· ≤ ·) ∧
    ids = sorted.destutter (· ≠ ·)

theorem ids_ofList_eq_sort (list : List Nat) : (ofList list).ids = list.toFinset.sort (· ≤ ·) :=
  eq_of_sorted (ofList list).sorted (Finset.sortedLT_sort _).pairwise fun id => by
    rw [Finset.mem_sort, List.mem_toFinset]
    exact mem_ofList

theorem ids_ofList_eq_destutter {list sorted : List Nat} (perm : sorted.Perm list)
    (rises : sorted.Pairwise (· ≤ ·)) : (ofList list).ids = sorted.destutter (· ≠ ·) := by
  rw [rises.destutter_eq_dedup]
  have strictly : sorted.dedup.Pairwise (· < ·) :=
    ((rises.sublist sorted.dedup_sublist).and sorted.nodup_dedup).imp fun ⟨le, ne⟩ =>
      Nat.lt_of_le_of_ne le ne
  refine eq_of_sorted (ofList list).sorted strictly fun id => ?_
  rw [List.mem_dedup, perm.mem_iff]
  exact mem_ofList

theorem collected_iff {list ids : List Nat} : Collected list ids ↔ ids = (ofList list).ids := by
  constructor
  · rintro ⟨sorted, perm, rises, rfl⟩
    exact (ids_ofList_eq_destutter perm rises).symm
  · rintro rfl
    have perm := list.mergeSort_perm (· ≤ ·)
    have rises : (list.mergeSort (· ≤ ·)).Pairwise (· ≤ ·) := list.pairwise_mergeSort' (· ≤ ·)
    exact ⟨list.mergeSort (· ≤ ·), perm, rises, ids_ofList_eq_destutter perm rises⟩

theorem size_ofList (list : List Nat) : (ofList list).size = list.toFinset.card := by
  rw [size, ids_ofList_eq_sort, Finset.length_sort]

theorem ofList_eq_ofList_iff {a b : List Nat} : ofList a = ofList b ↔ ∀ id, id ∈ a ↔ id ∈ b := by
  constructor
  · intro same id
    rw [← mem_ofList, same, mem_ofList]
  · intro same
    exact ext_mem fun id => by rw [mem_ofList, mem_ofList, same]

theorem compareLex_eq_lt_iff {a b : List Nat} :
    List.compareLex compare a b = .lt ↔ List.Lex (· < ·) a b := by
  induction a generalizing b with
  | nil => cases b <;> simp [List.compareLex]
  | cons x a ih =>
    cases b with
    | nil => simp [List.compareLex]
    | cons y b =>
      rw [List.compareLex_cons_cons, List.cons_lex_cons_iff, Ordering.then_eq_lt, ih,
        Nat.compare_eq_lt, Nat.compare_eq_eq]

instance : Std.TransOrd StateSet :=
  inferInstanceAs (Std.TransCmp (compareOn StateSet.ids))

instance : Std.LawfulEqOrd StateSet where
  eq_of_compare {a b} equal := by
    have same : compare a.ids b.ids = .eq := equal
    exact StateSet.ext (Std.LawfulEqCmp.eq_of_compare same)

theorem compare_ofList_eq_lt_iff {a b : List Nat} : compare (ofList a) (ofList b) = .lt ↔
    List.Lex (· < ·) (a.toFinset.sort (· ≤ ·)) (b.toFinset.sort (· ≤ ·)) := by
  rw [← ids_ofList_eq_sort, ← ids_ofList_eq_sort]
  exact compareLex_eq_lt_iff

/-- The set made from a list is what collecting the list gives; membership by bisection, the size
and the increasing numbers are those of the elements of the list. Sets are equal if their lists have
the same elements, and their order is total and tells different sets apart. -/
theorem ofList_canonical (a b c : List Nat) :
    (ofList a = ofList b ↔ ∀ id, id ∈ a ↔ id ∈ b) ∧
    (∀ ids, Collected a ids ↔ ids = (ofList a).ids) ∧
    (∀ id, (ofList a).contains id = ((ofList a).find? id).isSome ∧
      ((ofList a).contains id = true ↔ id ∈ a)) ∧
    (ofList a).size = a.toFinset.card ∧
    (ofList a).ids.Pairwise (· < ·) ∧
    (compare (ofList a) (ofList b) = .lt ↔
      List.Lex (· < ·) (a.toFinset.sort (· ≤ ·)) (b.toFinset.sort (· ≤ ·))) ∧
    (compare (ofList a) (ofList b) = .eq ↔ ofList a = ofList b) ∧
    compare (ofList b) (ofList a) = (compare (ofList a) (ofList b)).swap ∧
    ((compare (ofList a) (ofList b)).isLE → (compare (ofList b) (ofList c)).isLE →
      (compare (ofList a) (ofList c)).isLE) := by
  refine ⟨ofList_eq_ofList_iff, fun ids => collected_iff, fun id => ⟨contains_eq _ id, ?_⟩,
    size_ofList a, (ofList a).sorted, compare_ofList_eq_lt_iff, Std.LawfulEqCmp.compare_eq_iff_eq,
    Std.OrientedCmp.eq_swap, Std.TransCmp.isLE_trans⟩
  rw [contains_iff, mem_ofList]

/-- A set comes before its extensions, and these before a set with a greater first element, in
whatever order and how often the elements were found. -/
theorem isLE_compare_extended_and_greater :
    (compare (ofList [1, 0, 1]) (ofList [2, 0, 1, 2])).isLE ∧
    (compare (ofList [2, 0, 1, 2]) (ofList [5, 3, 5])).isLE ∧
    (compare (ofList [1, 0, 1]) (ofList [5, 3, 5])).isLE := by
  have extended : (compare (ofList [1, 0, 1]) (ofList [2, 0, 1, 2])).isLE := by decide
  have greater : (compare (ofList [2, 0, 1, 2]) (ofList [5, 3, 5])).isLE := by decide
  obtain ⟨_, _, _, _, _, _, _, _, trans⟩ := ofList_canonical [1, 0, 1] [2, 0, 1, 2] [5, 3, 5]
  exact ⟨extended, greater, trans extended greater⟩

end StateSet

end LineGrep
