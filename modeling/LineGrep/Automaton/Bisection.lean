import Mathlib.Data.List.Sort
import LineGrep.Automaton.StateSet

/-!
Looking for an element of a set by bisection of its numbers. The search does not compare for equality
before one place is left: it keeps the half in which the element can still be. Main statement: every
element is found at its place, and nothing else is found.
-/

namespace LineGrep

namespace StateSet

/-- The one place of the `size` places from `base` on where `id` can be. The later half is left out
if it starts above `id`, the earlier one if not. -/
def bisect (ids : List Nat) (id base size : Nat) (room : 0 < size)
    (inside : base + size ≤ ids.length) : Fin ids.length :=
  if _more : 1 < size then
    if id < ids[base + size / 2] then
      bisect ids id base (size - size / 2) (by omega) (by omega)
    else
      bisect ids id (base + size / 2) (size - size / 2) (by omega) (by omega)
  else
    ⟨base, by omega⟩
termination_by size

/-- The place of a state in a set, if the set has it. -/
def find? (s : StateSet) (id : Nat) : Option (Fin s.ids.length) :=
  if room : 0 < s.ids.length then
    let place := bisect s.ids id 0 s.ids.length room (by omega)
    if s.ids[place] = id then some place else none
  else none

/-- Bisection keeps the place of an element among the places that are left. -/
theorem bisect_getElem {ids : List Nat} (sorted : ids.SortedLT) {base size : Nat}
    (room : 0 < size) (inside : base + size ≤ ids.length) (place : Fin ids.length)
    (from_base : base ≤ place) (before_end : place < base + size) :
    bisect ids ids[place] base size room inside = place := by
  fun_induction bisect ids ids[place] base size room inside with
  | case1 base size room inside more below ih =>
    have := sorted.getElem_lt_getElem_iff.1 below
    exact ih from_base (by omega)
  | case2 base size room inside more above ih =>
    have := mt sorted.getElem_lt_getElem_iff.2 above
    exact ih (by omega) (by omega)
  | case3 base size room inside last =>
    exact Fin.ext (by simp only; omega)

theorem getElem_of_find?_eq_some {s : StateSet} {id : Nat} {place : Fin s.ids.length}
    (found : s.find? id = some place) : s.ids[place] = id := by
  unfold find? at found
  split at found
  · dsimp only at found
    split at found
    · next holds => exact Option.some.inj found ▸ holds
    · nomatch found
  · nomatch found

theorem find?_getElem (s : StateSet) (place : Fin s.ids.length) :
    s.find? s.ids[place] = some place := by
  have room : 0 < s.ids.length := Nat.zero_lt_of_lt place.2
  have kept := bisect_getElem s.sorted.sortedLT room (by omega) place (Nat.zero_le _) (by omega)
  simp only [find?, room, dite_true, kept, if_true]

theorem find?_eq_some_iff {s : StateSet} {id : Nat} {place : Fin s.ids.length} :
    s.find? id = some place ↔ s.ids[place] = id :=
  ⟨getElem_of_find?_eq_some, fun holds => holds ▸ find?_getElem s place⟩

theorem isSome_find?_iff {s : StateSet} {id : Nat} : (s.find? id).isSome = true ↔ id ∈ s := by
  rw [Option.isSome_iff_exists, mem_def, List.mem_iff_get]
  exact exists_congr fun place => find?_eq_some_iff

theorem contains_eq (s : StateSet) (id : Nat) : s.contains id = (s.find? id).isSome :=
  Bool.eq_iff_iff.2 (contains_iff.trans isSome_find?_iff.symm)

end StateSet

end LineGrep
