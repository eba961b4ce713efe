import LineGrep.Text.Decimal

/-!
Finite sets of states in a canonical form: the numbers of the states in increasing order. Main
statements: a set made from a list has the elements of the list, and two sets with the same elements
are equal.
-/

namespace LineGrep

@[ext] structure StateSet where
  ids : List Nat
  sorted : ids.Pairwise (· < ·)
  deriving DecidableEq, Repr

namespace StateSet

def insertId (id : Nat) : List Nat → List Nat
  | [] => [id]
  | x :: rest =>
    if id < x then id :: x :: rest
    else if id = x then x :: rest
    else x :: insertId id rest

theorem mem_insertId {id x : Nat} {ids : List Nat} : x ∈ insertId id ids ↔ x = id ∨ x ∈ ids := by
  induction ids with
  | nil => simp [insertId]
  | cons y rest ih =>
    unfold insertId
    split
    · simp
    · split
      · next h => subst h; simp
      · simp only [List.mem_cons, ih]
        constructor
        · rintro (h | h | h) <;> simp [h]
        · rintro (h | h | h) <;> simp [h]

theorem sorted_insertId {id : Nat} {ids : List Nat} (h : ids.Pairwise (· < ·)) :
    (insertId id ids).Pairwise (· < ·) := by
  induction ids with
  | nil => simp [insertId]
  | cons y rest ih =>
    obtain ⟨above, tail⟩ := List.pairwise_cons.1 h
    unfold insertId
    split
    · next lt =>
      refine List.pairwise_cons.2 ⟨fun z mem => ?_, h⟩
      rcases List.mem_cons.1 mem with rfl | mem
      · exact lt
      · exact Nat.lt_trans lt (above z mem)
    · split
      · exact h
      · refine List.pairwise_cons.2 ⟨fun z mem => ?_, ih tail⟩
        rcases mem_insertId.1 mem with rfl | mem
        · omega
        · exact above z mem

def empty : StateSet :=
  ⟨[], .nil⟩

def insert (id : Nat) (s : StateSet) : StateSet :=
  ⟨insertId id s.ids, sorted_insertId s.sorted⟩

def ofList (ids : List Nat) : StateSet :=
  ids.foldr insert empty

instance : Membership Nat StateSet :=
  ⟨fun s id => id ∈ s.ids⟩

theorem mem_def {id : Nat} {s : StateSet} : id ∈ s ↔ id ∈ s.ids := Iff.rfl

def contains (s : StateSet) (id : Nat) : Bool :=
  s.ids.contains id

def size (s : StateSet) : Nat :=
  s.ids.length

def isEmpty (s : StateSet) : Bool :=
  s.ids.isEmpty

/-- The elements compared one by one in increasing order, a set before its extensions. -/
instance : Ord StateSet :=
  ⟨fun a b => List.compareLex compare a.ids b.ids⟩

def text (s : StateSet) : List Char :=
  '\x7b' :: Text.commaSeparated (s.ids.map Text.decimal) ++ ['\x7d']

@[simp] theorem mem_insert {id x : Nat} {s : StateSet} : x ∈ s.insert id ↔ x = id ∨ x ∈ s :=
  mem_insertId

@[simp] theorem not_mem_empty {x : Nat} : x ∉ empty := by
  simp [mem_def, empty]

@[simp] theorem mem_ofList {ids : List Nat} {x : Nat} : x ∈ ofList ids ↔ x ∈ ids := by
  induction ids with
  | nil => simp [ofList]
  | cons id rest ih =>
    show x ∈ (ofList rest).insert id ↔ _
    rw [mem_insert, ih, List.mem_cons]

theorem contains_iff {s : StateSet} {id : Nat} : s.contains id = true ↔ id ∈ s := by
  simp [contains, mem_def]

theorem isEmpty_iff {s : StateSet} : s.isEmpty = true ↔ ∀ id, id ∉ s := by
  rw [isEmpty, List.isEmpty_iff, List.eq_nil_iff_forall_not_mem]
  exact Iff.rfl

theorem eq_of_sorted {a b : List Nat} (ha : a.Pairwise (· < ·)) (hb : b.Pairwise (· < ·))
    (h : ∀ x, x ∈ a ↔ x ∈ b) : a = b := by
  induction a generalizing b with
  | nil =>
    cases b with
    | nil => rfl
    | cons y b => exact absurd ((h y).2 (by simp)) (by simp)
  | cons x a ih =>
    cases b with
    | nil => exact absurd ((h x).1 (by simp)) (by simp)
    | cons y b =>
      obtain ⟨hxa, ha⟩ := List.pairwise_cons.1 ha
      obtain ⟨hyb, hbs⟩ := List.pairwise_cons.1 hb
      have hxy : x = y := by
        rcases List.mem_cons.1 ((h x).1 (by simp)) with e | mx
        · exact e
        · rcases List.mem_cons.1 ((h y).2 (by simp)) with e | my
          · exact e.symm
          · have := hxa y my
            have := hyb x mx
            omega
      subst hxy
      refine congrArg (x :: ·) (ih ha hbs fun z => ⟨fun mz => ?_, fun mz => ?_⟩)
      · rcases List.mem_cons.1 ((h z).1 (List.mem_cons_of_mem _ mz)) with e | mb
        · exact absurd (hxa z mz) (by omega)
        · exact mb
      · rcases List.mem_cons.1 ((h z).2 (List.mem_cons_of_mem _ mz)) with e | ma
        · exact absurd (hyb z mz) (by omega)
        · exact ma

theorem ext_mem {a b : StateSet} (h : ∀ x, x ∈ a ↔ x ∈ b) : a = b :=
  StateSet.ext (eq_of_sorted a.sorted b.sorted h)

end StateSet

end LineGrep
