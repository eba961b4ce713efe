import LineGrep.Text.ByteEscape

/-!
The labels of transitions: a byte, the wildcard, or nothing. Slots are ordered by column: the bytes
in their order, then the wildcard, then the empty label. Main statements: each slot has a column of
its own and each column a slot, and the slots that consume a byte are listed in this order and are
all but the empty label.
-/

namespace LineGrep

inductive Slot where
  | byte (b : UInt8)
  | any
  | empty
  deriving DecidableEq, Repr

namespace Slot

def column : Slot → Nat
  | byte b => b.toNat
  | any => alphabetSize
  | empty => alphabetSize + 1

/-- The number of columns, one for each slot. -/
def columnCount : Nat :=
  alphabetSize + 2

/-- The slot of a column. -/
def ofColumn (column : Nat) : Slot :=
  if column = alphabetSize then any
  else if column = alphabetSize + 1 then empty
  else byte (UInt8.ofNat column)

def sort (slots : List Slot) : List Slot :=
  slots.mergeSort fun a b => a.column ≤ b.column

/-- The slots that consume a byte, in the order of their columns. -/
def consuming : List Slot :=
  (List.range alphabetSize).map (fun n => byte (UInt8.ofNat n)) ++ [any]

def text : Slot → List Char
  | byte b => Text.escapeByte b
  | any => "ANY".toList
  | empty => "EPS".toList

theorem column_lt (slot : Slot) : slot.column < columnCount := by
  cases slot with
  | byte b => exact Nat.lt_add_right 2 b.toNat_lt
  | any | empty => simp [column, columnCount]

/-- The column of a slot among those that there are. -/
def index (slot : Slot) : Fin columnCount :=
  ⟨slot.column, slot.column_lt⟩

theorem ofColumn_column (slot : Slot) : ofColumn slot.column = slot := by
  cases slot with
  | byte b =>
    have inside : b.toNat < alphabetSize := b.toNat_lt
    rw [column, ofColumn, if_neg (by omega), if_neg (by omega), UInt8.ofNat_toNat]
  | any | empty => rfl

theorem column_ofColumn {n : Nat} (h : n < columnCount) : (ofColumn n).column = n := by
  unfold ofColumn
  split
  · next wildcard => exact wildcard.symm
  · split
    · next last => exact last.symm
    · have inside : n < 256 := by
        simp only [columnCount, alphabetSize] at *
        omega
      exact UInt8.toNat_ofNat_of_lt' inside

theorem column_inj {a b : Slot} (h : a.column = b.column) : a = b := by
  rw [← ofColumn_column a, h, ofColumn_column]

/-- The slots before the last column, in their order, are those that consume a byte. -/
theorem map_ofColumn_range : (List.range empty.column).map ofColumn = consuming := by
  have bytes : (List.range alphabetSize).map ofColumn =
      (List.range alphabetSize).map fun n => byte (UInt8.ofNat n) := by
    refine List.map_congr_left fun n mem => ?_
    have inside := List.mem_range.1 mem
    rw [ofColumn, if_neg (by omega), if_neg (by omega)]
  rw [column, List.range_succ, List.map_append, bytes, consuming]
  rfl

theorem mem_consuming_iff {slot : Slot} : slot ∈ consuming ↔ slot ≠ .empty := by
  cases slot with
  | byte b =>
    simp only [consuming, List.mem_append, List.mem_map, List.mem_range]
    exact iff_of_true (Or.inl ⟨b.toNat, b.toNat_lt, by simp⟩) (by simp)
  | any => simp [consuming]
  | empty => simp [consuming]

theorem consuming_ordered : consuming.Pairwise fun a b => a.column < b.column := by
  have mod {n : Nat} (h : n < alphabetSize) : (UInt8.ofNat n).toNat = n := by
    simp only [UInt8.toNat_ofNat']
    exact Nat.mod_eq_of_lt h
  rw [consuming, List.pairwise_append, List.pairwise_map]
  refine ⟨List.Pairwise.imp_of_mem ?_ List.pairwise_lt_range, by simp, ?_⟩
  · intro m n hm hn lt
    simpa [column, mod (List.mem_range.1 hm), mod (List.mem_range.1 hn)] using lt
  · intro slot mem last hlast
    obtain ⟨n, hn, rfl⟩ := List.mem_map.1 mem
    rw [List.mem_singleton.1 hlast]
    simpa [column, mod (List.mem_range.1 hn)] using hn

end Slot

end LineGrep
