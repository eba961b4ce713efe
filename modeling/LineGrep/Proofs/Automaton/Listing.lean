import LineGrep.Automaton.Table
import LineGrep.Proofs.Text.ByteEscape
import LineGrep.Proofs.Text.Separated

/-!
Reading the listing of a table back. A row is listed as its slots with their targets and then its
markers. The label of a slot is not quoted, and any printable byte may stand there; but the space
and the arrow after it tell where it ends, and the second character of the wildcard, the empty
label and the markers is no space. Main statement: two tables have the same listing only if they
have the same states with the same targets in every slot and the same markers.
-/

namespace LineGrep

open Text

namespace Slot

variable {a b : Slot} {r s : List Char}

/-- Before a space, no byte is written like a word whose second character is not a space. -/
theorem escapeByte_append_ne {byte : UInt8} {first second : Char} (head : first ≠ backslash)
    (tail : second ≠ ' ') : escapeByte byte ++ ' ' :: r ≠ first :: second :: s := by
  intro same
  rcases escapeByte_cases byte with ⟨form, -⟩ | ⟨form, -⟩ | form
  all_goals
    rw [form] at same
    simp only [List.cons_append, List.nil_append, List.cons.injEq] at same
  · exact tail same.2.1.symm
  · exact head same.1.symm
  · exact head same.1.symm

/-- A line feed is written by its digits. -/
theorem escapeByte_append_ne_lineFeed {byte : UInt8} : escapeByte byte ++ r ≠ '\n' :: s := by
  intro same
  rcases escapeByte_cases byte with ⟨form, -⟩ | ⟨form, -⟩ | form
  all_goals
    have head := same
    rw [form] at head
    simp only [List.cons_append, List.cons.injEq] at head
  · have lineFeed : byte = 10 := charOf_inj.1 (head.1.trans (by decide))
    subst lineFeed
    exact absurd form (by decide)
  · exact absurd head.1 (by decide)
  · exact absurd head.1 (by decide)

theorem text_append_inj (same : a.text ++ ' ' :: r = b.text ++ ' ' :: s) : a = b ∧ r = s := by
  cases a with
  | byte x =>
    cases b with
    | byte y =>
      obtain ⟨rfl, rest⟩ := escapeByte_append_inj.1 same
      exact ⟨rfl, (List.cons.inj rest).2⟩
    | any | empty => exact absurd same (escapeByte_append_ne (by decide) (by decide))
  | any =>
    cases b with
    | byte y => exact absurd same.symm (escapeByte_append_ne (by decide) (by decide))
    | any => exact ⟨rfl, (List.cons.inj (List.append_cancel_left same)).2⟩
    | empty => simp [text] at same
  | empty =>
    cases b with
    | byte y => exact absurd same.symm (escapeByte_append_ne (by decide) (by decide))
    | any => simp [text] at same
    | empty => exact ⟨rfl, (List.cons.inj (List.append_cancel_left same)).2⟩

end Slot

namespace Row

/-- What the listing of a row consists of. -/
inductive Part where
  | entry (slot : Slot) (targets : List Nat)
  | initial
  | accepting

def Part.text : Part → List Char
  | entry slot targets => entryText (slot, targets)
  | initial => "INIT".toList
  | accepting => "ACCEPT".toList

def parts (row : Row) : List Part :=
  row.entries.map (fun entry => .entry entry.1 entry.2) ++
    (if row.initial then [.initial] else []) ++ if row.accepting then [.accepting] else []

theorem Part.text_entry (slot : Slot) (targets : List Nat) :
    (entry slot targets).text = entryText (slot, targets) := rfl

theorem Part.text_initial : initial.text = "INIT".toList := rfl

theorem Part.text_accepting : accepting.text = "ACCEPT".toList := rfl

variable {a b : Row} {as bs : List Nat} {r s : List Char}

theorem text_eq (row : Row) : row.text = commaSeparated (row.parts.map Part.text) := by
  simp only [text, parts, List.map_append, List.map_map]
  congr 1
  cases row.initial <;> cases row.accepting <;> rfl

theorem targetsText_append_inj (hr : Ends '\n' r) (hs : Ends '\n' s)
    (same : targetsText as ++ r = targetsText bs ++ s) : as = bs ∧ r = s := by
  have digitless : ∀ {n : Nat} {t u : List Char}, decimal n ++ t ≠ '\x7b' :: u :=
    (separable_decimal (by decide)).append_ne
  unfold targetsText at same
  split at same <;> split at same
  · next m n =>
    obtain ⟨rfl, rest⟩ := (separable_decimal (by decide)).append_inj hr hs same
    exact ⟨rfl, rest⟩
  · exact absurd same digitless
  · exact absurd same.symm digitless
  · have inner : commaSeparated (as.map decimal) ++ '\x7d' :: r =
        commaSeparated (bs.map decimal) ++ '\x7d' :: s := by
      simpa using same
    exact (separable_decimal (by decide)).commaSeparated_inj (by decide) inner

theorem entryText_append (slot : Slot) (targets : List Nat) (r : List Char) :
    entryText (slot, targets) ++ r =
      slot.text ++ ' ' :: (['-', '>', ' '] ++ (targetsText targets ++ r)) := by
  simp [entryText]

/-- No entry is written like a marker, whatever follows. -/
theorem entryText_append_ne {slot : Slot} {targets : List Nat} {p : Part}
    (marker : p = .initial ∨ p = .accepting) :
    entryText (slot, targets) ++ r ≠ p.text ++ s := by
  rw [entryText_append]
  rcases marker with rfl | rfl
  all_goals
    cases slot with
    | byte x => exact Slot.escapeByte_append_ne (by decide) (by decide)
    | any | empty => simp [Slot.text, Part.text_initial, Part.text_accepting]

theorem separable_text : Separable '\n' Part.text where
  append_inj {p q r s} hr hs same := by
    cases p with
    | entry slot targets =>
      cases q with
      | entry slot' targets' =>
        simp only [Part.text_entry, entryText_append] at same
        obtain ⟨rfl, arrow⟩ := Slot.text_append_inj same
        obtain ⟨rfl, rest⟩ := targetsText_append_inj hr hs (List.append_cancel_left arrow)
        exact ⟨rfl, rest⟩
      | initial => exact absurd same (entryText_append_ne (Or.inl rfl))
      | accepting => exact absurd same (entryText_append_ne (Or.inr rfl))
    | initial =>
      cases q with
      | entry => exact absurd same.symm (entryText_append_ne (Or.inl rfl))
      | initial => exact ⟨rfl, List.append_cancel_left same⟩
      | accepting => simp [Part.text_initial, Part.text_accepting] at same
    | accepting =>
      cases q with
      | entry => exact absurd same.symm (entryText_append_ne (Or.inr rfl))
      | initial => simp [Part.text_initial, Part.text_accepting] at same
      | accepting => exact ⟨rfl, List.append_cancel_left same⟩
  append_ne {p r s} same := by
    cases p with
    | entry slot targets =>
      rw [Part.text_entry, entryText_append] at same
      cases slot with
      | byte x => exact Slot.escapeByte_append_ne_lineFeed same
      | any | empty => simp [Slot.text] at same
    | initial | accepting => simp [Part.text_initial, Part.text_accepting] at same

theorem text_append_inj (same : a.text ++ '\n' :: r = b.text ++ '\n' :: s) :
    a.parts = b.parts ∧ r = s := by
  rw [text_eq, text_eq] at same
  exact separable_text.commaSeparated_inj (by decide) same

theorem entry_mem_parts_iff {slot : Slot} {targets : List Nat} :
    .entry slot targets ∈ a.parts ↔ targets ≠ [] ∧ a.targets slot = targets := by
  rw [← mem_entries_iff, parts]
  cases a.initial <;> cases a.accepting <;> simp

theorem initial_mem_parts_iff : .initial ∈ a.parts ↔ a.initial = true := by
  rw [parts]
  cases a.initial <;> cases a.accepting <;> simp

theorem accepting_mem_parts_iff : .accepting ∈ a.parts ↔ a.accepting = true := by
  rw [parts]
  cases a.initial <;> cases a.accepting <;> simp

/-- The parts of a listing leave out nothing but the slots without targets. -/
theorem eq_of_parts_eq (same : a.parts = b.parts) : a = b := by
  refine ext_targets (fun slot => ?_) ?_ ?_
  · have held {targets : List Nat} (some : targets ≠ []) :
        a.targets slot = targets ↔ b.targets slot = targets := by
      have entry : .entry slot targets ∈ a.parts ↔ .entry slot targets ∈ b.parts := by rw [same]
      simpa [entry_mem_parts_iff, some] using entry
    by_cases left : a.targets slot = []
    · by_cases right : b.targets slot = []
      · rw [left, right]
      · exact (held right).2 rfl
    · exact ((held left).1 rfl).symm
  · rw [Bool.eq_iff_iff, ← initial_mem_parts_iff, same, initial_mem_parts_iff]
  · rw [Bool.eq_iff_iff, ← accepting_mem_parts_iff, same, accepting_mem_parts_iff]

end Row

namespace Table

/-- Listed rows are determined by the text of all lines, if the lines are numbered alike. -/
theorem rows_inj {rows others : List Row} (number : Nat → List Char)
    (same : (rows.mapIdx fun id row => number id ++ row.text).flatMap (· ++ ['\n']) =
      (others.mapIdx fun id row => number id ++ row.text).flatMap (· ++ ['\n'])) :
    rows = others := by
  induction rows generalizing others number with
  | nil =>
    cases others with
    | nil => rfl
    | cons other others => simp [List.mapIdx_cons] at same
  | cons row rows ih =>
    cases others with
    | nil => simp [List.mapIdx_cons] at same
    | cons other others =>
      simp only [List.mapIdx_cons, List.flatMap_cons, List.append_assoc, List.cons_append,
        List.nil_append, List.append_cancel_left_eq] at same
      obtain ⟨first, rest⟩ := Row.text_append_inj same
      rw [Row.eq_of_parts_eq first, ih (fun id => number (id + 1)) rest]

theorem text_inj {a b : Table} (same : a.text = b.text) : a = b :=
  Table.ext (Array.toList_inj.1 (rows_inj (fun id => decimal id ++ [':', ' ']) same))

theorem ext_rows {a b : Table} (size : a.size = b.size) (rows : ∀ id < a.size, a.row id = b.row id) :
    a = b := by
  refine Table.ext (Array.ext size fun id left right => ?_)
  have same := rows id left
  rwa [row, row, row?, row?, Array.getElem?_eq_getElem left, Array.getElem?_eq_getElem right] at same

/-- Two tables have the same listing exactly if they have as many states and each state has the same
targets in every slot, in the same order and with the same repetitions, and the same markers. -/
theorem text_eq_text_iff (a b : Table) : a.text = b.text ↔
    a.size = b.size ∧ ∀ id < a.size,
      (∀ slot, (a.row id).targets slot = (b.row id).targets slot) ∧
        (a.row id).initial = (b.row id).initial ∧
        (a.row id).accepting = (b.row id).accepting := by
  constructor
  · intro same
    rw [text_inj same]
    exact ⟨rfl, fun id _ => ⟨fun _ => rfl, rfl, rfl⟩⟩
  · rintro ⟨size, rows⟩
    rw [ext_rows size fun id inside => Row.ext_targets (rows id inside).1 (rows id inside).2.1
      (rows id inside).2.2]

end Table

end LineGrep
