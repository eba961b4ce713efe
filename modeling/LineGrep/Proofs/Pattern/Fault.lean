import LineGrep.Proofs.Pattern.Derivation
import Mathlib.Data.List.Infix

/-!
The fault of a pattern, as one pass from left to right finds it. Each open group keeps a row in which
an operand is seen as a whole, and a row is checked when its group is closed or the pattern ends.
Each rewriting of stars, neighbours and bars leaves a row with the same fault, whatever faults the
row has besides. Main statement: reading a pattern fails with the fault of the pass, and gives a tree
if there is none.
-/

namespace LineGrep.Pattern

/-- An entry of a row, of which an operand keeps nothing. -/
inductive Symbol where
  | operand
  | mark (m : Mark)
  deriving DecidableEq, Repr

def Symbol.ofChar (c : Char) : Symbol :=
  if c = '*' then .mark .star
  else if c = '|' then .mark .bar
  else .operand

/-- The fault of a row without groups. Stars are checked first, then the left sides of the bars and
then the right sides. -/
def rowFault? (row : List Symbol) : Option ParseError :=
  if row.head? = some (.mark .star) ∨ [.mark .bar, .mark .star] <:+: row then
    some .starWithoutOperand
  else if row.head? = some (.mark .bar) then some .missingLeftOperand
  else if row.getLast? = some (.mark .bar) ∨ [.mark .bar, .mark .bar] <:+: row then
    some .missingRightOperand
  else none

/-- The first fault of what is left of a pattern, with the innermost open row and the rows around
it. -/
def scanFault? (row : List Symbol) (outer : List (List Symbol)) : List Char → Option ParseError
  | [] => if outer.isEmpty then rowFault? row else some .missingRightParen
  | c :: rest =>
    if c = '(' then scanFault? [] (row :: outer) rest
    else if c = ')' then
      match outer with
      | [] => some .missingLeftParen
      | enclosing :: outer =>
        if row.isEmpty then some .malformedGroup
        else (rowFault? row).or (scanFault? (enclosing ++ [.operand]) outer rest)
    else scanFault? (row ++ [.ofChar c]) outer rest

/-- The fault of a pattern. The first character outside the alphabet counts before the structure. -/
def fault? (pattern : List Char) : Option ParseError :=
  if pattern.isEmpty then some .empty
  else
    match pattern.find? (fun c => alphabetSize ≤ c.toNat) with
    | some c => some (.unsupportedCharacter c)
    | none => scanFault? [] [] pattern

/-- The error of a result, if it is one. -/
def errorOf {α : Type} : Except ParseError α → Option ParseError
  | .ok _ => none
  | .error e => some e

@[simp] theorem errorOf_map {α β : Type} (r : Except ParseError α) (f : α → β) :
    errorOf (r.map f) = errorOf r := by
  cases r <;> rfl

theorem errorOf_eq_some_iff {α : Type} {r : Except ParseError α} {e : ParseError} :
    errorOf r = some e ↔ r = .error e := by
  cases r <;> simp [errorOf]

theorem errorOf_eq_none_iff {α : Type} {r : Except ParseError α} :
    errorOf r = none ↔ ∃ a, r = .ok a := by
  cases r <;> simp [errorOf]

/-! Rows with the same fault -/

/-- Two symbols stand side by side in a row or at its front. -/
theorem pair_infix_cons_iff {a b x : Symbol} {row : List Symbol} :
    [a, b] <:+: x :: row ↔ x = a ∧ row.head? = some b ∨ [a, b] <:+: row := by
  have second : [b] <+: row ↔ row.head? = some b := by
    cases row with
    | nil => simp
    | cons y row => rw [List.cons_prefix_cons, List.head?_cons, Option.some_inj, eq_comm]; simp
  rw [List.infix_cons_iff, List.cons_prefix_cons, second, @eq_comm _ a]

theorem getLast?_cons_eq_some_iff {a x : Symbol} {row : List Symbol} :
    (x :: row).getLast? = some a ↔ row.head? = none ∧ x = a ∨ row.getLast? = some a := by
  cases row with
  | nil => simp
  | cons y row => simp [List.getLast?_cons_cons]

/-- What the fault of a row depends on is the same in both rows. -/
structure Alike (row row' : List Symbol) : Prop where
  head : row.head? = row'.head?
  last : row.getLast? = some (.mark .bar) ↔ row'.getLast? = some (.mark .bar)
  stars : [.mark .bar, .mark .star] <:+: row ↔ [.mark .bar, .mark .star] <:+: row'
  bars : [.mark .bar, .mark .bar] <:+: row ↔ [.mark .bar, .mark .bar] <:+: row'

theorem Alike.rowFault?_eq {row row' : List Symbol} (h : Alike row row') :
    rowFault? row = rowFault? row' := by
  simp only [rowFault?, h.head, h.last, h.stars, h.bars]

theorem Alike.cons (x : Symbol) {row row' : List Symbol} (h : Alike row row') :
    Alike (x :: row) (x :: row') where
  head := rfl
  last := by rw [getLast?_cons_eq_some_iff, getLast?_cons_eq_some_iff, h.head, h.last]
  stars := by rw [pair_infix_cons_iff, pair_infix_cons_iff, h.head, h.stars]
  bars := by rw [pair_infix_cons_iff, pair_infix_cons_iff, h.head, h.bars]

/-- An operand takes in a star, a neighbour and a bar with its other side. -/
theorem alike_operand (front row : List Symbol)
    (joined : front ∈ [[.mark .star], [.operand], [.mark .bar, .operand]]) :
    Alike (.operand :: front ++ row) (.operand :: row) := by
  simp only [List.mem_cons, List.not_mem_nil, or_false] at joined
  rcases joined with rfl | rfl | rfl
  all_goals
    constructor
    · rfl
    all_goals simp [pair_infix_cons_iff, getLast?_cons_eq_some_iff]

/-! Rewriting rows -/

def Item.symbol : Item → Symbol
  | .tree _ => .operand
  | .mark m => .mark m

namespace Buffer

def symbols (row : Buffer) : List Symbol :=
  row.map Item.symbol

theorem symbols_append (front back : Buffer) :
    (front ++ back).symbols = front.symbols ++ back.symbols :=
  List.map_append

def flatFault? (row : Buffer) : Option ParseError :=
  rowFault? row.symbols

/-- Rows that are alike have the same fault, and both are empty or neither is. -/
theorem keeps_of_alike {before after : Buffer} (h : Alike before.symbols after.symbols)
    (nonempty : before ≠ []) : after ≠ [] ∧ after.flatFault? = before.flatFault? := by
  refine ⟨?_, h.rowFault?_eq.symm⟩
  rintro rfl
  have none : before.symbols = [] := List.head?_eq_none_iff.1 h.head
  exact nonempty (List.map_eq_nil_iff.1 none)

theorem alike_rewriteStar {before after : Buffer} (h : rewriteStar before = .ok (some after)) :
    Alike before.symbols after.symbols := by
  fun_induction rewriteStar before generalizing after with
  | case1 | case2 => simp at h
  | case3 => cases h; exact alike_operand [.mark .star] _ (by simp)
  | case4 item rest _ _ ih =>
    obtain ⟨tail, ht, rfl⟩ := map_cons_eq h
    exact (ih ht).cons item.symbol

theorem alike_rewriteCat {before after : Buffer} (h : rewriteCat before = .ok (some after)) :
    Alike before.symbols after.symbols := by
  fun_induction rewriteCat before generalizing after with
  | case1 => simp at h
  | case2 => cases h; exact alike_operand [.operand] _ (by simp)
  | case3 item rest _ ih =>
    obtain ⟨tail, ht, rfl⟩ := map_cons_eq h
    exact (ih ht).cons item.symbol

theorem alike_rewriteBar {before after : Buffer} (h : rewriteBar before = .ok (some after)) :
    Alike before.symbols after.symbols := by
  fun_induction rewriteBar before generalizing after with
  | case1 | case2 | case4 => simp at h
  | case3 => cases h; exact alike_operand [.mark .bar, .operand] _ (by simp)
  | case5 item rest _ _ _ ih =>
    obtain ⟨tail, ht, rfl⟩ := map_cons_eq h
    exact (ih ht).cons item.symbol

theorem eq_cons_of_head?_symbols {row : Buffer} {m : Mark}
    (h : row.symbols.head? = some (.mark m)) : ∃ rest, row = .mark m :: rest := by
  match row, h with
  | .mark n :: rest, h =>
    obtain rfl : n = m := by simpa [symbols, Item.symbol] using h
    exact ⟨rest, rfl⟩

theorem mark_mem_of_mem_symbols {row : Buffer} {m : Mark} (h : .mark m ∈ row.symbols) :
    .mark m ∈ row := by
  obtain ⟨item, mem, same⟩ := List.mem_map.1 h
  cases item with
  | tree t => cases same
  | mark n => cases same; exact mem

/-- A star that stops the rewriting stands at the front of the row or after a bar. -/
theorem star_of_rewriteStar_error {row : Buffer} {e : ParseError}
    (marks : OnlyMarks [.star, .bar] row) (h : rewriteStar row = .error e) :
    e = .starWithoutOperand ∧ (row.symbols.head? = some (.mark .star) ∨
      [.mark .bar, .mark .star] <:+: row.symbols) := by
  fun_induction rewriteStar row with
  | case1 | case3 => simp at h
  | case2 rest => exact ⟨(Except.error.inj h).symm, Or.inl rfl⟩
  | case4 item rest notStar notStarred ih =>
    obtain ⟨rfl, first | later⟩ := ih marks.tail (map_cons_error h)
    · obtain ⟨rest, rfl⟩ := eq_cons_of_head?_symbols first
      have bar : item = .mark .bar := by
        cases item with
        | tree t => exact absurd rfl (notStarred t rest rfl)
        | mark m =>
          cases m with
          | bar => rfl
          | star => exact absurd rfl notStar
          | opening | closing => exact absurd marks.head (by decide)
      exact ⟨rfl, Or.inr (pair_infix_cons_iff.2 (Or.inl ⟨congrArg Item.symbol bar, first⟩))⟩
    · exact ⟨rfl, Or.inr (pair_infix_cons_iff.2 (Or.inr later))⟩

theorem flatFault?_of_rewriteStar_error {row : Buffer} {e : ParseError}
    (marks : OnlyMarks [.star, .bar] row) (h : rewriteStar row = .error e) :
    row.flatFault? = some e := by
  obtain ⟨rfl, star⟩ := star_of_rewriteStar_error marks h
  rw [flatFault?, rowFault?, if_pos star]

/-- Where no star is left, only the sides of the bars are checked. -/
theorem flatFault?_of_onlyMarks_bar {row : Buffer} (marks : OnlyMarks [.bar] row) :
    row.flatFault? =
      if row.symbols.head? = some (.mark .bar) then some .missingLeftOperand
      else if row.symbols.getLast? = some (.mark .bar) ∨
        [.mark .bar, .mark .bar] <:+: row.symbols then some .missingRightOperand
      else none := by
  have star : .mark .star ∉ row.symbols := fun mem =>
    absurd (marks .star (mark_mem_of_mem_symbols mem)) (by decide)
  rw [flatFault?, rowFault?, if_neg]
  rintro (first | later)
  · exact star (List.mem_of_head? first)
  · exact star (later.subset (by simp))

theorem flatFault?_of_rewriteBar_error {row : Buffer} (marks : OnlyMarks [.bar] row)
    (spaced : Spaced row) {e : ParseError} (h : rewriteBar row = .error e) :
    row.flatFault? = some e := by
  rw [flatFault?_of_onlyMarks_bar marks]
  rcases begins_of_spaced marks spaced with rfl | ⟨t, rfl⟩ | ⟨rest, rfl⟩ | ⟨left, rest, rfl⟩
  · simp [rewriteBar] at h
  · simp [rewriteBar, Except.map] at h
  · cases h
    rfl
  · cases rest with
    | nil =>
      cases h
      rfl
    | cons item rest =>
      cases item with
      | tree right => simp [rewriteBar] at h
      | mark m =>
        obtain rfl := marks.tail.tail.eq_bar
        cases h
        simp [symbols, Item.symbol, pair_infix_cons_iff]

/-! Rows as a whole -/

/-- Rewriting to the end keeps the fault of a row, if each step leaves a row that is alike. -/
theorem keeps_exhaust_of_alike {rewrite : Buffer → Rewriting} (shortens : Shortens rewrite)
    (inv : Buffer → Prop) {kept : Buffer → Prop}
    (alike : ∀ {before after}, rewrite before = .ok (some after) →
      Alike before.symbols after.symbols)
    (keeps : ∀ {before after}, inv before → rewrite before = .ok (some after) → inv after)
    (fails : ∀ {row e}, inv row → rewrite row = .error e → row.flatFault? = some e)
    (done : ∀ {row}, inv row → row ≠ [] → rewrite row = .ok none → kept row) {row : Buffer}
    (h : inv row) (nonempty : row ≠ []) :
    Keeps flatFault? some row (exhaust rewrite shortens row) kept := by
  refine keeps_exhaust _ _ _ (fun row => inv row ∧ row ≠ []) ?_ ?_ ?_ ⟨h, nonempty⟩
  · intro before after h step
    obtain ⟨ne, same⟩ := keeps_of_alike (alike step) h.2
    exact ⟨⟨keeps h.1 step, ne⟩, same⟩
  · exact fun h failed => fails h.1 failed
  · exact fun h finished => done h.1 h.2 finished

theorem keeps_exhaust_rewriteStar {row : Buffer} (marks : OnlyMarks [.star, .bar] row)
    (nonempty : row ≠ []) : Keeps flatFault? some row (exhaust rewriteStar shortens_rewriteStar row)
      fun next => OnlyMarks [.bar] next ∧ next ≠ [] := by
  refine keeps_exhaust_of_alike _ (OnlyMarks [.star, .bar]) alike_rewriteStar ?_ ?_ ?_ marks nonempty
  · exact fun marks step => marks.rewriteStar step
  · exact fun marks failed => flatFault?_of_rewriteStar_error marks failed
  · exact fun marks ne done => ⟨marks.rewriteStar_done done, ne⟩

theorem keeps_exhaust_rewriteCat {row : Buffer} (marks : OnlyMarks [.bar] row)
    (nonempty : row ≠ []) : Keeps flatFault? some row (exhaust rewriteCat shortens_rewriteCat row)
      fun next => OnlyMarks [.bar] next ∧ Spaced next ∧ next ≠ [] := by
  refine keeps_exhaust_of_alike _ (OnlyMarks [.bar]) alike_rewriteCat ?_ ?_ ?_ marks nonempty
  · exact fun marks step => marks.rewriteCat step
  · exact fun _ failed => absurd failed rewriteCat_ne_error
  · exact fun marks ne done => ⟨marks, done, ne⟩

theorem keeps_exhaust_rewriteBar {row : Buffer} (marks : OnlyMarks [.bar] row)
    (spaced : Spaced row) (nonempty : row ≠ []) :
    Keeps flatFault? some row (exhaust rewriteBar shortens_rewriteBar row)
      fun next => ∃ t, next = [.tree t] := by
  refine keeps_exhaust_of_alike _ (fun row => OnlyMarks [.bar] row ∧ Spaced row) alike_rewriteBar
    ?_ ?_ ?_ ⟨marks, spaced⟩ nonempty
  · exact fun h step => (rewriteBar_keeps h.1 h.2 step).1
  · exact fun h failed => flatFault?_of_rewriteBar_error h.1 h.2 failed
  · exact fun h ne done => (rewriteBar_done h.1 h.2 done).resolve_left ne

/-- What is done to a row with the fault of another fails like what is done to that one. -/
theorem Keeps.errorOf_bind {row : Buffer} {result : Except ParseError Buffer}
    {kept : Buffer → Prop} (h : Keeps flatFault? some row result kept)
    {rest : Buffer → Except ParseError Regex}
    (next : ∀ next, kept next → errorOf (rest next) = next.flatFault?) :
    errorOf (result >>= rest) = row.flatFault? := by
  match result, h with
  | .ok made, ⟨holds, same⟩ =>
    rw [← same]
    exact next made holds
  | .error e, h =>
    have failed : row.flatFault? = some e := h
    rw [failed]
    rfl

/-- Resolving a row fails with the fault of its symbols. -/
theorem errorOf_resolveFlat {row : Buffer} (marks : OnlyMarks [.star, .bar] row)
    (nonempty : row ≠ []) : errorOf (resolveFlat row) = row.flatFault? := by
  refine (keeps_exhaust_rewriteStar marks nonempty).errorOf_bind fun starred h => ?_
  refine (keeps_exhaust_rewriteCat h.1 h.2).errorOf_bind fun joined h => ?_
  refine (keeps_exhaust_rewriteBar h.1 h.2.1 h.2.2).errorOf_bind fun split one => ?_
  obtain ⟨t, rfl⟩ := one
  rfl

end Buffer

/-! The pass -/

open Buffer

@[simp] theorem scanFault?_opening (row : List Symbol) (outer : List (List Symbol))
    (rest : List Char) : scanFault? row outer ('(' :: rest) = scanFault? [] (row :: outer) rest :=
  rfl

theorem scanFault?_closing (row enclosing : List Symbol) (outer : List (List Symbol))
    (rest : List Char) : scanFault? row (enclosing :: outer) (')' :: rest) =
      if row.isEmpty then some .malformedGroup
      else (rowFault? row).or (scanFault? (enclosing ++ [.operand]) outer rest) :=
  rfl

theorem scanFault?_plain {c : Char} (opening : c ≠ '(') (closing : c ≠ ')') (row : List Symbol)
    (outer : List (List Symbol)) (rest : List Char) :
    scanFault? row outer (c :: rest) = scanFault? (row ++ [.ofChar c]) outer rest := by
  rw [scanFault?.eq_def]
  simp only [opening, closing, if_false]

theorem Symbol.ofChar_eq_operand {c : Char} {t : Regex} (h : Item.ofChar c = .ok (.tree t)) :
    ofChar c = .operand := by
  have star : c ≠ '*' := by
    rintro rfl
    cases h
  have bar : c ≠ '|' := by
    rintro rfl
    cases h
  rw [ofChar, if_neg star, if_neg bar]

/-- A character other than a parenthesis adds its symbol to the row. -/
theorem Item.symbol_of_ofChar {c : Char} {item : Item} (h : Item.ofChar c = .ok item)
    (opening : c ≠ '(') (closing : c ≠ ')') :
    OnlyMarks [.star, .bar] [item] ∧ item.symbol = Symbol.ofChar c := by
  rcases Item.of_ofChar h with ⟨m, rfl, rfl⟩ | ⟨t, -, rfl⟩
  · cases m with
    | opening => exact absurd rfl opening
    | closing => exact absurd rfl closing
    | star | bar => exact ⟨by simp [OnlyMarks], rfl⟩
  · exact ⟨by simp [OnlyMarks], (Symbol.ofChar_eq_operand h).symm⟩

/-- A group that is closed fails with the fault of its row, or else the pass goes on. -/
theorem Scan.errorOf_run_closing {row enclosing rest : Buffer} {outer : List Buffer} {p : List Char}
    (marks : OnlyMarks [.star, .bar] row)
    (next : ∀ t, errorOf (run ⟨enclosing ++ [.tree t], outer⟩ rest) =
      scanFault? (enclosing.symbols ++ [.operand]) (outer.map symbols) p) :
    errorOf (run ⟨row, enclosing :: outer⟩ (.mark .closing :: rest)) =
      scanFault? row.symbols (enclosing.symbols :: outer.map symbols) (')' :: p) := by
  rw [run_closing, scanFault?_closing]
  by_cases empty : row = []
  · subst empty
    rfl
  · have some : row.symbols ≠ [] := mt List.map_eq_nil_iff.1 empty
    have resolved : errorOf (resolveFlat row) = rowFault? row.symbols :=
      errorOf_resolveFlat marks empty
    rw [if_neg (mt List.isEmpty_iff.1 empty), if_neg (mt List.isEmpty_iff.1 some), ← resolved]
    cases resolveFlat row with
    | error e => rfl
    | ok t => exact next t

/-- The pass fails with the fault that is found over its rows of symbols. -/
theorem Scan.errorOf_run {p : List Char} {buffer row : Buffer} {outer : List Buffer}
    (entries : ofPattern p = .ok buffer) (marks : OnlyMarks [.star, .bar] row)
    (around : ∀ enclosing ∈ outer, OnlyMarks [.star, .bar] enclosing)
    (ready : outer = [] → row = [] → p ≠ []) :
    errorOf (run ⟨row, outer⟩ buffer) = scanFault? row.symbols (outer.map symbols) p := by
  -- The outermost row is not empty when the pattern ends, so it has one root if it has no fault.
  induction p generalizing row outer buffer with
  | nil =>
    cases entries
    cases outer with
    | nil => exact errorOf_resolveFlat marks fun none => ready rfl none rfl
    | cons enclosing outer => rfl
  | cons c p ih =>
    obtain ⟨item, rest, entry, restEntries, rfl⟩ := ofPattern_cons entries
    by_cases opening : c = '('
    · subst opening
      cases entry
      rw [run_opening, scanFault?_opening]
      exact ih restEntries (by simp [OnlyMarks]) (List.forall_mem_cons.2 ⟨marks, around⟩) (by simp)
    by_cases closing : c = ')'
    · subst closing
      cases entry
      cases outer with
      | nil => rfl
      | cons enclosing outer =>
        obtain ⟨enclosed, others⟩ := List.forall_mem_cons.1 around
        refine errorOf_run_closing marks fun t => ?_
        rw [ih restEntries (enclosed.append (by simp [OnlyMarks])) others (by simp), symbols_append]
        rfl
    · obtain ⟨plain, same⟩ := Item.symbol_of_ofChar entry opening closing
      have added : run ⟨row, outer⟩ (item :: rest) = run ⟨row ++ [item], outer⟩ rest :=
        run_append_of_onlyMarks ⟨row, outer⟩ plain rest
      rw [added, ih restEntries (marks.append plain) around (by simp), symbols_append,
        scanFault?_plain opening closing, ← same]
      rfl

/-- Only a character outside the alphabet has no entry. -/
theorem Item.errorOf_ofChar (c : Char) : errorOf (Item.ofChar c) =
    if alphabetSize ≤ c.toNat then some (.unsupportedCharacter c) else none := by
  by_cases operator : isOperator c = true
  · simp only [isOperator, isStructural, Bool.or_eq_true, decide_eq_true_eq] at operator
    rcases operator with rfl | ((rfl | rfl) | rfl) | rfl
    all_goals rfl
  · simp only [isOperator, isStructural, Bool.or_eq_true, decide_eq_true_eq, not_or] at operator
    simp only [← byteOf?_eq_none_iff]
    cases value : byteOf? c <;> simp [Item.ofChar, operator, value, errorOf]

theorem Buffer.errorOf_ofPattern (p : List Char) : errorOf (ofPattern p) =
    (p.find? fun c => alphabetSize ≤ c.toNat).map .unsupportedCharacter := by
  induction p with
  | nil => rfl
  | cons c p ih =>
    have first := Item.errorOf_ofChar c
    by_cases outside : alphabetSize ≤ c.toNat
    · rw [if_pos outside] at first
      rw [ofPattern, errorOf_eq_some_iff.1 first, List.find?_cons_of_pos (by simpa using outside)]
      rfl
    · rw [if_neg outside] at first
      obtain ⟨item, entry⟩ := errorOf_eq_none_iff.1 first
      rw [List.find?_cons_of_neg (by simpa using outside), ← ih, ofPattern, entry]
      exact errorOf_map _ _

/-- Reading a pattern fails with the fault of the pattern. -/
theorem errorOf_parse (p : List Char) : errorOf (parse p) = fault? p := by
  by_cases empty : p = []
  · subst empty
    rfl
  have first := Buffer.errorOf_ofPattern p
  rw [fault?, if_neg (mt List.isEmpty_iff.1 empty)]
  cases entries : ofPattern p with
  | error e =>
    rw [entries] at first
    obtain ⟨c, found, rfl⟩ := Option.map_eq_some_iff.1 first.symm
    simp [found, parse, empty, entries, bind, Except.bind, errorOf]
  | ok buffer =>
    rw [entries] at first
    have inside := Option.map_eq_none_iff.1 first.symm
    rw [parse_of_ofPattern empty entries, resolve_eq_scan, inside]
    exact Scan.errorOf_run entries (by simp [OnlyMarks]) (by simp) fun _ _ => empty

theorem rowFault?_ne_multipleRoots (row : List Symbol) :
    rowFault? row ≠ some .multipleRoots := by
  unfold rowFault?
  split_ifs <;> simp

theorem scanFault?_ne_multipleRoots (row : List Symbol) (outer : List (List Symbol))
    (p : List Char) : scanFault? row outer p ≠ some .multipleRoots := by
  induction p generalizing row outer with
  | nil =>
    cases outer with
    | nil => exact rowFault?_ne_multipleRoots row
    | cons => simp [scanFault?]
  | cons c p ih =>
    by_cases opening : c = '('
    · subst opening
      exact ih _ _
    by_cases closing : c = ')'
    · subst closing
      cases outer with
      | nil => simp [scanFault?]
      | cons enclosing outer =>
        rw [scanFault?_closing]
        split
        · simp
        · rw [Ne, Option.or_eq_some_iff, not_or, not_and]
          exact ⟨rowFault?_ne_multipleRoots row, fun _ => ih _ _⟩
    · rw [scanFault?_plain opening closing]
      exact ih _ _

theorem fault?_ne_multipleRoots (p : List Char) : fault? p ≠ some .multipleRoots := by
  unfold fault?
  split
  · simp
  · split
    · simp
    · exact scanFault?_ne_multipleRoots _ _ _

/-- Reading a pattern fails with the first fault of the pass, and gives a tree if there is none. That
more than one root is left never happens. -/
theorem parse_eq_error_iff (p : List Char) :
    (∀ e, parse p = .error e ↔ fault? p = some e) ∧
      ((∃ t, parse p = .ok t) ↔ fault? p = none) ∧ parse p ≠ .error .multipleRoots := by
  rw [← errorOf_parse]
  refine ⟨fun e => errorOf_eq_some_iff.symm, errorOf_eq_none_iff.symm, fun roots => ?_⟩
  refine fault?_ne_multipleRoots p ?_
  rw [← errorOf_parse]
  exact errorOf_eq_some_iff.2 roots

-- The group is checked first, although the star before it has no operand either.
example : fault? ['*', '(', 'a', '|', ')', '|'] = some .missingRightOperand := by decide

end LineGrep.Pattern
