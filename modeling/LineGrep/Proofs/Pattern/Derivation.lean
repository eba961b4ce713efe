import LineGrep.Pattern.Grammar
import LineGrep.Proofs.Pattern.Scan

/-!
The grammar and the pass. A derivation leaves a row that is read with the tree of the derivation.
Conversely, what the pass has taken in is always covered by derivations: each row is spelled by
atoms and operators, and what has been read of a row consists of an alternation with its bar, of a
concatenation and of a repetition. Main statement: a pattern is read with a tree just in case it
derives that tree, and so the tree is unique.
-/

namespace LineGrep.Pattern

open Buffer

def Mark.char : Mark → Char
  | .opening => '('
  | .closing => ')'
  | .star => '*'
  | .bar => '|'

theorem Item.ofChar_eq_tree {c : Char} {b : UInt8} (value : byteOf? c = some b)
    (plain : isOperator c = false) : Item.ofChar c = .ok (.tree (.literal b)) := by
  simp only [isOperator, isStructural, Bool.or_eq_false_iff, decide_eq_false_iff_not] at plain
  simp [Item.ofChar, plain, value]

/-- An entry is that of a mark or the tree of an atom. -/
theorem Item.of_ofChar {c : Char} {item : Item} (h : Item.ofChar c = .ok item) :
    (∃ m, c = m.char ∧ item = .mark m) ∨ ∃ t, Derives .atom [c] t ∧ item = .tree t := by
  unfold Item.ofChar at h
  split at h
  · next same => exact Or.inr ⟨.dot, same ▸ .dot, (Except.ok.inj h).symm⟩
  split at h
  · next same => exact Or.inl ⟨.star, same, (Except.ok.inj h).symm⟩
  split at h
  · next same => exact Or.inl ⟨.bar, same, (Except.ok.inj h).symm⟩
  split at h
  · next same => exact Or.inl ⟨.opening, same, (Except.ok.inj h).symm⟩
  split at h
  · next same => exact Or.inl ⟨.closing, same, (Except.ok.inj h).symm⟩
  split at h
  · next b value =>
    refine Or.inr ⟨.literal b, .literal value ?_, (Except.ok.inj h).symm⟩
    simp_all [isOperator, isStructural]
  · cases h

namespace Buffer

theorem ofPattern_cons {c : Char} {p : List Char} {buffer : Buffer}
    (h : ofPattern (c :: p) = .ok buffer) :
    ∃ item rest, Item.ofChar c = .ok item ∧ ofPattern p = .ok rest ∧ item :: rest = buffer := by
  rw [ofPattern] at h
  split at h
  · cases h
  · next item entry =>
    match entries : ofPattern p, h with
    | .ok rest, h => exact ⟨item, rest, entry, rfl, Except.ok.inj h⟩

theorem ofPattern_append {p q : List Char} {front back : Buffer} (hp : ofPattern p = .ok front)
    (hq : ofPattern q = .ok back) : ofPattern (p ++ q) = .ok (front ++ back) := by
  induction p generalizing front with
  | nil => cases hp; exact hq
  | cons c p ih =>
    obtain ⟨item, rest, entry, entries, rfl⟩ := ofPattern_cons hp
    rw [List.cons_append, ofPattern, entry]
    simp only [ih entries]
    rfl

theorem OnlyMarks.append {allowed : List Mark} {front back : Buffer}
    (hfront : OnlyMarks allowed front) (hback : OnlyMarks allowed back) :
    OnlyMarks allowed (front ++ back) :=
  fun m mem => (List.mem_append.1 mem).elim (hfront m) (hback m)

/-- A pattern adds a row to whatever row the pass has come to. -/
structure Yields (p : List Char) (row : Buffer) : Prop where
  marks : OnlyMarks [.star, .bar] row
  run : ∃ buffer, ofPattern p = .ok buffer ∧ ∀ (s : Scan) rest,
    s.run (buffer ++ rest) = Scan.run ⟨s.row ++ row, s.outer⟩ rest

theorem Yields.append {p q : List Char} {front back : Buffer} (hp : Yields p front)
    (hq : Yields q back) : Yields (p ++ q) (front ++ back) := by
  obtain ⟨buffer, entries, run⟩ := hp.run
  obtain ⟨buffer', entries', run'⟩ := hq.run
  refine ⟨hp.marks.append hq.marks, buffer ++ buffer', ofPattern_append entries entries', ?_⟩
  intro s rest
  rw [List.append_assoc, run, run', List.append_assoc]

theorem yields_singleton {c : Char} {item : Item} (h : Item.ofChar c = .ok item)
    (marks : OnlyMarks [.star, .bar] [item]) : Yields [c] [item] := by
  refine ⟨marks, [item], ?_, fun s rest => s.run_append_of_onlyMarks marks rest⟩
  rw [ofPattern, h]
  rfl

theorem Yields.group {p : List Char} {row : Buffer} {t : Regex} (h : Yields p row)
    (read : row.read = some t) : Yields ('(' :: p ++ [')']) [.tree t] := by
  obtain ⟨buffer, entries, run⟩ := h.run
  refine ⟨by simp [OnlyMarks], .mark .opening :: buffer ++ [.mark .closing], ?_, ?_⟩
  · exact ofPattern_append (p := '(' :: p) (by rw [ofPattern, entries]; rfl) rfl
  · intro s rest
    have nonempty : row.isEmpty = false := by
      cases row with
      | nil => cases read
      | cons => rfl
    rw [List.append_assoc, List.cons_append, Scan.run_opening, run, List.singleton_append,
      List.nil_append, Scan.run_closing, nonempty, (resolveFlat_eq_ok_iff h.marks).2 read]
    rfl

end Buffer

/-- How a row that belongs to a class is read: what counts as one operand is pushed, and what counts
as one branch fills an empty one. -/
def Level.Reads (level : Level) (row : Buffer) (t : Regex) : Prop :=
  match level with
  | .atom | .repetition => ∀ r : Reading, r.run? row = some (r.push t)
  | .concatenation => ∀ r : Reading, r.branch? = none →
      ∃ next, r.run? row = some next ∧ next.branches = r.branches ∧ next.branch? = some t
  | .alternation => row.read = some t

/-- A derivation gives a row that is read with its tree. -/
theorem Derives.exists_yields {level : Level} {p : List Char} {t : Regex}
    (h : Derives level p t) : ∃ row, Yields p row ∧ level.Reads row t := by
  induction h with
  | @literal c b value plain =>
    exact ⟨_, yields_singleton (Item.ofChar_eq_tree value plain) (by simp [OnlyMarks]),
      fun _ => rfl⟩
  | dot => exact ⟨_, yields_singleton rfl (by simp [OnlyMarks]), fun _ => rfl⟩
  | @group p t _ ih =>
    -- The row of the content is gone once the group is closed; its tree is one operand.
    obtain ⟨row, yields, reads⟩ := ih
    exact ⟨_, yields.group reads, fun _ => rfl⟩
  | ofAtom _ ih => exact ih
  | @star p t _ ih =>
    obtain ⟨row, yields, reads⟩ := ih
    have star : Yields ['*'] [.mark .star] := yields_singleton rfl (by simp [OnlyMarks])
    refine ⟨row ++ [.mark .star], yields.append star, fun r => ?_⟩
    rw [Reading.run?_append, reads r]
    rfl
  | @ofRepetition p t _ ih =>
    obtain ⟨row, yields, reads⟩ := ih
    refine ⟨row, yields, fun r empty => ⟨r.push t, reads r, rfl, ?_⟩⟩
    rw [Reading.branch?_push, empty]
    rfl
  | @cat p q left right _ _ ihLeft ihRight =>
    obtain ⟨front, yieldsFront, readsFront⟩ := ihLeft
    obtain ⟨back, yieldsBack, readsBack⟩ := ihRight
    refine ⟨front ++ back, yieldsFront.append yieldsBack, fun r empty => ?_⟩
    obtain ⟨next, run, branches, branch⟩ := readsFront r empty
    refine ⟨next.push right, ?_, branches, ?_⟩
    · rw [Reading.run?_append, run]
      exact readsBack next
    · rw [Reading.branch?_push, branch]
      rfl
  | @ofConcatenation p t _ ih =>
    obtain ⟨row, yields, reads⟩ := ih
    obtain ⟨next, run, branches, branch⟩ := reads .start rfl
    refine ⟨row, yields, ?_⟩
    rw [Level.Reads, Buffer.read, Reading.readOn, run, Option.bind_some, Reading.tree?, branch,
      branches]
    rfl
  | @alt p q left right _ _ ihLeft ihRight =>
    obtain ⟨front, yieldsFront, readsFront⟩ := ihLeft
    obtain ⟨back, yieldsBack, readsBack⟩ := ihRight
    obtain ⟨before, runFront, tree⟩ := Option.bind_eq_some_iff.1 readsFront
    obtain ⟨next, runBack, branches, branch⟩ := readsBack ⟨some left, none, none⟩ rfl
    have bar : Yields ['|'] [.mark .bar] := yields_singleton rfl (by simp [OnlyMarks])
    refine ⟨front ++ Item.mark .bar :: back, yieldsFront.append (bar.append yieldsBack), ?_⟩
    have run : Reading.start.run? (front ++ Item.mark .bar :: back) = some next := by
      rw [Reading.run?_append, runFront, Option.bind_some, Reading.run?, Reading.step?, tree]
      exact runBack
    rw [Level.Reads, Buffer.read, Reading.readOn, run, Option.bind_some, Reading.tree?, branch,
      branches]
    rfl

/-- The texts that what has been read of a row stands for: that of the branches ends in their bar,
that of the neighbours is empty if there are none, and an operand is a repetition. -/
structure Reading.Covers (r : Reading) (front middle last : List Char) : Prop where
  branches : match r.branches with
    | none => front = []
    | some t => ∃ p, front = p ++ ['|'] ∧ Derives .alternation p t
  neighbours : match r.neighbours with
    | none => middle = []
    | some t => Derives .concatenation middle t
  operand : match r.operand with
    | none => middle ++ last = []
    | some t => Derives .repetition last t

namespace Reading.Covers

variable {r : Reading} {front middle last : List Char} {t : Regex}

theorem branch (h : r.Covers front middle last) :
    match r.branch? with
    | none => middle ++ last = []
    | some t => Derives .concatenation (middle ++ last) t := by
  obtain ⟨branches, neighbours, operand⟩ := r
  cases operand with
  | none => exact h.operand
  | some t =>
    cases neighbours with
    | none =>
      have nothing : middle = [] := h.neighbours
      rw [nothing]
      exact .ofRepetition h.operand
    | some left => exact .cat h.neighbours h.operand

theorem tree (h : r.Covers front middle last) (made : r.tree? = some t) :
    Derives .alternation (front ++ (middle ++ last)) t := by
  obtain ⟨right, branchEq, rfl⟩ := Option.map_eq_some_iff.1 made
  have derived := h.branch
  rw [branchEq] at derived
  obtain ⟨branches, neighbours, operand⟩ := r
  cases branches with
  | none =>
    have nothing : front = [] := h.branches
    rw [nothing]
    exact .ofConcatenation derived
  | some left =>
    obtain ⟨p, rfl, alternation⟩ := h.branches
    rw [List.append_assoc]
    exact .alt alternation derived

theorem push (h : r.Covers front middle last) {q : List Char} (atom : Derives .atom q t) :
    (r.push t).Covers front (middle ++ last) q :=
  ⟨h.branches, h.branch, .ofAtom atom⟩

theorem star (h : r.Covers front middle last) {next : Reading}
    (step : r.step? (.mark .star) = some next) : next.Covers front middle (last ++ ['*']) := by
  obtain ⟨operand, operandEq, rfl⟩ := Option.map_eq_some_iff.1 step
  have repetition := h.operand
  rw [operandEq] at repetition
  exact ⟨h.branches, h.neighbours, .star repetition⟩

theorem bar (h : r.Covers front middle last) {next : Reading}
    (step : r.step? (.mark .bar) = some next) :
    next.Covers (front ++ (middle ++ last) ++ ['|']) [] [] := by
  obtain ⟨t, made, rfl⟩ := Option.map_eq_some_iff.1 step
  exact ⟨⟨_, rfl, h.tree made⟩, rfl, rfl⟩

end Reading.Covers

/-- A row is spelled by a pattern: each tree by an atom, each mark by its character. -/
inductive Spells : List Char → Buffer → Prop where
  | nil : Spells [] []
  | tree {p q row t} : Spells p row → Derives .atom q t → Spells (p ++ q) (row ++ [.tree t])
  | mark {p row m} : Spells p row → m ∈ [Mark.star, .bar] →
      Spells (p ++ [m.char]) (row ++ [.mark m])

theorem Spells.onlyMarks {p : List Char} {row : Buffer} (h : Spells p row) :
    OnlyMarks [.star, .bar] row := by
  induction h with
  | nil => simp [OnlyMarks]
  | tree _ _ ih => exact ih.append (by simp [OnlyMarks])
  | mark _ allowed ih => exact ih.append (by simpa [OnlyMarks] using allowed)

theorem Spells.exists_covers {p : List Char} {row : Buffer} (h : Spells p row) {r : Reading}
    (read : Reading.start.run? row = some r) :
    ∃ front middle last, front ++ (middle ++ last) = p ∧ r.Covers front middle last := by
  induction h generalizing r with
  | nil =>
    cases read
    exact ⟨[], [], [], rfl, rfl, rfl, rfl⟩
  | @tree p q row t _ atom ih =>
    rw [Reading.run?_append] at read
    obtain ⟨before, readBefore, last⟩ := Option.bind_eq_some_iff.1 read
    cases last
    obtain ⟨front, middle, last, rfl, covers⟩ := ih readBefore
    exact ⟨front, middle ++ last, q, by simp, covers.push atom⟩
  | @mark p row m _ allowed ih =>
    rw [Reading.run?_append] at read
    obtain ⟨before, readBefore, stepped⟩ := Option.bind_eq_some_iff.1 read
    obtain ⟨next, step, ended⟩ := Option.bind_eq_some_iff.1 stepped
    cases ended
    obtain ⟨front, middle, last, rfl, covers⟩ := ih readBefore
    have either : m = .star ∨ m = .bar := by simpa using allowed
    rcases either with rfl | rfl
    · exact ⟨front, middle, last ++ ['*'], by simp [Mark.char], covers.star step⟩
    · exact ⟨_, [], [], by simp [Mark.char], covers.bar step⟩

/-- The tree that is read of a row is derived by what spells the row. -/
theorem Spells.derives {p : List Char} {row : Buffer} {t : Regex} (h : Spells p row)
    (read : row.read = some t) : Derives .alternation p t := by
  obtain ⟨r, run, tree⟩ := Option.bind_eq_some_iff.1 read
  obtain ⟨front, middle, last, rfl, covers⟩ := h.exists_covers run
  exact covers.tree tree

/-- What the pass has taken in spells its rows, with an opening parenthesis between them. -/
inductive Scan.Spells : List Char → Scan → Prop where
  | outermost {p row} : Pattern.Spells p row → Scan.Spells p ⟨row, []⟩
  | inside {p q row enclosing outer} : Scan.Spells p ⟨enclosing, outer⟩ → Pattern.Spells q row →
      Scan.Spells (p ++ '(' :: q) ⟨row, enclosing :: outer⟩

namespace Scan.Spells

theorem tree {p q : List Char} {row : Buffer} {outer : List Buffer} {t : Regex}
    (h : Scan.Spells p ⟨row, outer⟩) (atom : Derives .atom q t) :
    Scan.Spells (p ++ q) ⟨row ++ [.tree t], outer⟩ := by
  cases h with
  | outermost spells => exact .outermost (spells.tree atom)
  | inside around spells =>
    rw [List.append_assoc, List.cons_append]
    exact .inside around (spells.tree atom)

theorem mark {p : List Char} {row : Buffer} {outer : List Buffer} {m : Mark}
    (h : Scan.Spells p ⟨row, outer⟩) (allowed : m ∈ [Mark.star, .bar]) :
    Scan.Spells (p ++ [m.char]) ⟨row ++ [.mark m], outer⟩ := by
  cases h with
  | outermost spells => exact .outermost (spells.mark allowed)
  | inside around spells =>
    rw [List.append_assoc, List.cons_append]
    exact .inside around (spells.mark allowed)

theorem closing {p : List Char} {s next : Scan} (h : Scan.Spells p s)
    (step : s.step (.mark .closing) = .ok next) : Scan.Spells (p ++ [')']) next := by
  cases h with
  | outermost => cases step
  | @inside p q row enclosing outer around spells =>
    simp only [Scan.step] at step
    split at step
    · cases step
    · cases resolved : resolveFlat row with
      | error e =>
        rw [resolved] at step
        cases step
      | ok t =>
        rw [resolved] at step
        cases step
        have read := (resolveFlat_eq_ok_iff spells.onlyMarks).1 resolved
        rw [List.append_assoc]
        exact around.tree (.group (spells.derives read))

theorem step {p : List Char} {s next : Scan} (h : Scan.Spells p s) {c : Char} {item : Item}
    (entry : Item.ofChar c = .ok item) (step : s.step item = .ok next) :
    Scan.Spells (p ++ [c]) next := by
  rcases Item.of_ofChar entry with ⟨m, rfl, rfl⟩ | ⟨t, atom, rfl⟩
  · cases m with
    | opening => cases step; exact .inside h .nil
    | closing => exact h.closing step
    | star => cases step; exact h.mark (by decide)
    | bar => cases step; exact h.mark (by decide)
  · cases step
    exact h.tree atom

/-- If the pass comes to a tree, the whole pattern derives it. -/
theorem run {p q : List Char} {s : Scan} (h : Scan.Spells p s) {buffer : Buffer} {t : Regex}
    (entries : ofPattern q = .ok buffer) (run : s.run buffer = .ok t) :
    Derives .alternation (p ++ q) t := by
  -- The invariant is that what has been taken in spells the rows.
  induction q generalizing p s buffer with
  | nil =>
    cases entries
    rw [List.append_nil]
    cases h with
    | outermost spells => exact spells.derives ((resolveFlat_eq_ok_iff spells.onlyMarks).1 run)
    | inside => cases run
  | cons c q ih =>
    obtain ⟨item, rest, entry, restEntries, rfl⟩ := ofPattern_cons entries
    match stepped : s.step item with
    | .error e =>
      rw [Scan.run, stepped] at run
      cases run
    | .ok next =>
      rw [Scan.run, stepped] at run
      rw [List.append_cons]
      exact ih (h.step entry stepped) restEntries run

end Scan.Spells

theorem Derives.parse_eq {p : List Char} {t : Regex} (h : Derives .alternation p t) :
    parse p = .ok t := by
  obtain ⟨row, yields, read⟩ := h.exists_yields
  obtain ⟨buffer, entries, run⟩ := yields.run
  have scanned := run ⟨[], []⟩ []
  rw [List.append_nil] at scanned
  rw [parse_of_ofPattern h.ne_nil entries, resolve_eq_scan, scan, scanned]
  exact (resolveFlat_eq_ok_iff yields.marks).2 read

theorem derives_of_parse_eq {p : List Char} {t : Regex} (h : parse p = .ok t) :
    Derives .alternation p t := by
  have nonempty : p ≠ [] := by
    rintro rfl
    cases h
  match entries : ofPattern p with
  | .error e =>
    simp [parse, nonempty, entries, bind, Except.bind] at h
  | .ok buffer =>
    rw [parse_of_ofPattern nonempty entries, resolve_eq_scan] at h
    exact (Scan.Spells.outermost .nil).run entries h

/-- Reading a pattern gives a tree just in case the pattern derives it, so no pattern derives two. A
star takes the repetition before it only, and neighbours and bars take all that stands on their left
as one operand. -/
theorem parse_eq_ok_iff_derives (p : List Char) (t : Regex) :
    (parse p = .ok t ↔ Derives .alternation p t) ∧
      (∀ t', Derives .alternation p t → Derives .alternation p t' → t = t') ∧
      (Derives .concatenation p t → ∀ q r, Derives .repetition q r →
        parse (p ++ q) = .ok (.cat t r) ∧ parse (p ++ q ++ ['*']) = .ok (.cat t (.star r))) ∧
      (Derives .alternation p t → ∀ q r, Derives .concatenation q r →
        parse (p ++ '|' :: q) = .ok (.alt t r) ∧ ∀ q' r', Derives .repetition q' r' →
          parse (p ++ '|' :: q ++ q') = .ok (.alt t (.cat r r'))) := by
  refine ⟨⟨derives_of_parse_eq, Derives.parse_eq⟩, ?_, ?_, ?_⟩
  · intro t' h h'
    exact Except.ok.inj (h.parse_eq.symm.trans h'.parse_eq)
  · intro left q r right
    refine ⟨(Derives.ofConcatenation (.cat left right)).parse_eq, ?_⟩
    rw [List.append_assoc]
    exact (Derives.ofConcatenation (.cat left (.star right))).parse_eq
  · intro left q r right
    refine ⟨(Derives.alt left right).parse_eq, fun q' r' last => ?_⟩
    rw [List.append_assoc]
    exact (Derives.alt left (.cat right last)).parse_eq

theorem parse_precedence : parse ['a', '|', 'b', 'c', '*'] =
    .ok (.alt (.literal 97) (.cat (.literal 98) (.star (.literal 99)))) := by
  have a : Derives .atom ['a'] (.literal 97) := .literal rfl rfl
  have b : Derives .atom ['b'] (.literal 98) := .literal rfl rfl
  have c : Derives .atom ['c'] (.literal 99) := .literal rfl rfl
  have left : Derives .alternation ['a'] (.literal 97) :=
    .ofConcatenation (.ofRepetition (.ofAtom a))
  exact ((parse_eq_ok_iff_derives _ _).2.2.2 left _ _ (.ofRepetition (.ofAtom b))).2 _ _
    (.star (.ofAtom c))

end LineGrep.Pattern
