import LineGrep.Pattern.Group

/-!
Rows without groups, read from left to right in one pass. What has been read is kept as the branches
before the last bar, the neighbours of the open branch, and the last operand, to which a star may
still apply. Each rewriting of stars, neighbours and bars keeps the tree that is read. Main
statement: resolving a row without groups gives the tree that is read in one pass.
-/

namespace LineGrep.Pattern

structure Reading where
  branches : Option Regex
  neighbours : Option Regex
  operand : Option Regex

namespace Reading

def start : Reading :=
  ⟨none, none, none⟩

/-- A tree joined to the one on its left, if there is one. -/
def joined (join : Regex → Regex → Regex) (left : Option Regex) (right : Regex) : Regex :=
  match left with
  | none => right
  | some left => join left right

/-- The open branch. -/
def branch? (r : Reading) : Option Regex :=
  r.operand.map (joined .cat r.neighbours)

def tree? (r : Reading) : Option Regex :=
  r.branch?.map (joined .alt r.branches)

def push (r : Reading) (t : Regex) : Reading :=
  ⟨r.branches, r.branch?, some t⟩

def step? (r : Reading) : Item → Option Reading
  | .tree t => some (r.push t)
  | .mark .star => r.operand.map fun t => { r with operand := some (.star t) }
  | .mark .bar => r.tree?.map fun t => ⟨some t, none, none⟩
  | .mark .opening | .mark .closing => none

def run? (r : Reading) : Buffer → Option Reading
  | [] => some r
  | item :: rest => (r.step? item).bind (run? · rest)

/-- The tree of what has been read and a row to be read on. -/
def readOn (r : Reading) (row : Buffer) : Option Regex :=
  (r.run? row).bind tree?

@[simp] theorem branch?_push (r : Reading) (t : Regex) :
    (r.push t).branch? = some (joined .cat r.branch? t) := rfl

theorem readOn_nil (r : Reading) : r.readOn [] = r.tree? := rfl

theorem readOn_cons (r : Reading) (item : Item) (rest : Buffer) :
    r.readOn (item :: rest) = (r.step? item).bind (readOn · rest) := by
  rw [readOn, run?, Option.bind_assoc]
  rfl

@[simp] theorem readOn_tree (r : Reading) (t : Regex) (rest : Buffer) :
    r.readOn (.tree t :: rest) = (r.push t).readOn rest :=
  readOn_cons r (.tree t) rest

@[simp] theorem readOn_star (r : Reading) (rest : Buffer) : r.readOn (.mark .star :: rest) =
    r.operand.bind fun t => { r with operand := some (.star t) }.readOn rest := by
  rw [readOn_cons, step?, Option.bind_map]
  rfl

@[simp] theorem readOn_bar (r : Reading) (rest : Buffer) : r.readOn (.mark .bar :: rest) =
    r.tree?.bind fun t => (Reading.mk (some t) none none).readOn rest := by
  rw [readOn_cons, step?, Option.bind_map]
  rfl

@[simp] theorem readOn_opening (r : Reading) (rest : Buffer) :
    r.readOn (.mark .opening :: rest) = none :=
  readOn_cons r (.mark .opening) rest

@[simp] theorem readOn_closing (r : Reading) (rest : Buffer) :
    r.readOn (.mark .closing :: rest) = none :=
  readOn_cons r (.mark .closing) rest

theorem run?_append (r : Reading) (front back : Buffer) :
    r.run? (front ++ back) = (r.run? front).bind (run? · back) := by
  induction front generalizing r with
  | nil => rfl
  | cons item front ih => simp [run?, ih, Option.bind_assoc]

end Reading

namespace Buffer

open Reading

/-- The tree that is read in one pass. -/
def read (row : Buffer) : Option Regex :=
  start.readOn row

/-- No other marks than the given ones stand in a row. -/
def OnlyMarks (allowed : List Mark) (row : Buffer) : Prop :=
  ∀ m, .mark m ∈ row → m ∈ allowed

/-- No two trees stand side by side. -/
def Spaced (row : Buffer) : Prop :=
  rewriteCat row = .ok none

theorem OnlyMarks.tail {allowed : List Mark} {item : Item} {row : Buffer}
    (h : OnlyMarks allowed (item :: row)) : OnlyMarks allowed row :=
  fun m mem => h m (List.mem_cons_of_mem _ mem)

theorem OnlyMarks.head {allowed : List Mark} {m : Mark} {row : Buffer}
    (h : OnlyMarks allowed (.mark m :: row)) : m ∈ allowed :=
  h m List.mem_cons_self

theorem OnlyMarks.eq_bar {m : Mark} {row : Buffer} (h : OnlyMarks [.bar] (.mark m :: row)) :
    m = .bar :=
  List.mem_singleton.1 h.head

theorem onlyMarks_cons_iff {allowed : List Mark} {item : Item} {row : Buffer} :
    OnlyMarks allowed (item :: row) ↔
      (∀ m, item = .mark m → m ∈ allowed) ∧ OnlyMarks allowed row := by
  simp only [OnlyMarks, List.mem_cons, or_imp, forall_and, eq_comm]

theorem map_cons_error {item : Item} {r : Rewriting} {e : ParseError}
    (h : r.map (Option.map (item :: ·)) = .error e) : r = .error e := by
  match r, h with
  | .error _, h => exact congrArg Except.error (Except.error.inj h)

theorem map_cons_none {item : Item} {r : Rewriting}
    (h : r.map (Option.map (item :: ·)) = .ok none) : r = .ok none := by
  match r, h with
  | .ok none, _ => rfl

/-! Stars -/

theorem OnlyMarks.rewriteStar {allowed : List Mark} {before after : Buffer}
    (marks : OnlyMarks allowed before) (h : before.rewriteStar = .ok (some after)) :
    OnlyMarks allowed after := by
  fun_induction Buffer.rewriteStar before generalizing after with
  | case1 | case2 => simp at h
  | case3 => cases h; exact onlyMarks_cons_iff.2 ⟨by simp, marks.tail.tail⟩
  | case4 item rest _ _ ih =>
    obtain ⟨tail, ht, rfl⟩ := map_cons_eq h
    exact onlyMarks_cons_iff.2 ⟨(onlyMarks_cons_iff.1 marks).1, ih marks.tail ht⟩

theorem readOn_rewriteStar {before after : Buffer} (h : rewriteStar before = .ok (some after))
    (r : Reading) : r.readOn after = r.readOn before := by
  fun_induction rewriteStar before generalizing after r with
  | case1 | case2 => simp at h
  | case3 => cases h; simp [push]
  | case4 item rest _ _ ih =>
    obtain ⟨tail, ht, rfl⟩ := map_cons_eq h
    simp only [readOn_cons, ih ht]

/-- A star that stops the rewriting has no operand when it is read. -/
theorem readOn_of_rewriteStar_error {row : Buffer} {e : ParseError} (h : rewriteStar row = .error e)
    {r : Reading} (ready : r.operand = none ∨ ∀ rest, row ≠ .mark .star :: rest) :
    r.readOn row = none := by
  fun_induction rewriteStar row generalizing r with
  | case1 => simp at h
  | case2 rest => simp [ready.resolve_right fun other => other rest rfl]
  | case3 => simp at h
  | case4 item rest notStar notStarred ih =>
    have failed := map_cons_error h
    cases item with
    | tree t =>
      rw [readOn_tree]
      exact ih failed (Or.inr fun rest' same => notStarred t rest' rfl same)
    | mark m =>
      cases m with
      | star => exact (notStar rfl).elim
      | bar =>
        rw [readOn_bar, Option.bind_eq_none_iff]
        exact fun t _ => ih failed (Or.inl rfl)
      | opening => exact readOn_opening r rest
      | closing => exact readOn_closing r rest

theorem star_not_mem_of_rewriteStar {row : Buffer} (h : rewriteStar row = .ok none) :
    .mark .star ∉ row := by
  fun_induction rewriteStar row with
  | case1 => simp
  | case2 | case3 => simp at h
  | case4 item rest notStar _ ih =>
    rw [List.mem_cons, not_or]
    exact ⟨fun same => notStar same.symm, ih (map_cons_none h)⟩

theorem OnlyMarks.rewriteStar_done {row : Buffer} (marks : OnlyMarks [.star, .bar] row)
    (h : row.rewriteStar = .ok none) : OnlyMarks [.bar] row := by
  intro m mem
  have star : m ≠ .star := by
    rintro rfl
    exact star_not_mem_of_rewriteStar h mem
  simpa [star] using marks m mem

/-! Neighbours -/

theorem OnlyMarks.rewriteCat {allowed : List Mark} {before after : Buffer}
    (marks : OnlyMarks allowed before) (h : before.rewriteCat = .ok (some after)) :
    OnlyMarks allowed after := by
  fun_induction Buffer.rewriteCat before generalizing after with
  | case1 => simp at h
  | case2 => cases h; exact onlyMarks_cons_iff.2 ⟨by simp, marks.tail.tail⟩
  | case3 item rest _ ih =>
    obtain ⟨tail, ht, rfl⟩ := map_cons_eq h
    exact onlyMarks_cons_iff.2 ⟨(onlyMarks_cons_iff.1 marks).1, ih marks.tail ht⟩

theorem rewriteCat_ne_error {row : Buffer} {e : ParseError} : rewriteCat row ≠ .error e := by
  intro h
  fun_induction rewriteCat row with
  | case1 | case2 => simp at h
  | case3 item rest _ ih => exact ih (map_cons_error h)

/-- Where no star is left, only the open branch as a whole matters. -/
theorem readOn_congr {row : Buffer} (marks : OnlyMarks [.bar] row) {r r' : Reading}
    (branches : r.branches = r'.branches) (branch : r.branch? = r'.branch?) :
    r.readOn row = r'.readOn row := by
  have tree : r.tree? = r'.tree? := by rw [tree?, tree?, branches, branch]
  match row with
  | [] => exact tree
  | .tree t :: rest => rw [readOn_tree, readOn_tree, push, push, branches, branch]
  | .mark m :: rest =>
    obtain rfl := marks.eq_bar
    rw [readOn_bar, readOn_bar, tree]

-- The first two neighbours are joined first in a reading only if no branch is open before them.
theorem readOn_rewriteCat {before after : Buffer} (h : rewriteCat before = .ok (some after))
    (marks : OnlyMarks [.bar] before) {r : Reading}
    (ready : r.branch? = none ∨ ∀ t rest, before ≠ .tree t :: rest) :
    r.readOn after = r.readOn before := by
  fun_induction rewriteCat before generalizing after r with
  | case1 => simp at h
  | case2 left right rest =>
    cases h
    have open' : r.branch? = none := ready.resolve_right fun other => other left _ rfl
    rw [readOn_tree, readOn_tree, readOn_tree]
    refine readOn_congr marks.tail.tail rfl ?_
    simp [joined, open']
  | case3 item rest apart ih =>
    obtain ⟨tail, ht, rfl⟩ := map_cons_eq h
    cases item with
    | tree t =>
      rw [readOn_tree, readOn_tree]
      exact ih ht marks.tail (Or.inr fun t' rest' same => apart t t' rest' rfl same)
    | mark m =>
      obtain rfl := marks.eq_bar
      rw [readOn_bar, readOn_bar]
      congr 1
      funext t
      exact ih ht marks.tail (Or.inl rfl)

theorem spaced_tree_iff {t : Regex} {rest : Buffer} :
    Spaced (.tree t :: rest) ↔ Spaced rest ∧ ∀ t' rest', rest ≠ .tree t' :: rest' := by
  match rest with
  | [] => simp [Spaced, rewriteCat, Except.map]
  | .tree t' :: rest => simp [Spaced, rewriteCat]
  | .mark m :: rest =>
    simp only [Spaced, rewriteCat]
    constructor
    · exact fun h => ⟨map_cons_none h, by simp⟩
    · intro h
      rw [h.1]
      rfl

theorem Spaced.tail {item : Item} {rest : Buffer} (h : Spaced (item :: rest)) : Spaced rest := by
  match item with
  | .tree t => exact (spaced_tree_iff.1 h).1
  | .mark m => exact map_cons_none h

/-! Bars -/

theorem readOn_congr_tree {row : Buffer} (marks : OnlyMarks [.bar] row)
    (apart : ∀ t rest, row ≠ .tree t :: rest) {r r' : Reading} (same : r.tree? = r'.tree?) :
    r.readOn row = r'.readOn row := by
  match row with
  | [] => exact same
  | .tree t :: rest => exact absurd rfl (apart t rest)
  | .mark m :: rest =>
    obtain rfl := marks.eq_bar
    rw [readOn_bar, readOn_bar, same]

/-- What a row of bars and of trees that stand apart begins with. -/
theorem begins_of_spaced {row : Buffer} (marks : OnlyMarks [.bar] row) (spaced : Spaced row) :
    row = [] ∨ (∃ t, row = [.tree t]) ∨ (∃ rest, row = .mark .bar :: rest) ∨
      ∃ t rest, row = .tree t :: .mark .bar :: rest := by
  match row with
  | [] => exact Or.inl rfl
  | [.tree t] => exact Or.inr (Or.inl ⟨t, rfl⟩)
  | .tree t :: .tree t' :: rest => exact absurd rfl ((spaced_tree_iff.1 spaced).2 t' rest)
  | .tree t :: .mark m :: rest =>
    obtain rfl := marks.tail.eq_bar
    exact Or.inr (Or.inr (Or.inr ⟨t, rest, rfl⟩))
  | .mark m :: rest =>
    obtain rfl := marks.eq_bar
    exact Or.inr (Or.inr (Or.inl ⟨rest, rfl⟩))

theorem rewriteBar_keeps {before after : Buffer} (marks : OnlyMarks [.bar] before)
    (spaced : Spaced before) (h : rewriteBar before = .ok (some after)) :
    (OnlyMarks [.bar] after ∧ Spaced after) ∧ after.read = before.read := by
  rcases begins_of_spaced marks spaced with rfl | ⟨t, rfl⟩ | ⟨rest, rfl⟩ | ⟨left, rest, rfl⟩
  · simp [rewriteBar] at h
  · simp [rewriteBar, Except.map] at h
  · simp [rewriteBar] at h
  · match rest with
    | [] => simp [rewriteBar] at h
    | .mark m :: rest => simp [rewriteBar] at h
    | .tree right :: rest =>
      obtain rfl : .tree (.alt left right) :: rest = after := by simpa [rewriteBar] using h
      have apart := spaced_tree_iff.1 spaced.tail.tail
      refine ⟨⟨?_, spaced_tree_iff.2 apart⟩, ?_⟩
      · exact onlyMarks_cons_iff.2 ⟨by simp, marks.tail.tail.tail⟩
      · rw [read, read, readOn_tree, readOn_tree, readOn_bar]
        exact readOn_congr_tree marks.tail.tail.tail apart.2 rfl

theorem read_of_rewriteBar_error {row : Buffer} (marks : OnlyMarks [.bar] row)
    (spaced : Spaced row) {e : ParseError} (h : rewriteBar row = .error e) : row.read = none := by
  rcases begins_of_spaced marks spaced with rfl | ⟨t, rfl⟩ | ⟨rest, rfl⟩ | ⟨left, rest, rfl⟩
  · simp [rewriteBar] at h
  · simp [rewriteBar, Except.map] at h
  · rw [read, readOn_bar]
    rfl
  · rw [read, readOn_tree, readOn_bar]
    match rest with
    | [] => rfl
    | .tree right :: rest => simp [rewriteBar] at h
    | .mark m :: rest =>
      obtain rfl := marks.tail.tail.eq_bar
      rw [Option.bind_eq_none_iff]
      intro t _
      rw [readOn_bar]
      rfl

theorem rewriteBar_done {row : Buffer} (marks : OnlyMarks [.bar] row) (spaced : Spaced row)
    (h : rewriteBar row = .ok none) : row = [] ∨ ∃ t, row = [.tree t] := by
  rcases begins_of_spaced marks spaced with rfl | one | ⟨rest, rfl⟩ | ⟨left, rest, rfl⟩
  · exact Or.inl rfl
  · exact Or.inr one
  · simp [rewriteBar] at h
  · match rest with
    | [] => simp [rewriteBar] at h
    | .tree right :: rest => simp [rewriteBar] at h
    | .mark m :: rest => simp [rewriteBar] at h

/-! Rows as a whole -/

/-- What is made of a row has a property and looks like the row, or the row looks like the failure.
-/
def Keeps {β : Type} (look : Buffer → β) (failure : ParseError → β) (row : Buffer)
    (result : Except ParseError Buffer) (kept : Buffer → Prop) : Prop :=
  match result with
  | .ok next => kept next ∧ look next = look row
  | .error e => look row = failure e

/-- What each rewriting keeps is kept when the rewriting is exhausted. -/
theorem keeps_exhaust {β : Type} {rewrite : Buffer → Rewriting} (shortens : Shortens rewrite)
    (look : Buffer → β) (failure : ParseError → β) (inv : Buffer → Prop) {kept : Buffer → Prop}
    (keeps : ∀ {before after}, inv before → rewrite before = .ok (some after) →
      inv after ∧ look after = look before)
    (fails : ∀ {row e}, inv row → rewrite row = .error e → look row = failure e)
    (done : ∀ {row}, inv row → rewrite row = .ok none → kept row) {row : Buffer} (h : inv row) :
    Keeps look failure row (exhaust rewrite shortens row) kept := by
  fun_induction exhaust rewrite shortens row with
  | case1 row e failed => exact fails h failed
  | case2 row finished => exact ⟨done h finished, rfl⟩
  | case3 row next step ih =>
    obtain ⟨kept', same⟩ := keeps h step
    have rest := ih kept'
    simp only [Keeps, same] at rest ⊢
    exact rest

/-- What is made of a row has a property and is read like the row, or the row cannot be read. -/
def ReadsAs (row : Buffer) (result : Except ParseError Buffer) (kept : Buffer → Prop) : Prop :=
  match result with
  | .ok next => kept next ∧ next.read = row.read
  | .error _ => row.read = none

theorem readsAs_rewriteStar {row : Buffer} (marks : OnlyMarks [.star, .bar] row) :
    ReadsAs row (exhaust rewriteStar shortens_rewriteStar row) (OnlyMarks [.bar]) := by
  refine keeps_exhaust _ read (fun _ => none) (OnlyMarks [.star, .bar]) ?_ ?_ ?_ marks
  · exact fun marks h => ⟨marks.rewriteStar h, readOn_rewriteStar h _⟩
  · exact fun _ h => readOn_of_rewriteStar_error h (Or.inl rfl)
  · exact fun marks h => marks.rewriteStar_done h

theorem readsAs_rewriteCat {row : Buffer} (marks : OnlyMarks [.bar] row) :
    ReadsAs row (exhaust rewriteCat shortens_rewriteCat row)
      fun next => OnlyMarks [.bar] next ∧ Spaced next := by
  refine keeps_exhaust _ read (fun _ => none) (OnlyMarks [.bar]) ?_ ?_ ?_ marks
  · exact fun marks h => ⟨marks.rewriteCat h, readOn_rewriteCat h marks (Or.inl rfl)⟩
  · exact fun _ h => absurd h rewriteCat_ne_error
  · exact fun marks h => ⟨marks, h⟩

theorem readsAs_rewriteBar {row : Buffer} (marks : OnlyMarks [.bar] row) (spaced : Spaced row) :
    ReadsAs row (exhaust rewriteBar shortens_rewriteBar row)
      fun next => next = [] ∨ ∃ t, next = [.tree t] := by
  refine keeps_exhaust _ read (fun _ => none) (fun row => OnlyMarks [.bar] row ∧ Spaced row)
    ?_ ?_ ?_ ⟨marks, spaced⟩
  · exact fun h step => rewriteBar_keeps h.1 h.2 step
  · exact fun h failed => read_of_rewriteBar_error h.1 h.2 failed
  · exact fun h done => rewriteBar_done h.1 h.2 done

/-- What is done to a row that reads like another is as good as done to that one. -/
theorem ReadsAs.bind_eq_ok_iff {row : Buffer} {result : Except ParseError Buffer}
    {kept : Buffer → Prop} (h : ReadsAs row result kept) {rest : Buffer → Except ParseError Regex}
    {t : Regex} (next : ∀ next, kept next → (rest next = .ok t ↔ next.read = some t)) :
    result >>= rest = .ok t ↔ row.read = some t := by
  match result, h with
  | .ok made, ⟨holds, same⟩ =>
    rw [← same]
    exact next made holds
  | .error e, h =>
    have none : row.read = none := h
    simp [none, bind, Except.bind]

/-- Resolving a row without groups gives the tree that is read in one pass. -/
theorem resolveFlat_eq_ok_iff {row : Buffer} (marks : OnlyMarks [.star, .bar] row) {t : Regex} :
    resolveFlat row = .ok t ↔ row.read = some t := by
  refine (readsAs_rewriteStar marks).bind_eq_ok_iff fun starred marks => ?_
  refine (readsAs_rewriteCat marks).bind_eq_ok_iff fun joined ⟨marks, spaced⟩ => ?_
  refine (readsAs_rewriteBar marks spaced).bind_eq_ok_iff fun split one => ?_
  rcases one with rfl | ⟨t', rfl⟩
  · simp [root, read, start, readOn_nil, tree?, branch?]
  · simp [root, read, start, readOn_nil, tree?, branch?, push, Reading.joined]

end Buffer

end LineGrep.Pattern
