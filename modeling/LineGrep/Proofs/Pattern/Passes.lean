import LineGrep.Pattern.Passes
import LineGrep.Proofs.Pattern.Scan
import Mathlib.Data.List.Basic

/-!
The passes place by place do what the rewritings do. A round cuts the buffer at the place that it
finds: what stands before has nothing to rewrite, and the trees beside the place are where they are
looked for, so that each tree that is taken out is put in again. Main statement: each round fails or
makes the buffer shorter and keeps its leaves, each loop ends, and a buffer is resolved place by
place as it is by rewriting.
-/

namespace LineGrep.Pattern

namespace Working

variable {α β : Type}

/-- Work that ends goes on with work that ends. -/
theorem ended_bind {next : α → Working β} {next' : α → Except ParseError β}
    (h : ∀ a, next a = ended (next' a)) (made : Except ParseError α) :
    (ended made >>= next) = ended (made >>= next') := by
  cases made with
  | error e => rfl
  | ok a => exact h a

end Working

namespace Buffer

/-! Places -/

theorem takeTree_append_tree (front back : Buffer) (t : Regex) :
    takeTree (front ++ .tree t :: back) front.length = (some t, front ++ back) := by
  simp [takeTree, List.eraseIdx_append_of_length_le]

theorem takeTree_append_mark (front back : Buffer) (m : Mark) :
    takeTree (front ++ .mark m :: back) front.length = (none, front ++ .mark m :: back) := by
  simp [takeTree]

theorem takeTree_length (buffer : Buffer) : buffer.takeTree buffer.length = (none, buffer) := by
  simp [takeTree]

theorem put?_append (front back : Buffer) (old item : Item) :
    put? (front ++ old :: back) front.length item = some (front ++ item :: back) := by
  simp [put?]

theorem insertIdx_append (front back : Buffer) (item : Item) :
    (front ++ back).insertIdx front.length item = front ++ item :: back := by
  induction front with
  | nil => rfl
  | cons first front ih => simp [ih]

theorem insert?_append (front back : Buffer) (item : Item) :
    insert? (front ++ back) front.length item = some (front ++ item :: back) := by
  rw [insert?, if_pos (by simp), insertIdx_append]

theorem remove?_append (front back : Buffer) (item : Item) :
    remove? (front ++ item :: back) front.length = some (front ++ back) := by
  simp [remove?, List.eraseIdx_append_of_length_le]

theorem merge?_append (front back : Buffer) (first second : Item) (t : Regex) :
    merge? (front ++ first :: second :: back) front.length t = some (front ++ .tree t :: back) := by
  rw [merge?, remove?_append]
  exact put?_append front back second (.tree t)

theorem drain?_append (front inner back : Buffer) :
    drain? (front ++ (inner ++ back)) front.length (front.length + inner.length) =
      some (inner, front ++ back) := by
  simp [drain?, List.take_length_add_append]

/-- What is cut out behind an item leaves the item and what follows. -/
theorem drain?_behind (front inner back : Buffer) (item : Item) :
    drain? (front ++ item :: inner ++ back) (front.length + 1) (front ++ item :: inner).length =
      some (inner, front ++ item :: back) := by
  have drained := drain?_append (front ++ [item]) inner back
  have length : (front ++ [item]).length + inner.length = (front ++ item :: inner).length := by
    simp only [List.length_append, List.length_cons, List.length_nil]
    omega
  rw [length, List.length_append, List.length_singleton] at drained
  simpa using drained

theorem findIdx?_isMark_of_not_mem {buffer : Buffer} {m : Mark} (h : .mark m ∉ buffer) :
    buffer.findIdx? (·.isMark m) = none := by
  refine List.findIdx?_eq_none_iff.2 fun item mem => ?_
  rw [← Bool.not_eq_true, isMark_iff]
  rintro rfl
  exact h mem

theorem findIdx?_isMark_append {front : Buffer} {m : Mark} (h : .mark m ∉ front) (back : Buffer) :
    (front ++ .mark m :: back).findIdx? (·.isMark m) = some front.length := by
  have here : (Item.mark m).isMark m = true := isMark_iff.2 rfl
  rw [List.findIdx?_append, findIdx?_isMark_of_not_mem h, List.findIdx?_cons, if_pos here]
  simp

/-- A mark does not stand in a buffer, or it stands first, or it is found behind some other item. -/
theorem findIdx?_isMark (buffer : Buffer) (m : Mark) :
    (buffer.findIdx? (·.isMark m) = none ∧ .mark m ∉ buffer) ∨
      (∃ back, buffer.findIdx? (·.isMark m) = some 0 ∧ buffer = .mark m :: back) ∨
      ∃ front item back, buffer.findIdx? (·.isMark m) = some (front.length + 1) ∧
        .mark m ∉ front ∧ item ≠ .mark m ∧ buffer = front ++ item :: .mark m :: back := by
  rcases takeWhile_isMark m buffer with ⟨absent, -⟩ | ⟨back, -, whole⟩
  · exact Or.inl ⟨findIdx?_isMark_of_not_mem absent, absent⟩
  · have absent := not_mem_takeWhile m buffer
    have place := findIdx?_isMark_append absent back
    rw [whole] at place
    rcases (buffer.takeWhile (!·.isMark m)).eq_nil_or_concat' with none | ⟨front, item, last⟩
    · rw [none] at place whole
      exact Or.inr (Or.inl ⟨back, place, whole.symm⟩)
    · rw [last, List.mem_append, List.mem_singleton, not_or] at absent
      rw [last, List.length_append] at place
      rw [last, List.append_assoc] at whole
      exact Or.inr (Or.inr ⟨front, item, back, place, absent.1, Ne.symm absent.2, whole.symm⟩)

theorem lastMark?_of_not_mem {buffer : Buffer} {m : Mark} (h : .mark m ∉ buffer) :
    buffer.lastMark? m = none := by
  rw [lastMark?, findIdx?_isMark_of_not_mem (by simpa using h), Option.map_none]

theorem lastMark?_append {back : Buffer} {m : Mark} (h : .mark m ∉ back) (front : Buffer) :
    lastMark? (front ++ .mark m :: back) m = some front.length := by
  have reversed : (front ++ .mark m :: back).reverse = back.reverse ++ .mark m :: front.reverse := by
    simp
  have place : (front ++ .mark m :: back).length - 1 - back.reverse.length = front.length := by
    simp only [List.length_append, List.length_cons, List.length_reverse]
    omega
  rw [lastMark?, reversed, findIdx?_isMark_append (by simpa using h), Option.map_some, place]

end Buffer

/-- A buffer on which a pass has no place for a round just in case a rewriting has nothing to do, and
on which a round ends with what the rewriting makes. -/
inductive Pass.Follows (pass : Pass) (rewrite : Buffer → Rewriting) (buffer : Buffer) : Prop where
  | done : pass.place? buffer = none → rewrite buffer = .ok none → Follows pass rewrite buffer
  | round (place made) : pass.place? buffer = some place →
      pass.round buffer place = .ended made → rewrite buffer = made.map some →
      Follows pass rewrite buffer

theorem Pass.run_eq {pass : Pass} {rewrite : Buffer → Rewriting} (shortens : Buffer.Shortens rewrite)
    {buffer : Buffer} (follows : ∀ row, row.length ≤ buffer.length → pass.Follows rewrite row) :
    pass.run buffer = .ended (Buffer.exhaust rewrite shortens buffer) := by
  fun_induction Buffer.exhaust rewrite shortens buffer with
  | case1 row e failed =>
    cases follows row (Nat.le_refl _) with
    | done place idle => rw [failed] at idle; cases idle
    | round place made found ended same =>
      cases made with
      | ok next => rw [failed] at same; cases same
      | error e' =>
        rw [failed] at same
        cases same
        rw [run, found]
        simp only [ended]
        rfl
  | case2 row finished =>
    cases follows row (Nat.le_refl _) with
    | done place idle => rw [run, place]; rfl
    | round place made found ended same =>
      rw [finished] at same
      cases made <;> cases same
  | case3 row next step ih =>
    have shorter := shortens.length_lt step
    cases follows row (Nat.le_refl _) with
    | done place idle => rw [step] at idle; cases idle
    | round place made found ended same =>
      rw [step] at same
      cases made with
      | error e => cases same
      | ok next' =>
        cases same
        rw [run, found]
        simp only [ended]
        exact (dif_pos shorter).trans (ih fun row le => follows row (by omega))

namespace Buffer

/-- A rewriting goes on behind an item if neither this item nor the next one is a mark. -/
def SkipsTo (m : Mark) (rewrite : Buffer → Rewriting) : Prop :=
  ∀ item rest, item ≠ .mark m → rest.head? ≠ some (.mark m) →
    rewrite (item :: rest) = (rewrite rest).map (Option.map (item :: ·))

theorem skipsTo_rewriteStar : SkipsTo .star rewriteStar := by
  intro item rest other next
  rw [rewriteStar]
  · exact other
  · rintro t tail rfl rfl
    exact next rfl

theorem skipsTo_rewriteBar : SkipsTo .bar rewriteBar := by
  intro item rest other next
  rw [rewriteBar]
  · exact other
  · rintro left right tail rfl rfl
    exact next rfl
  · rintro t tail rfl rfl
    exact next rfl

/-- A rewriting goes on behind items none of which is the mark. -/
theorem SkipsTo.append {m : Mark} {rewrite : Buffer → Rewriting} (skips : SkipsTo m rewrite)
    {front : Buffer} (absent : .mark m ∉ front) (rest : Buffer)
    (next : rest.head? ≠ some (.mark m)) :
    rewrite (front ++ rest) = (rewrite rest).map (Option.map (front ++ ·)) := by
  have joined (r : Rewriting) (item : Item) (front : Buffer) :
      (r.map (Option.map (front ++ ·))).map (Option.map (item :: ·)) =
        r.map (Option.map (item :: front ++ ·)) := by
    match r with
    | .error e | .ok none | .ok (some rest) => rfl
  induction front with
  | nil =>
    match rewrite rest with
    | .error e | .ok none | .ok (some next) => rfl
  | cons item front ih =>
    rw [List.mem_cons, not_or] at absent
    have head : (front ++ rest).head? ≠ some (.mark m) := by
      cases front with
      | nil => exact next
      | cons second front =>
        intro same
        exact absent.2 (List.mem_of_mem_head? (Option.some_inj.1 same ▸ rfl))
    rw [List.cons_append, skips item _ (Ne.symm absent.1) head, ih absent.2, joined]

end Buffer

namespace Pass

open Buffer

theorem follows_stars (buffer : Buffer) : stars.Follows rewriteStar buffer := by
  rcases findIdx?_isMark buffer .star with
    ⟨place, absent⟩ | ⟨back, place, rfl⟩ | ⟨front, item, back, place, absent, other, rfl⟩
  · have idle := skipsTo_rewriteStar.append absent [] (by simp)
    rw [List.append_nil] at idle
    exact .done place idle
  · exact .round _ (.error .starWithoutOperand) place rfl rfl
  · have rewritten := skipsTo_rewriteStar.append absent (item :: .mark .star :: back)
      (by simpa using other)
    cases item with
    | tree t =>
      refine .round _ (.ok (front ++ .tree (.star t) :: back)) place ?_ rewritten
      simp only [stars, takeTree_append_tree, put?_append]
      rfl
    | mark m =>
      have failed : rewriteStar (.mark m :: .mark .star :: back) = .error .starWithoutOperand := by
        cases m with
        | star => exact absurd rfl other
        | opening | closing | bar => rfl
      refine .round _ (.error .starWithoutOperand) place ?_ (by rw [rewritten, failed]; rfl)
      simp only [stars, takeTree_append_mark]
      rfl

end Pass

namespace Buffer

theorem neighbours?_cons {item : Item} {rest : Buffer}
    (apart : ∀ left right tail, item = .tree left → rest = .tree right :: tail → False) :
    neighbours? (item :: rest) = (neighbours? rest).map (· + 1) := by
  cases rest with
  | nil => rfl
  | cons second tail =>
    have other : (item.isTree && second.isTree) = false := by
      cases item with
      | mark => rfl
      | tree left =>
        cases second with
        | mark => rfl
        | tree right => exact (apart left right tail rfl rfl).elim
    exact List.findIdx?_cons.trans (if_neg (by simpa using other))

/-- No two trees stand side by side and there is nothing to join, or the first two that do are found
and joined where they stand. -/
theorem neighbours?_spec (buffer : Buffer) :
    (buffer.neighbours? = none ∧ rewriteCat buffer = .ok none) ∨
      ∃ front left right back, buffer.neighbours? = some front.length ∧
        buffer = front ++ .tree left :: .tree right :: back ∧
        rewriteCat buffer = .ok (some (front ++ .tree (.cat left right) :: back)) := by
  fun_induction rewriteCat buffer with
  | case1 => exact Or.inl ⟨rfl, rfl⟩
  | case2 left right rest => exact Or.inr ⟨[], left, right, rest, rfl, rfl, rfl⟩
  | case3 item rest apart ih =>
    rw [neighbours?_cons apart]
    rcases ih with ⟨place, idle⟩ | ⟨front, left, right, back, place, rfl, rewritten⟩
    · exact Or.inl ⟨by rw [place]; rfl, by rw [idle]; rfl⟩
    · refine Or.inr ⟨item :: front, left, right, back, by rw [place]; rfl, rfl, ?_⟩
      rw [rewritten]
      rfl

/-- Both neighbours are taken from where they stand. -/
theorem takeTree_neighbours (front back : Buffer) (left right : Regex) :
    takeTree (front ++ .tree left :: .tree right :: back) (front.length + 1) =
        (some right, front ++ .tree left :: back) ∧
      takeTree (front ++ .tree left :: back) front.length = (some left, front ++ back) := by
  have second := takeTree_append_tree (front ++ [.tree left]) back right
  rw [List.append_assoc, List.append_assoc, List.length_append] at second
  exact ⟨second, takeTree_append_tree front back left⟩

/-- The right side of a bar is taken from where it stands. -/
theorem takeTree_behind_bar (front back : Buffer) (left : Regex) :
    takeTree (front ++ .tree left :: .mark .bar :: back) (front.length + 2) =
      match back with
      | .tree right :: rest => (some right, front ++ .tree left :: .mark .bar :: rest)
      | _ => (none, front ++ .tree left :: .mark .bar :: back) := by
  have whole (rest : Buffer) : front ++ .tree left :: .mark .bar :: rest =
      front ++ [.tree left, .mark .bar] ++ rest := by
    simp
  have place : front.length + 2 = (front ++ [Item.tree left, .mark .bar]).length := by
    simp
  rw [whole, place]
  match back with
  | [] => rw [List.append_nil, takeTree_length]
  | .tree right :: rest =>
    rw [takeTree_append_tree]
    exact congrArg (Prod.mk _) (whole rest).symm
  | .mark m :: rest => rw [takeTree_append_mark]

end Buffer

namespace Pass

open Buffer

theorem round_neighbours (front back : Buffer) (left right : Regex) :
    neighbours.round (front ++ .tree left :: .tree right :: back) front.length =
      .ended (.ok (front ++ .tree (.cat left right) :: back)) := by
  obtain ⟨second, first⟩ := takeTree_neighbours front back left right
  simp only [neighbours, second, first, insert?_append]
  rfl

theorem follows_neighbours (buffer : Buffer) : neighbours.Follows rewriteCat buffer := by
  rcases neighbours?_spec buffer with
    ⟨place, idle⟩ | ⟨front, left, right, back, place, rfl, rewritten⟩
  · exact .done place idle
  · exact .round _ _ place (round_neighbours front back left right) rewritten

/-- A bar with a tree on its left fails only for want of a tree on its right. -/
theorem round_bars (front back : Buffer) (left : Regex) :
    bars.round (front ++ .tree left :: .mark .bar :: back) (front.length + 1) = .ended
      (match back with
      | .tree right :: rest => .ok (front ++ .tree (.alt left right) :: rest)
      | _ => .error .missingRightOperand) := by
  have item : (front ++ .tree left :: .mark .bar :: back)[front.length]? = some (.tree left) := by
    simp
  simp only [bars, item, takeTree_behind_bar]
  match back with
  | [] => rfl
  | .tree right :: rest =>
    simp only [takeTree_append_tree, put?_append]
    rfl
  | .mark m :: rest => rfl

theorem follows_bars (buffer : Buffer) : bars.Follows rewriteBar buffer := by
  rcases findIdx?_isMark buffer .bar with
    ⟨place, absent⟩ | ⟨back, place, rfl⟩ | ⟨front, item, back, place, absent, other, rfl⟩
  · have idle := skipsTo_rewriteBar.append absent [] (by simp)
    rw [List.append_nil] at idle
    exact .done place idle
  · exact .round _ (.error .missingLeftOperand) place rfl rfl
  · have rewritten := skipsTo_rewriteBar.append absent (item :: .mark .bar :: back)
      (by simpa using other)
    cases item with
    | tree left =>
      refine .round _ _ place (round_bars front back left) (rewritten.trans ?_)
      match back with
      | [] | .tree right :: rest | .mark m :: rest => rfl
    | mark m =>
      have item : (front ++ .mark m :: .mark .bar :: back)[front.length]? = some (.mark m) := by
        simp
      have failed : rewriteBar (.mark m :: .mark .bar :: back) = .error .missingLeftOperand := by
        cases m with
        | bar => exact absurd rfl other
        | opening | closing | star => rfl
      refine .round _ (.error .missingLeftOperand) place ?_ (by rw [rewritten, failed]; rfl)
      simp only [bars, item]
      rfl

/-- The group that is closed first is cut out between its parentheses, and its tree is put in their
place. -/
theorem round_groups (resolve : Buffer → Working Regex) {before inner : Buffer}
    (notClosed : .mark .closing ∉ before) (marks : OnlyMarks [.star, .bar] inner) (after : Buffer)
    (place : Nat) :
    (groups resolve).round (before ++ .mark .opening :: inner ++ .mark .closing :: after) place =
      if inner.isEmpty then throw .malformedGroup
      else resolve inner >>= fun t => pure (before ++ .tree t :: after) := by
  have innerOpening : .mark .opening ∉ inner := fun mem => absurd (marks _ mem) (by decide)
  have innerClosing : .mark .closing ∉ inner := fun mem => absurd (marks _ mem) (by decide)
  have absent : .mark .closing ∉ before ++ .mark .opening :: inner := by
    simp [notClosed, innerClosing]
  have closing := findIdx?_isMark_append absent after
  have cut := drain?_behind before inner (.mark .closing :: after) (.mark .opening)
  simp only [groups, closing, List.take_left, lastMark?_append innerOpening, cut]
  have next : (resolve inner >>= fun t => (liftM (merge?
      (before ++ .mark .opening :: .mark .closing :: after) before.length t) : Working Buffer)) =
        resolve inner >>= fun t => pure (before ++ .tree t :: after) := by
    simp only [merge?_append]
    rfl
  exact congrArg (fun next : Working Buffer =>
    if inner.isEmpty then throw .malformedGroup else next) next

/-- A round over groups is due as long as there is a parenthesis. -/
theorem exists_place_groups (resolve : Buffer → Working Regex) {buffer : Buffer} {m : Mark}
    (mem : .mark m ∈ buffer) (parenthesis : m = .opening ∨ m = .closing) :
    ∃ place, (groups resolve).place? buffer = some place := by
  refine Option.ne_none_iff_exists'.1 fun none => ?_
  have absent := List.findIdx?_eq_none_iff.1 none _ mem
  rcases parenthesis with rfl | rfl
  · exact absurd absent (by decide)
  · exact absurd absent (by decide)

theorem follows_groups (resolve : Buffer → Working Regex) (buffer : Buffer)
    (inside : ∀ inner, OnlyMarks [.star, .bar] inner → inner.length < buffer.length →
      resolve inner = .ended (resolveFlat inner)) :
    (groups resolve).Follows rewriteGroup buffer := by
  have found := firstGroup_spec buffer
  generalize same : firstGroup buffer = result at found
  cases found with
  | flat marks =>
    have other (m : Mark) (mem : .mark m ∈ buffer) : m = .star ∨ m = .bar := by
      simpa using marks m mem
    refine .done (List.findIdx?_eq_none_iff.2 fun item mem => ?_) (by rw [rewriteGroup, same])
    cases item with
    | tree t => rfl
    | mark m => rcases other m mem with rfl | rfl <;> rfl
  | unclosed notClosed opened =>
    obtain ⟨place, due⟩ := exists_place_groups resolve opened (Or.inl rfl)
    refine .round place (.error .missingRightParen) due ?_ (by rw [rewriteGroup, same]; rfl)
    simp only [groups, findIdx?_isMark_of_not_mem notClosed]
    rfl
  | @unopened front after marks whole =>
    subst whole
    have notOpened : .mark .opening ∉ front := fun mem => absurd (marks _ mem) (by decide)
    have notClosed : .mark .closing ∉ front := fun mem => absurd (marks _ mem) (by decide)
    have closed : .mark .closing ∈ front ++ .mark .closing :: after := by simp
    obtain ⟨place, due⟩ := exists_place_groups resolve closed (Or.inr rfl)
    refine .round place (.error .missingLeftParen) due ?_ (by rw [rewriteGroup, same]; rfl)
    simp only [groups, findIdx?_isMark_append notClosed, List.take_left,
      lastMark?_of_not_mem notOpened]
    rfl
  | @group g notClosed marks whole =>
    subst whole
    have shorter : g.inner.length < g.whole.length := by
      simp only [Grouped.whole, List.length_append, List.length_cons]
      omega
    have opened : .mark .opening ∈ g.whole := by simp [Grouped.whole]
    obtain ⟨place, due⟩ := exists_place_groups resolve opened (Or.inl rfl)
    have round := round_groups resolve notClosed marks g.after place
    rw [inside g.inner marks shorter] at round
    by_cases empty : g.inner.isEmpty
    · refine .round place (.error .malformedGroup) due (round.trans (if_pos empty)) ?_
      simp only [rewriteGroup, same, if_pos empty]
      rfl
    · refine .round place ((resolveFlat g.inner).map fun t => g.before ++ .tree t :: g.after) due
        (round.trans ((if_neg empty).trans ?_)) ?_
      · cases resolveFlat g.inner <;> rfl
      · simp only [rewriteGroup, same, if_neg empty]
        cases resolveFlat g.inner <;> rfl

end Pass

namespace Buffer

theorem resolveRow?_eq (buffer : Buffer) : buffer.resolveRow? = .ended (resolveFlat buffer) := by
  rw [resolveRow?, resolveFlat, Pass.run_eq shortens_rewriteStar fun row _ => Pass.follows_stars row]
  refine Working.ended_bind (fun starred => ?_) _
  rw [Pass.run_eq shortens_rewriteCat fun row _ => Pass.follows_neighbours row]
  refine Working.ended_bind (fun joined => ?_) _
  rw [Pass.run_eq shortens_rewriteBar fun row _ => Pass.follows_bars row]
  exact Working.ended_bind (fun split => rfl) _

/-- A buffer without parentheses is resolved as one row. -/
theorem resolve_of_onlyMarks {buffer : Buffer} (marks : OnlyMarks [.star, .bar] buffer) :
    buffer.resolve = resolveFlat buffer := by
  have run := Scan.run_append_of_onlyMarks ⟨[], []⟩ marks []
  rw [List.append_nil] at run
  rw [resolve_eq_scan, scan, run]
  rfl

/-- Resolving a buffer place by place ends, with the tree or the error of the rewritings. -/
theorem resolve?_eq (buffer : Buffer) : buffer.resolve? = .ended buffer.resolve := by
  induction h : buffer.length using Nat.strongRecOn generalizing buffer with
  | _ n ih =>
    subst h
    rw [resolve?, resolve]
    rw [Pass.run_eq shortens_rewriteGroup fun row le => Pass.follows_groups _ row ?_]
    · exact Working.ended_bind (fun flat => flat.resolveRow?_eq) _
    · intro inner marks shorter
      have within : inner.length < buffer.length := by omega
      rw [dif_pos within, ih _ within _ rfl, resolve_of_onlyMarks marks]

theorem follows_groups_resolve? (buffer : Buffer) :
    (Pass.groups resolve?).Follows rewriteGroup buffer := by
  refine Pass.follows_groups _ buffer fun inner marks _ => ?_
  rw [resolve?_eq, resolve_of_onlyMarks marks]

/-- The groups within a buffer are shorter than it, so it does not matter that longer ones would be
left alone. -/
theorem resolve?_eq_run (buffer : Buffer) : buffer.resolve? = (do
    let flat ← (Pass.groups resolve?).run buffer
    flat.resolveRow?) := by
  rw [Pass.run_eq shortens_rewriteGroup fun row _ => follows_groups_resolve? row, resolve?_eq,
    resolve]
  exact (Working.ended_bind (fun flat => flat.resolveRow?_eq) _).symm

theorem length_drain?_lt {buffer inner rest : Buffer} {place stop : Nat}
    (h : buffer.drain? (place + 1) stop = some (inner, rest)) : inner.length < buffer.length := by
  unfold drain? at h
  split at h
  · next inside =>
    cases h
    simp only [List.length_drop, List.length_take]
    omega
  · cases h

end Buffer

namespace Pass

/-- A round resolves groups that are shorter than the buffer only. -/
theorem round_groups_congr {buffer : Buffer} {resolve resolve' : Buffer → Working Regex}
    (same : ∀ inner, inner.length < buffer.length → resolve inner = resolve' inner) (place : Nat) :
    (groups resolve).round buffer place = (groups resolve').round buffer place := by
  simp only [groups]
  split
  · rfl
  · next closing _ =>
    split
    · rfl
    · next opening _ =>
      cases drained : buffer.drain? (opening + 1) closing with
      | none => rfl
      | some parts =>
        have equal := same parts.1 (Buffer.length_drain?_lt drained)
        exact congrArg (fun tree : Working Regex =>
          if parts.1.isEmpty then throw .malformedGroup
          else tree >>= fun t => liftM (parts.2.merge? opening t)) equal

theorem Follows.advances {pass : Pass} {rewrite : Buffer → Rewriting} {buffer : Buffer}
    (follows : pass.Follows rewrite buffer) (shortens : Buffer.Shortens rewrite) {place : Nat}
    (due : pass.place? buffer = some place) : ∃ made, pass.round buffer place = .ended made ∧
      ∀ next, made = .ok next → next.length < buffer.length ∧ next.leaves = buffer.leaves := by
  cases follows with
  | done none idle => rw [due] at none; cases none
  | round place' made found ended rewritten =>
    rw [due] at found
    cases found
    refine ⟨made, ended, ?_⟩
    rintro next rfl
    exact ⟨shortens.length_lt rewritten, shortens.leaves_eq rewritten⟩

end Pass

namespace Buffer

/-- The passes in the order in which a buffer goes through them. -/
def passes : List Pass :=
  [.groups resolve?, .stars, .neighbours, .bars]

theorem exists_rewriting {pass : Pass} (h : pass ∈ passes) :
    ∃ rewrite, Shortens rewrite ∧ ∀ row, pass.Follows rewrite row := by
  simp only [passes, List.mem_cons, List.not_mem_nil, or_false] at h
  rcases h with rfl | rfl | rfl | rfl
  · exact ⟨rewriteGroup, shortens_rewriteGroup, follows_groups_resolve?⟩
  · exact ⟨rewriteStar, shortens_rewriteStar, Pass.follows_stars⟩
  · exact ⟨rewriteCat, shortens_rewriteCat, Pass.follows_neighbours⟩
  · exact ⟨rewriteBar, shortens_rewriteBar, Pass.follows_bars⟩

/-- Each pass comes to its end on each buffer: a round that is due fails, or it makes the buffer
shorter and keeps its leaves in their order. A round over groups resolves shorter buffers only. A
round over neighbours finds both trees where it takes them, and puts the joined one in. So resolving a
buffer place by place ends as by rewriting, and the leaves of the tree are those of the buffer. -/
theorem passes_end_and_keep_leaves (buffer : Buffer) :
    (∀ pass ∈ passes,
      (∀ place, pass.place? buffer = some place → ∃ made, pass.round buffer place = .ended made ∧
        ∀ next, made = .ok next → next.length < buffer.length ∧ next.leaves = buffer.leaves) ∧
      ∃ made, pass.run buffer = .ended made) ∧
      (∀ resolve resolve' : Buffer → Working Regex,
        (∀ inner, inner.length < buffer.length → resolve inner = resolve' inner) →
        ∀ place, (Pass.groups resolve).round buffer place =
          (Pass.groups resolve').round buffer place) ∧
      (∀ place, buffer.neighbours? = some place → ∃ left right rest rest',
        buffer.takeTree (place + 1) = (some right, rest) ∧
        rest.takeTree place = (some left, rest') ∧
        Pass.neighbours.round buffer place =
          .ended (.ok (rest'.insertIdx place (.tree (.cat left right))))) ∧
      buffer.resolve? = (do
        let flat ← (Pass.groups resolve?).run buffer
        flat.resolveRow?) ∧
      buffer.resolve? = .ended buffer.resolve ∧
      ∀ t, buffer.resolve? = .ended (.ok t) → t.leaves = buffer.leaves := by
  refine ⟨fun pass mem => ?_, fun _ _ => Pass.round_groups_congr, fun place found => ?_, ?_,
    buffer.resolve?_eq, fun t resolved => ?_⟩
  · obtain ⟨rewrite, shortens, follows⟩ := exists_rewriting mem
    exact ⟨fun place due => (follows buffer).advances shortens due,
      _, Pass.run_eq shortens fun row _ => follows row⟩
  · rcases neighbours?_spec buffer with ⟨none, -⟩ | ⟨front, left, right, back, first, rfl, -⟩
    · rw [none] at found
      cases found
    · obtain rfl : front.length = place := Option.some_inj.1 (first.symm.trans found)
      obtain ⟨second, first⟩ := takeTree_neighbours front back left right
      have joined := insertIdx_append front back (.tree (.cat left right))
      refine ⟨left, right, _, _, second, first, ?_⟩
      rw [joined]
      exact Pass.round_neighbours front back left right
  · exact buffer.resolve?_eq_run
  · rw [resolve?_eq] at resolved
    exact leaves_resolve (Option.some_inj.1 resolved)

theorem neighbours_joined_behind_bar :
    let buffer : Buffer := [.tree .dot, .mark .bar, .tree (.literal 97), .tree (.literal 98)]
    buffer.neighbours? = some 2 ∧ ∃ left right rest rest',
      buffer.takeTree 3 = (some right, rest) ∧ rest.takeTree 2 = (some left, rest') ∧
      Pass.neighbours.round buffer 2 =
        .ended (.ok (rest'.insertIdx 2 (.tree (.cat left right)))) := by
  intro buffer
  have found : buffer.neighbours? = some 2 := by decide
  exact ⟨found, (passes_end_and_keep_leaves buffer).2.2.1 2 found⟩

end Buffer

end LineGrep.Pattern
