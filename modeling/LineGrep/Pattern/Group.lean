import LineGrep.Pattern.Buffer

/-!
Groups in a half-parsed pattern. The first group to be closed holds no other group, so its content
is resolved by stars, neighbours and bars alone. Main statements: resolving a buffer without groups
keeps its leaves, and resolving a group gives a shorter buffer with the same leaves.
-/

namespace LineGrep.Pattern.Buffer

/-- Rewrites until there is no place left for it. -/
def exhaust (rewrite : Buffer → Rewriting) (shortens : Shortens rewrite) (buffer : Buffer) :
    Except ParseError Buffer :=
  match _step : rewrite buffer with
  | .error e => .error e
  | .ok none => .ok buffer
  | .ok (some next) => exhaust rewrite shortens next
termination_by buffer.length
decreasing_by exact shortens.length_lt _step

def root : Buffer → Except ParseError Regex
  | [.tree t] => .ok t
  | _ => .error .multipleRoots

/-- The tree of a buffer without groups: stars bind first, then neighbours, then bars. -/
def resolveFlat (buffer : Buffer) : Except ParseError Regex := do
  let starred ← exhaust rewriteStar shortens_rewriteStar buffer
  let joined ← exhaust rewriteCat shortens_rewriteCat starred
  let split ← exhaust rewriteBar shortens_rewriteBar joined
  root split

/-- A group with what stands before it and after it. -/
structure Grouped where
  before : Buffer
  inner : Buffer
  after : Buffer

def Grouped.whole (g : Grouped) : Buffer :=
  g.before ++ .mark .opening :: g.inner ++ .mark .closing :: g.after

/-- The group that is closed first, which reaches from the first closing parenthesis back to the
last opening one before it. There is none if there are no parentheses. -/
def firstGroup (buffer : Buffer) : Except ParseError (Option Grouped) :=
  let front := buffer.takeWhile (!·.isMark .closing)
  match buffer.dropWhile (!·.isMark .closing) with
  | [] => if buffer.any (·.isMark .opening) then .error .missingRightParen else .ok none
  | _ :: after =>
    let back := front.reverse
    match back.dropWhile (!·.isMark .opening) with
    | [] => .error .missingLeftParen
    | _ :: before =>
      .ok (some ⟨before.reverse, (back.takeWhile (!·.isMark .opening)).reverse, after⟩)

/-- Replaces the group that is closed first by its tree. -/
def rewriteGroup (buffer : Buffer) : Rewriting :=
  match firstGroup buffer with
  | .error e => .error e
  | .ok none => .ok none
  | .ok (some g) =>
    if g.inner.isEmpty then .error .malformedGroup
    else (resolveFlat g.inner).map fun t => some (g.before ++ .tree t :: g.after)

theorem isMark_iff {m : Mark} {item : Item} : item.isMark m = true ↔ item = .mark m := by
  cases item <;> simp [Item.isMark]

theorem leaves_append (a b : Buffer) : leaves (a ++ b) = leaves a ++ leaves b := by
  simp [leaves]

theorem leaves_cons (item : Item) (rest : Buffer) :
    leaves (item :: rest) = item.leaves ++ leaves rest := by
  simp [leaves]

/-- The first group stands in the buffer where it is found. -/
theorem whole_of_firstGroup {buffer : Buffer} {g : Grouped}
    (h : firstGroup buffer = .ok (some g)) : g.whole = buffer := by
  unfold firstGroup at h
  simp only at h
  split at h
  · split at h <;> simp at h
  · next closing after hclose =>
    split at h
    · simp at h
    · next opening before hopen =>
      have hc : closing = .mark .closing := by
        have := List.head?_dropWhile_not (fun item : Item => !item.isMark .closing) buffer
        rw [hclose] at this
        simpa [isMark_iff] using this
      have ho : opening = .mark .opening := by
        have := List.head?_dropWhile_not (fun item : Item => !item.isMark .opening)
          (buffer.takeWhile (!·.isMark .closing)).reverse
        rw [hopen] at this
        simpa [isMark_iff] using this
      subst hc ho
      have hfront := congrArg List.reverse (List.takeWhile_append_dropWhile
        (p := fun item : Item => !item.isMark .opening)
        (l := (buffer.takeWhile (!·.isMark .closing)).reverse))
      rw [hopen, List.reverse_reverse] at hfront
      have hwhole := List.takeWhile_append_dropWhile
        (p := fun item : Item => !item.isMark .closing) (l := buffer)
      rw [hclose, ← hfront] at hwhole
      cases h
      simpa [Grouped.whole] using hwhole

theorem leaves_exhaust {rewrite : Buffer → Rewriting} (shortens : Shortens rewrite)
    {before after : Buffer} (h : exhaust rewrite shortens before = .ok after) :
    after.leaves = before.leaves := by
  fun_induction exhaust rewrite shortens before with
  | case1 => simp at h
  | case2 => cases h; rfl
  | case3 _ _ hr ih => rw [ih h, shortens.leaves_eq hr]

theorem leaves_root {buffer : Buffer} {t : Regex} (h : root buffer = .ok t) :
    t.leaves = buffer.leaves := by
  unfold root at h
  split at h
  · cases h; simp [leaves, Item.leaves]
  · simp at h

theorem leaves_resolveFlat {buffer : Buffer} {t : Regex} (h : resolveFlat buffer = .ok t) :
    t.leaves = buffer.leaves := by
  unfold resolveFlat at h
  cases h1 : exhaust rewriteStar shortens_rewriteStar buffer with
  | error => rw [h1] at h; cases h
  | ok starred =>
    rw [h1] at h
    cases h2 : exhaust rewriteCat shortens_rewriteCat starred with
    | error => simp only [bind, Except.bind, h2] at h; cases h
    | ok joined =>
      simp only [bind, Except.bind, h2] at h
      cases h3 : exhaust rewriteBar shortens_rewriteBar joined with
      | error => rw [h3] at h; cases h
      | ok split =>
        rw [h3] at h
        rw [leaves_root h, leaves_exhaust _ h3, leaves_exhaust _ h2, leaves_exhaust _ h1]

theorem rewriteGroup_eq {before after : Buffer} (h : rewriteGroup before = .ok (some after)) :
    ∃ g t, firstGroup before = .ok (some g) ∧ resolveFlat g.inner = .ok t ∧
      after = g.before ++ .tree t :: g.after := by
  unfold rewriteGroup at h
  split at h
  · simp at h
  · simp at h
  · next g hg =>
    split at h
    · simp at h
    · match hr : resolveFlat g.inner, h with
      | .ok t, h => exact ⟨g, t, hg, hr, by simpa [Except.map] using h.symm⟩

theorem shortens_rewriteGroup : Shortens rewriteGroup := by
  constructor
  all_goals
    intro before after h
    obtain ⟨g, t, hg, ht, rfl⟩ := rewriteGroup_eq h
    rw [← whole_of_firstGroup hg]
  · simp only [Grouped.whole, List.length_append, List.length_cons]; omega
  · simp [Grouped.whole, leaves_append, leaves_cons, Item.leaves, leaves_resolveFlat ht]

end LineGrep.Pattern.Buffer
