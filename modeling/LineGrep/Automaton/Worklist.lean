/-!
How much a search over finitely many candidates still has to see. Main statement: seeing a
candidate for the first time leaves less to see, so a search that looks at each candidate once comes
to an end.
-/

namespace LineGrep.Worklist

variable {α : Type} [DecidableEq α]

/-- The number of candidates that have not been seen. -/
def unseen (candidates seen : List α) : Nat :=
  candidates.countP (· ∉ seen)

theorem unseen_le {candidates before after : List α} (grows : ∀ a ∈ before, a ∈ after) :
    unseen candidates after ≤ unseen candidates before := by
  refine List.countP_mono_left fun a _ h => ?_
  simp only [decide_eq_true_eq] at h ⊢
  exact fun mem => h (grows a mem)

theorem unseen_lt {candidates before after : List α} (grows : ∀ a ∈ before, a ∈ after) {a : α}
    (candidate : a ∈ candidates) (fresh : a ∉ before) (seen : a ∈ after) :
    unseen candidates after < unseen candidates before := by
  induction candidates with
  | nil => simp at candidate
  | cons x rest ih =>
    have le : unseen rest after ≤ unseen rest before := unseen_le grows
    simp only [unseen, List.countP_cons, decide_eq_true_eq] at ih le ⊢
    by_cases hx : x = a
    · subst hx
      rw [if_neg (not_not_intro seen), if_pos fresh]
      omega
    · have lt := ih (by simpa [Ne.symm hx] using candidate)
      have : (if x ∉ after then 1 else 0) ≤ if x ∉ before then 1 else 0 := by
        by_cases hb : x ∈ before
        · simp [hb, grows x hb]
        · rw [if_pos hb]; split <;> omega
      omega

end LineGrep.Worklist
