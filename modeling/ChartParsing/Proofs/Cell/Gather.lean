import ChartParsing.Proofs.Cell.History
import ChartParsing.Proofs.Score.Laws
import Mathlib.Algebra.BigOperators.Group.List.Basic
import Mathlib.Data.List.Induction

/-!
# What offers amount to

An entry without ties is its offers merged in order. In a linear order the merged
score is the greatest that was offered; among exact weights it is the sum of all of
them. Either way the order of the offers does not matter.
-/

namespace ChartParsing

variable {S : Type} [Score S]

/-- **A best entry is no worse than any of its offers.** -/
theorem le_gather_viterbi [LinearOrder S] [OrderedScore S] {offers : List (Offer S)} {o : Offer S}
    (ho : o ∈ offers) :
    ∃ e, gather .viterbi offers o.rule.parent = some e ∧ o.score ≤ e.score := by
  induction offers using List.reverseRecOn with
  | nil => exact absurd ho (by simp)
  | append_singleton offers o' ih =>
    rw [gather_concat]
    by_cases hp : o'.rule.parent = o.rule.parent
    · rw [if_pos hp]
      refine ⟨_, rfl, ?_⟩
      -- a merge is no worse than the offer, nor than the entry before it
      have hself : o'.score ≤ (o'.merge .viterbi (gather .viterbi offers o.rule.parent)).score ∧
          ∀ e, gather .viterbi offers o.rule.parent = some e →
            e.score ≤ (o'.merge .viterbi (gather .viterbi offers o.rule.parent)).score := by
        cases gather .viterbi offers o.rule.parent with
        | none => exact ⟨le_refl _, fun _ h => by cases h⟩
        | some e =>
          simp only [Offer.merge]
          split
          · rename_i hexceeds
            refine ⟨le_refl _, ?_⟩
            intro _ hx
            cases hx
            exact le_of_lt ((OrderedScore.exceeds_iff _ _).mp hexceeds)
          · rename_i hexceeds
            refine ⟨not_lt.mp fun hlt => hexceeds ((OrderedScore.exceeds_iff _ _).mpr hlt), ?_⟩
            intro _ hx
            cases hx
            exact le_refl _
      rcases List.mem_append.mp ho with ho | ho
      · obtain ⟨e, he, hle⟩ := ih ho
        exact le_trans hle (hself.2 e he)
      · rw [List.mem_singleton.mp ho]
        rw [List.mem_singleton.mp ho] at hself
        exact hself.1
    · rw [if_neg hp]
      rcases List.mem_append.mp ho with ho | ho
      · exact ih ho
      · exact absurd (by rw [List.mem_singleton.mp ho]) hp

/-- **A pooled entry is the sum of its offers.** -/
theorem gather_inside [CommSemiring S] [WeightScore S] (offers : List (Offer S)) (sym : Symbol) :
    ((gather .inside offers sym).map (·.score)).getD 0 =
      ((offers.filter fun o => o.rule.parent = sym).map (·.score)).sum := by
  induction offers using List.reverseRecOn with
  | nil => rfl
  | append_singleton offers o ih =>
    rw [gather_concat, List.filter_append, List.map_append, List.sum_append, ← ih]
    by_cases hp : o.rule.parent = sym
    · rw [if_pos hp, List.filter_cons_of_pos (by simpa using hp)]
      cases gather .inside offers sym with
      | none => simp [Offer.entry]
      | some e => simp [Offer.merge, Aggregation.plus, WeightScore.pool_eq]
    · rw [if_neg hp, List.filter_cons_of_neg (by simpa using hp)]
      simp

end ChartParsing
