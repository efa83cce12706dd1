import ChartParsing.Proofs.LoopOrder.Gathering
import ChartParsing.Proofs.Score.Laws
import Mathlib.Algebra.Order.Ring.Rat

/-!
# Possible and impossible scores

Logarithms of weights are numbers, or minus infinity for what cannot be derived. Without
rounding, a combination is impossible exactly if one of its parts is, and an impossible
alternative makes no difference to the others. So impossible scores may be left out
before alternatives are aggregated, or their aggregate may be left out afterwards.
-/

namespace ChartParsing

/-- The score is not that of what cannot be derived. -/
def isPossible {S : Type} [Score S] (a : S) : Bool := !Score.isImpossible a

/-- Scores without rounding: all of them are defined, one is impossible, and it absorbs
the others while these combine to possible ones. -/
class ExactScore (S : Type) [Score S] : Prop where
  isUndefined_eq : ∀ a : S, Score.isUndefined a = false
  isImpossible_iff : ∀ a : S, Score.isImpossible a = true ↔ a = Score.impossible
  isPossible_combine : ∀ a b : S, isPossible (Score.combine a b) = (isPossible a && isPossible b)

variable {S : Type} [Score S]

theorem isPossible_eq_false_iff [ExactScore S] {a : S} :
    isPossible a = false ↔ a = Score.impossible := by
  rw [isPossible, Bool.not_eq_false', ExactScore.isImpossible_iff]

theorem isPossible_impossible [ExactScore S] : isPossible (Score.impossible : S) = false :=
  isPossible_eq_false_iff.mpr rfl

/-- A score that is not held counts as impossible, so an impossible one need not be. -/
theorem getD_filter_isPossible [ExactScore S] (v : Option S) :
    (v.filter isPossible).getD Score.impossible = v.getD Score.impossible := by
  cases v with
  | none => rfl
  | some v =>
    cases hv : isPossible v with
    | false =>
      rw [Option.filter_some, hv]
      exact (isPossible_eq_false_iff.mp hv).symm
    | true =>
      rw [Option.filter_some, hv]
      rfl

theorem isSome_filter_isPossible [ExactScore S] (v : Option S) :
    (v.filter isPossible).isSome = isPossible (v.getD Score.impossible) := by
  cases v with
  | none => exact isPossible_impossible.symm
  | some v =>
    rw [Option.filter_some, Option.getD_some]
    cases isPossible v <;> rfl

/-- An impossible alternative makes no difference. The best score is found in a linear
order in which the impossible score is the least. Pooling is commutative and associative,
the impossible score is neutral, and possible ones are pooled to a possible one. -/
def Aggregation.Exact (S : Type) [Score S] : Aggregation → Prop
  | .viterbi => ∃ order : LinearOrder S, (∀ a b : S, Score.exceeds a b = true ↔ order.lt b a) ∧
      ∀ a : S, order.le Score.impossible a
  | .inside => Aggregation.inside.OrderFree S ∧ (∀ a : S, Score.pool Score.impossible a = a) ∧
      ∀ a b : S, isPossible a = true → isPossible b = true → isPossible (Score.pool a b) = true

namespace Aggregation.Exact

variable {aggregation : Aggregation} (h : aggregation.Exact S)

include h

theorem orderFree : aggregation.OrderFree S := by
  cases aggregation with
  | viterbi =>
    obtain ⟨order, hexceeds, -⟩ := h
    exact ⟨order, hexceeds⟩
  | inside => exact h.1

/-- The impossible score joined to another one leaves that as it is. -/
theorem join_impossible (v : S) : aggregation.join (some v) Score.impossible = some v := by
  cases aggregation with
  | viterbi =>
    obtain ⟨order, hexceeds, hleast⟩ := h
    have hnot : ¬ Score.exceeds Score.impossible v = true := fun hx =>
      not_lt_of_ge (hleast v) ((hexceeds _ _).mp hx)
    exact congrArg some (if_neg hnot)
  | inside =>
    obtain ⟨⟨hcomm, -⟩, hneutral, -⟩ := h
    exact congrArg some ((hcomm _ _).trans (hneutral v))

/-- A score joined to the impossible one takes its place. -/
theorem impossible_join (v : S) : aggregation.join (some Score.impossible) v = some v := by
  cases aggregation with
  | viterbi =>
    obtain ⟨order, hexceeds, hleast⟩ := h
    show some (if Score.exceeds v Score.impossible = true then v else Score.impossible) = some v
    split
    · rfl
    · rename_i hnot
      have hle : v ≤ Score.impossible := not_lt.mp fun hlt => hnot ((hexceeds _ _).mpr hlt)
      rw [le_antisymm hle (hleast v)]
  | inside => exact congrArg some (h.2.1 v)

/-- Possible scores are joined to a possible one. -/
theorem exists_join {v x : S} (hv : isPossible v = true) (hx : isPossible x = true) :
    ∃ w, aggregation.join (some v) x = some w ∧ isPossible w = true := by
  cases aggregation with
  | viterbi =>
    refine ⟨_, rfl, ?_⟩
    split
    · exact hx
    · exact hv
  | inside => exact ⟨_, rfl, h.2.2 v x hv hx⟩

variable [ExactScore S]

/-- One more score, with impossible ones left out. -/
theorem filter_join (old : Option S) (x : S) :
    (aggregation.join old x).filter isPossible =
      if isPossible x then aggregation.join (old.filter isPossible) x
      else old.filter isPossible := by
  cases old with
  | none => cases hx : isPossible x <;> simp [join, hx]
  | some v =>
    cases hv : isPossible v with
    | false =>
      -- an impossible score counts as none
      obtain rfl := isPossible_eq_false_iff.mp hv
      rw [h.impossible_join, Option.filter_some, Option.filter_some, hv]
      rfl
    | true =>
      cases hx : isPossible x with
      | false =>
        obtain rfl := isPossible_eq_false_iff.mp hx
        rw [h.join_impossible]
        rfl
      | true =>
        obtain ⟨w, hjoin, hw⟩ := h.exists_join hv hx
        simp [Option.filter_some, hv, hjoin, hw]

/-- **Impossible scores may be left out before or afterwards.** -/
theorem filter_foldl_join (scores : List S) (old : Option S) :
    (scores.foldl aggregation.join old).filter isPossible =
      (scores.filter isPossible).foldl aggregation.join (old.filter isPossible) := by
  induction scores generalizing old with
  | nil => rfl
  | cons x scores ih =>
    rw [List.foldl_cons, ih, h.filter_join, List.filter_cons]
    split <;> rfl

end Aggregation.Exact

/-! ## Fractions as log probabilities -/

instance : ExactScore (WithBot ℚ) where
  isUndefined_eq _ := rfl
  isImpossible_iff _ := decide_eq_true_iff
  isPossible_combine a b := by
    show (!decide (a + b = ⊥)) = (!decide (a = ⊥) && !decide (b = ⊥))
    simp [WithBot.add_eq_bot]

/-- The greater of two scores serves as either aggregate. -/
theorem Aggregation.exact_withBot (aggregation : Aggregation) :
    aggregation.Exact (WithBot ℚ) := by
  cases aggregation with
  | viterbi => exact ⟨inferInstance, fun _ _ => decide_eq_true_iff, fun _ => bot_le⟩
  | inside =>
    refine ⟨⟨max_comm, max_assoc⟩, fun _ => max_bot_left _, fun a b ha hb => ?_⟩
    show (!decide (max a b = ⊥)) = true
    simp_all [isPossible, Score.isImpossible]

end ChartParsing
