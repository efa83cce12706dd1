import ChartParsing.Score
import Mathlib.Algebra.Order.Field.Rat
import Mathlib.Algebra.Order.Monoid.WithTop
import Mathlib.Algebra.Order.Ring.Defs
import Mathlib.Algebra.Order.Ring.NNRat
import Mathlib.Order.Defs.LinearOrder

/-!
# Laws of scores

Parsing asks nothing of scores, so what a chart holds means something only where
its scores obey laws. Best derivations are best in a linear order that combining
scores respects, as it does for log probabilities that are numbers. Pooled scores are
sums if scores are weights in a commutative semiring, combined by multiplication.
Among nonnegative weights that can be divided, the share of a total is a quotient.

What a single cell holds asks for less: scores need only be ranked. Different scores
may rank the same, as zeros of both signs do, and undefined ones need no rank. That the
best score of a cell is not exceeded asks for less still: a strict order.
-/

namespace ChartParsing

/-- Scores in a linear order that combining respects, all of them defined. -/
class OrderedScore (S : Type) [Score S] [LinearOrder S] : Prop where
  exceeds_iff : ∀ a b : S, Score.exceeds a b = true ↔ b < a
  isUndefined_eq : ∀ a : S, Score.isUndefined a = false
  combine_le_combine : ∀ {a a' b b' : S}, a ≤ a' → b ≤ b' →
    Score.combine a b ≤ Score.combine a' b'

/-- Scores that are ranked: no two exceed each other, and where one exceeds another, any
defined score is exceeded by the first or exceeds the second. -/
class RankedScore (S : Type) [Score S] : Prop where
  exceeds_asymm : ∀ {a b : S}, Score.exceeds a b = true → Score.exceeds b a = false
  exceeds_or_exceeds : ∀ {a b c : S}, Score.exceeds a c = true → Score.isUndefined b = false →
    Score.exceeds a b = true ∨ Score.exceeds b c = true

/-- A linear order ranks scores. -/
instance {S : Type} [Score S] [LinearOrder S] [OrderedScore S] : RankedScore S where
  exceeds_asymm {a b} h := by
    rw [Bool.eq_false_iff, Ne, OrderedScore.exceeds_iff]
    exact lt_asymm ((OrderedScore.exceeds_iff a b).mp h)
  exceeds_or_exceeds {a b c} h _ := by
    rw [OrderedScore.exceeds_iff] at h ⊢
    rw [OrderedScore.exceeds_iff]
    exact (lt_or_ge b a).imp_right (lt_of_lt_of_le h)

/-- Scores that exceed each other in a strict order. Not all of them need be comparable, and
undefined ones are not. -/
class StrictScore (S : Type) [Score S] : Prop where
  exceeds_self : ∀ a : S, Score.exceeds a a = false
  exceeds_trans : ∀ {a b c : S}, Score.exceeds a b = true → Score.exceeds b c = true →
    Score.exceeds a c = true

/-- A linear order is strict. -/
instance {S : Type} [Score S] [LinearOrder S] [OrderedScore S] : StrictScore S where
  exceeds_self a := by
    rw [Bool.eq_false_iff, Ne, OrderedScore.exceeds_iff]
    exact lt_irrefl a
  exceeds_trans {a b c} hab hbc := by
    rw [OrderedScore.exceeds_iff] at hab hbc ⊢
    exact lt_trans hbc hab

/-- Scores that are exact weights: combined by multiplication, pooled by addition,
all of them defined. -/
class WeightScore (S : Type) [Score S] [CommSemiring S] : Prop where
  combine_eq : ∀ a b : S, Score.combine a b = a * b
  pool_eq : ∀ a b : S, Score.pool a b = a + b
  impossible_eq : (Score.impossible : S) = 0
  certain_eq : (Score.certain : S) = 1
  isUndefined_eq : ∀ a : S, Score.isUndefined a = false

/-- Scores that are nonnegative weights, with quotients for shares. -/
class ShareScore (S : Type) [Score S] [Probability S] [Sharing S S] [Semifield S] [LinearOrder S] :
    Prop extends WeightScore S where
  exceeds_iff : ∀ a b : S, Score.exceeds a b = true ↔ b < a
  isImpossible_iff : ∀ a : S, Score.isImpossible a = true ↔ a = 0
  none_eq : (Probability.none : S) = 0
  add_eq : ∀ a b : S, Probability.add a b = a + b
  share_eq : ∀ a b : S, Sharing.share a b = a / b

/-! ## Fractions as log probabilities -/

/-- Fractions with a bottom, combined by addition. -/
instance : Score (WithBot ℚ) where
  impossible := ⊥
  certain := 0
  combine := (· + ·)
  pool := max
  exceeds a b := decide (b < a)
  clearlyExceeds a b := decide (b < a)
  ties a b := decide (a = b)
  isUndefined _ := false
  isImpossible a := decide (a = ⊥)
  isUnbounded _ := false

instance : OrderedScore (WithBot ℚ) where
  exceeds_iff _ _ := decide_eq_true_iff
  isUndefined_eq _ := rfl
  combine_le_combine := add_le_add

instance : ScoreText (WithBot ℚ) where
  plain
    | some x => toString x
    | none => "-inf"
  marked
    | some x => toString x
    | none => "-inf"

/-! ## Natural numbers as weights -/

instance : Score ℕ where
  impossible := 0
  certain := 1
  combine := (· * ·)
  pool := (· + ·)
  exceeds a b := decide (b < a)
  clearlyExceeds a b := decide (b < a)
  ties a b := decide (a = b)
  isUndefined _ := false
  isImpossible a := decide (a = 0)
  isUnbounded _ := false

instance : WeightScore ℕ where
  combine_eq _ _ := rfl
  pool_eq _ _ := rfl
  impossible_eq := rfl
  certain_eq := rfl
  isUndefined_eq _ := rfl

instance : ScoreText ℕ where
  plain := toString
  marked := toString

/-! ## Nonnegative fractions as weights -/

instance : Score ℚ≥0 where
  impossible := 0
  certain := 1
  combine := (· * ·)
  pool := (· + ·)
  exceeds a b := decide (b < a)
  clearlyExceeds a b := decide (b < a)
  ties a b := decide (a = b)
  isUndefined _ := false
  isImpossible a := decide (a = 0)
  isUnbounded _ := false

instance : Probability ℚ≥0 where
  none := 0
  add := (· + ·)
  isPositive a := decide (0 < a)

instance : Sharing ℚ≥0 ℚ≥0 where
  share := (· / ·)

instance : ShareScore ℚ≥0 where
  combine_eq _ _ := rfl
  pool_eq _ _ := rfl
  impossible_eq := rfl
  certain_eq := rfl
  isUndefined_eq _ := rfl
  exceeds_iff _ _ := decide_eq_true_iff
  isImpossible_iff _ := decide_eq_true_iff
  none_eq := rfl
  add_eq _ _ := rfl
  share_eq _ _ := rfl

instance : ScoreText ℚ≥0 where
  plain a := toString (a : ℚ)
  marked a := toString (a : ℚ)

end ChartParsing
