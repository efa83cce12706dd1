import ChartParsing.Rule

/-!
# Scorers

A scorer says what applying a rule from `start` to `stop` with a split at `mid`
scores, so that scores may depend on where in the sentence a rule applies. A
lexical rule is split at its start, a unary rule at its end. By default a rule
scores the same everywhere.
-/

namespace ChartParsing

/-- The score of a rule at a place. -/
structure Scorer (S : Type) where
  score : (rule : Rule S) → (start mid stop : Nat) → S

/-- Every rule scores its own score. -/
def Scorer.static {S : Type} : Scorer S := ⟨fun rule _ _ _ => rule.score⟩

end ChartParsing
