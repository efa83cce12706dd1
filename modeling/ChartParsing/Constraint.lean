import ChartParsing.Fault
import ChartParsing.Rule

/-!
# Constraints

A constraint decides which derivations may enter a chart. It is asked before
every offer to a cell, and it is told each sentence before the sentence is
parsed, so that it can make room for it. A constraint that cannot make room is at
fault, and so is one that has no answer for a derivation, which is not offered then.

The simplest constraint is a predicate on the span, the split, the rule and the
score.
-/

namespace ChartParsing

/-- Constraints of type `C` on derivations with scores in `S`. -/
class CellConstraint (C S : Type) where
  /-- The constraint once it has been told the next sentence. -/
  announce : C → List Symbol → Except Fault C
  /-- Whether a derivation of `rule.parent` from `start` to `stop`, split at
  `mid`, may enter the chart with the score. -/
  accepts : C → (start stop mid : Nat) → (rule : Rule S) → (score : S) → Except Fault Bool

/-- A test of derivations by span, split, rule and score. It has an answer for
every derivation. -/
structure CellPredicate (S : Type) where
  test : (start stop mid : Nat) → (rule : Rule S) → (score : S) → Bool

instance {S : Type} : CellConstraint (CellPredicate S) S where
  announce p _ := .ok p
  accepts p start stop mid rule score := .ok (p.test start stop mid rule score)

@[simp]
theorem CellPredicate.accepts_eq {S : Type} (p : CellPredicate S) (start stop mid : Nat)
    (rule : Rule S) (score : S) :
    CellConstraint.accepts p start stop mid rule score = .ok (p.test start stop mid rule score) :=
  rfl

end ChartParsing
