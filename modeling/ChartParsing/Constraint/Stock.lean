import ChartParsing.Constraint.BitMatrix
import ChartParsing.Constraint.Bracketing
import ChartParsing.Score.LogNumber

/-!
# Ready-made constraints

Some predicates on derivations, and constraints that are one of them or a
bracketing. Predicates on widths have no answer where a span is reversed.
-/

namespace ChartParsing

/-- A predicate on derivations. -/
inductive CellTest (S : Type) where
  | all
  | none
  /-- The split is at an even position. -/
  | evenMid
  /-- Binary rules split at an even position. -/
  | evenMidBinary
  /-- Binary rules split at an even position if the span has more than two
  tokens. -/
  | evenWide
  /-- Binary rules have no more tokens on the left than on the right. -/
  | balanced
  /-- Unary rules are out. -/
  | noUnary
  /-- The score is at least this. -/
  | minScore (least : S)
  /-- The span has at most so many tokens. -/
  | maxWidth (most : Nat)
  /-- These rules are out. -/
  | notRules (rules : List RuleId)

/-- What a predicate says of a derivation. -/
def CellTest.accepts {S : Type} [LogNumber S] (start stop mid : Nat) (rule : Rule S) (score : S) :
    CellTest S → Except Fault Bool
  | .all => .ok true
  | .none => .ok false
  | .evenMid => .ok (mid % 2 = 0)
  | .evenMidBinary => .ok (!rule.isBinary || mid % 2 = 0)
  | .evenWide =>
    if rule.isBinary then do return (← Span.width? start stop) ≤ 2 || mid % 2 = 0
    else .ok true
  | .balanced =>
    if rule.isBinary then do return (← Span.width? start mid) ≤ (← Span.width? mid stop)
    else .ok true
  | .noUnary => .ok (!rule.isUnary)
  | .minScore least => .ok (LogNumber.le least score)
  | .maxWidth most => do return (← Span.width? start stop) ≤ most
  | .notRules rules => .ok (!rules.contains rule.id)

/-- A bracketing or a predicate. -/
inductive StockConstraint (S : Type) where
  | bracketing (b : Bracketing BitMatrix)
  | test (t : CellTest S)

namespace StockConstraint

variable {S : Type} [LogNumber S]

instance : CellConstraint (StockConstraint S) S where
  announce
    | .bracketing b, sentence => do return .bracketing (← b.announce sentence)
    | .test t, _ => .ok (.test t)
  accepts
    | .bracketing b, start, stop, mid, rule, score =>
      CellConstraint.accepts b start stop mid rule score
    | .test t, start, stop, mid, rule, score => t.accepts start stop mid rule score

/-- Forbids a span, if the constraint is a bracketing. -/
def forbid (c : StockConstraint S) (start stop : Nat) : Except Fault (StockConstraint S) :=
  match c with
  | .bracketing b => do return .bracketing (← b.forbid start stop)
  | .test t => .ok (.test t)

end StockConstraint

end ChartParsing
