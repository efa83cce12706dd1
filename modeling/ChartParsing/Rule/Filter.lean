import ChartParsing.Rule
import ChartParsing.Score.LogNumber

/-!
# Tests of rules

Ready-made tests for picking rules out of a list.
-/

namespace ChartParsing

/-- A test of rules. -/
inductive RuleFilter (S : Type) where
  | lexical
  | unary
  | binary
  /-- The score is at least this. -/
  | minScore (least : S)
  /-- The left-hand side is this. -/
  | parent (sym : Symbol)

/-- The rule passes the test. -/
def RuleFilter.keeps {S : Type} [LogNumber S] (rule : Rule S) : RuleFilter S → Bool
  | .lexical => rule.isLexical
  | .unary => rule.isUnary
  | .binary => rule.isBinary
  | .minScore least => LogNumber.le least rule.score
  | .parent sym => rule.parent = sym

end ChartParsing
