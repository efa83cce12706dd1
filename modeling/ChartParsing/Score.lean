/-!
# Scores

Parsing combines scores and compares them, and asks nothing else of them.
`Score` lists those operations without any law, so that one chart serves
floating-point log probabilities, exact weights and any other domain; laws are
stated where a property needs them.

In every domain the scores of the parts of one derivation are combined.
Alternative derivations are aggregated in one of two ways: the best score
counts, or all scores are pooled.

`Sharing` says how a score becomes a share of a total, and `Probability` how
shares are added up.
-/

namespace ChartParsing

/-- What parsing asks of scores. -/
class Score (S : Type) where
  /-- The score of what cannot be derived. -/
  impossible : S
  /-- The score of what needs no rule. -/
  certain : S
  /-- The score of a derivation from the scores of two of its parts. -/
  combine : S → S → S
  /-- The joint score of two alternatives. -/
  pool : S → S → S
  /-- The first score is strictly better than the second. -/
  exceeds : S → S → Bool
  /-- The first score is better than the second by more than the tolerance for
  ties. -/
  clearlyExceeds : S → S → Bool
  /-- The two scores differ by no more than the tolerance for ties. -/
  ties : S → S → Bool
  /-- The score is not a number. -/
  isUndefined : S → Bool
  /-- The score is that of what cannot be derived. -/
  isImpossible : S → Bool
  /-- The score is plus infinity. -/
  isUnbounded : S → Bool

/-- Shares of a total, which are added up. -/
class Probability (P : Type) where
  /-- No share at all. -/
  none : P
  /-- Two shares together. -/
  add : P → P → P
  /-- The share is more than none. -/
  isPositive : P → Bool

/-- How the share of a total is read off two scores. -/
class Sharing (S : Type) (P : outParam Type) where
  /-- The share of a total that a score makes up. -/
  share : (score total : S) → P

/-- How scores are written. -/
class ScoreText (S : Type) where
  /-- The shortest decimal that reads back, always positional. -/
  plain : S → String
  /-- The same with a mark of its kind: a fraction even on whole numbers, an
  exponent on very small and very large ones. -/
  marked : S → String

/-- How alternative derivations of one symbol over one span are aggregated. -/
inductive Aggregation where
  /-- The best derivation counts. -/
  | viterbi
  /-- All derivations are pooled. -/
  | inside
  deriving DecidableEq, Inhabited

namespace Aggregation

variable {S : Type} [Score S]

/-- The name of an aggregation in messages. -/
def name : Aggregation → String
  | .viterbi => "Viterbi"
  | .inside => "Inside"

/-- The aggregation of a name. -/
def ofName? (text : String) : Option Aggregation :=
  [viterbi, inside].find? (·.name = text)

/-- The score of no alternative at all. -/
def zero (_ : Aggregation) : S := Score.impossible

/-- The score of the empty combination. -/
def one (_ : Aggregation) : S := Score.certain

/-- The better of two scores, and the second if neither exceeds the other. An
undefined score loses against any other. -/
def better (a b : S) : S :=
  if Score.exceeds a b || Score.isUndefined b then a else b

/-- Aggregates two alternatives. -/
def plus : Aggregation → S → S → S
  | .viterbi => better
  | .inside => Score.pool

/-- Combines two parts of one derivation. -/
def times (_ : Aggregation) : S → S → S := Score.combine

end Aggregation

end ChartParsing
