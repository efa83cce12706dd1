import ChartParsing.Score

/-!
# Log scores

A log score stands for the weight `exp a`. Weights are multiplied by adding
their logarithms, and added by `logAdd`, which never leaves the logarithmic
scale: the larger logarithm is kept and the smaller one enters through the
difference alone, so that nothing overflows.

`LogNumber` lists the arithmetic this takes, for any kind of number.
`Score.ofLogNumber` reads such numbers as scores; two of them are tied when they
differ by no more than `tieTolerance`.
-/

namespace ChartParsing

/-- Numbers on a logarithmic scale that reaches down to minus infinity. -/
class LogNumber (S : Type) where
  negInfinity : S
  zero : S
  add : S → S → S
  sub : S → S → S
  abs : S → S
  exp : S → S
  /-- The logarithm of one plus the argument. -/
  logOnePlus : S → S
  lt : S → S → Bool
  le : S → S → Bool
  isNegInfinity : S → Bool
  isPosInfinity : S → Bool
  isNaN : S → Bool
  /-- Scores no further apart than this are tied. -/
  tieTolerance : S

variable {S : Type} [LogNumber S]

open LogNumber

/-- `log (exp a + exp b)`. -/
def logAdd (a b : S) : S :=
  let (hi, lo) := if le b a then (a, b) else (b, a)
  if isNegInfinity lo then hi else add hi (logOnePlus (exp (sub lo hi)))

/-- Log scores: impossible is `log 0`, certain is `log 1`, parts are combined by
addition and alternatives pooled by `logAdd`. -/
@[reducible]
def Score.ofLogNumber : Score S where
  impossible := negInfinity
  certain := zero
  combine := add
  pool := logAdd
  exceeds a b := lt b a
  clearlyExceeds a b := lt (add b tieTolerance) a
  ties a b := le (abs (sub a b)) tieTolerance
  isUndefined := isNaN
  isImpossible := isNegInfinity
  isUnbounded := isPosInfinity

end ChartParsing
