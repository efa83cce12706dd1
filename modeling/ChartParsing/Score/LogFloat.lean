import ChartParsing.Score.LogNumber
import ChartParsing.Score.LogOnePlus

/-!
# Floating-point log scores

Double-precision numbers as log scores, and double-precision shares of a total.
Ties are kept within `1e-13`.
-/

namespace ChartParsing

/-- Minus infinity. -/
def LogFloat.negInfinity : Float := Float.ofBits 0xfff0000000000000

/-- Plus infinity. -/
def LogFloat.posInfinity : Float := Float.ofBits 0x7ff0000000000000

instance : LogNumber Float where
  negInfinity := LogFloat.negInfinity
  zero := 0
  add a b := a + b
  sub a b := a - b
  abs := Float.abs
  exp := Float.exp
  logOnePlus := LogOnePlus.logOnePlus
  lt a b := a < b
  le a b := a ≤ b
  isNegInfinity a := a == LogFloat.negInfinity
  isPosInfinity a := a == LogFloat.posInfinity
  isNaN := Float.isNaN
  tieTolerance := 1e-13

instance : Score Float := Score.ofLogNumber

instance : Sharing Float Float where
  share score total := (score - total).exp

instance : Probability Float where
  none := 0
  add a b := a + b
  isPositive a := 0 < a

end ChartParsing
