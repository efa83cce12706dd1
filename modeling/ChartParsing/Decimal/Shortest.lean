/-!
# The fewest digits that read back

A binary number in floating-point stands for an interval: the reals that are
nearer to it than to its neighbours, and the two ends of the interval where a
tie is rounded its way. Any decimal inside the interval reads back as the
number. `shortest` finds the one with the fewest digits, and of those the
nearest to the number.

The search goes through the grids of 1, 2, … digits. If a point of a grid lies
in the interval, so does one of the number's two neighbours on that grid,
because the interval holds the number; so only those two are tested, in exact
arithmetic on naturals. Seventeen digits always suffice for double precision.
-/

namespace ChartParsing.Decimal

/-- A finite double-precision number other than zero, without its sign:
`mantissa · 2 ^ exponent`. `tight` holds at a power of two, where the neighbour
below is only half as far away as the one above. -/
structure Binary where
  mantissa : Nat
  exponent : Int
  tight : Bool
  deriving DecidableEq

/-- The class of a double-precision number. -/
inductive Magnitude where
  | nan
  | infinite
  | zero
  | finite (value : Binary)
  deriving DecidableEq

/-- Reads the sign and the magnitude off the 64 bits of a double-precision
number. -/
def decode (bits : UInt64) : Bool × Magnitude :=
  let word : Nat := bits.toNat
  let negative := decide (word >>> 63 = 1)
  let biased : Nat := (word >>> 52) % 2048
  let fraction : Nat := word % (1 <<< 52)
  let magnitude : Magnitude :=
    if biased = 2047 then if fraction = 0 then .infinite else .nan
    else if biased = 0 then
      if fraction = 0 then .zero else .finite ⟨fraction, -1074, false⟩
    else .finite ⟨(1 <<< 52) + fraction, (biased : Int) - 1075, decide (fraction = 0 ∧ 1 < biased)⟩
  (negative, magnitude)

/-- A decimal: the digits, the first of them not zero, stand behind the point
and are scaled by `10 ^ exponent`. -/
structure Digits where
  digits : List Nat
  exponent : Int
  deriving DecidableEq

/-- Four times a binary number, and the ends of its interval, as quotients over
one denominator. -/
structure Interval where
  low : Nat
  value : Nat
  high : Nat
  denominator : Nat
  closed : Bool

/-- The interval of reals that read back as `b`. -/
def Binary.interval (b : Binary) : Interval :=
  let scale := 1 <<< b.exponent.toNat
  { low := (4 * b.mantissa - if b.tight then 1 else 2) * scale
    value := 4 * b.mantissa * scale
    high := (4 * b.mantissa + 2) * scale
    denominator := 4 <<< (-b.exponent).toNat
    closed := b.mantissa % 2 = 0 }

/-- The decimal `n · 10 ^ k` lies in the interval. -/
def Interval.holds (i : Interval) (n : Nat) (k : Int) : Bool :=
  let point := n * Nat.pow 10 k.toNat * i.denominator
  let scale := Nat.pow 10 (-k).toNat
  if i.closed then i.low * scale ≤ point && point ≤ i.high * scale
  else i.low * scale < point && point < i.high * scale

/-- The number of decimal digits of `n`. -/
def digitCount (n : Nat) : Nat := if n < 10 then 1 else digitCount (n / 10) + 1

/-- The exponent `e` with `10 ^ (e - 1) ≤ num / den < 10 ^ e`. -/
def decimalExponent (num den : Nat) : Int :=
  let guess : Int := (digitCount num : Int) - digitCount den
  if Nat.pow 10 (-guess).toNat * num < Nat.pow 10 guess.toNat * den then guess else guess + 1

/-- The point of the grid of multiples of `10 ^ k` that lies in the interval and
is nearest to its value, the upper one of two equally near. -/
def Interval.onGrid (i : Interval) (k : Int) : Option Nat :=
  let num := i.value * Nat.pow 10 (-k).toNat
  let den := i.denominator * Nat.pow 10 k.toNat
  let below := num / den
  let above := below + 1
  let lower := i.holds below k
  let upper := i.holds above k
  if lower && upper then
    if 2 * (num % den) < den then some below else some above
  else if lower then some below
  else if upper then some above
  else none

/-- The digits of a natural number, the first one not zero. -/
def digitsOf (n : Nat) : List Nat :=
  if n < 10 then [n] else digitsOf (n / 10) ++ [n % 10]

/-- Drops zeros at the end, which add nothing behind the point. -/
def dropTrailingZeros (digits : List Nat) : List Nat :=
  (digits.reverse.dropWhile (· = 0)).reverse

/-- Tries the grids of `count`, `count + 1`, … digits, `tries` of them. -/
def Interval.search (i : Interval) (exponent : Int) : (tries count : Nat) → Digits
  | 0, _ => ⟨[], exponent⟩
  | tries + 1, count =>
    let k := exponent - count
    match i.onGrid k with
    | some n => ⟨dropTrailingZeros (digitsOf n), digitCount n + k⟩
    | none => i.search exponent tries (count + 1)

/-- The decimal with the fewest digits that reads back as `b`, and of those the
nearest to it. -/
def shortest (b : Binary) : Digits :=
  let i := b.interval
  i.search (decimalExponent i.value i.denominator) 17 1

end ChartParsing.Decimal
