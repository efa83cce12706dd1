/-!
# Jitter

Ties are broken by chance: each contender draws a number in `[0, 1)`, and the
larger draw wins. A draw has 53 bits, so it is held as its numerator over `2 ^
53`, and draws compare as numbers.

A source hands out one draw after another. `Jitter` is a source that is
determined by a 64-bit seed: four words are mixed from the seed by a linear
congruential generator, and from then on stirred by shifts, rotations and
exclusive ors.
-/

namespace ChartParsing

/-- A draw in `[0, 1)`, as its numerator over `2 ^ 53`. -/
abbrev Draw := Nat

/-- A source of draws: the next draw, and the source after it. -/
class JitterSource (J : Type) where
  draw : J → Draw × J

/-- The state of a seeded source. -/
structure Jitter where
  s0 : UInt64
  s1 : UInt64
  s2 : UInt64
  s3 : UInt64
  deriving DecidableEq

namespace Jitter

/-- The bits of a word turned to the left. -/
def rotateLeft (x : UInt64) (amount : UInt64) : UInt64 := (x <<< amount) ||| (x >>> (64 - amount))

/-- The bits of a 32-bit word turned to the right. The amount is taken modulo
32. -/
def rotateRight (x : UInt32) (amount : UInt32) : UInt32 := (x >>> amount) ||| (x <<< (32 - amount))

/-- One step of the generator that seeds. -/
def seedStep (state : UInt64) : UInt64 := state * 6364136223846793005 + 11634580027462260723

/-- The 32 bits that the seeding generator gives out in a state. -/
def seedOutput (state : UInt64) : UInt32 :=
  rotateRight (((state >>> 18) ^^^ state) >>> 27).toUInt32 (state >>> 59).toUInt32

/-- The state after `n` steps of seeding. -/
def seedState (seed : UInt64) : (n : Nat) → UInt64
  | 0 => seed
  | n + 1 => seedStep (seedState seed n)

/-- Word number `i` of a seed: two outputs, the first one in the low half. -/
def seedWord (seed : UInt64) (i : Nat) : UInt64 :=
  (seedOutput (seedState seed (2 * i + 1))).toUInt64 |||
    ((seedOutput (seedState seed (2 * i + 2))).toUInt64 <<< 32)

/-- The source that a seed determines. -/
def ofSeed (seed : UInt64) : Jitter :=
  ⟨seedWord seed 0, seedWord seed 1, seedWord seed 2, seedWord seed 3⟩

/-- The word a source gives out next. -/
def word (j : Jitter) : UInt64 := rotateLeft (j.s0 + j.s3) 23 + j.s0

/-- The source after one word. -/
def next (j : Jitter) : Jitter :=
  let t := j.s1 <<< 17
  let s2 := j.s2 ^^^ j.s0
  let s3 := j.s3 ^^^ j.s1
  let s1 := j.s1 ^^^ s2
  let s0 := j.s0 ^^^ s3
  ⟨s0, s1, s2 ^^^ t, rotateLeft s3 45⟩

/-- The high 53 bits of the next word. -/
def draw (j : Jitter) : Draw × Jitter := ((j.word >>> 11).toNat, j.next)

instance : JitterSource Jitter := ⟨draw⟩

/-- So many draws in a row. -/
def draws (j : Jitter) : Nat → List Draw
  | 0 => []
  | n + 1 => j.draw.1 :: j.draw.2.draws n

/-- How a source is shown. Its state stays hidden. -/
def shown : String := "JitterSource \x7b .. \x7d"

end Jitter

/-- A draw as a floating-point number. -/
def Draw.toFloat (d : Draw) : Float := d.toUInt64.toFloat * Float.ofBits 0x3ca0000000000000

end ChartParsing
