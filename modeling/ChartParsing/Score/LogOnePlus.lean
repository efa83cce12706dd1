/-!
# The logarithm of one plus a weight

`logOnePlus x` is `log (1 + x)` for `x` in `[0, 1]`, the range of `exp d` for `d
≤ 0`. Computing `1 + x` first would lose the low digits of a small `x`, so the
work splits by size.

* Below `2 ^ -54` the result rounds to `x`, below `2 ^ -29` to `x - x² / 2`.
* Below `√2 - 1` the series is applied to `f = x` itself.
* Above, `1 + x` lies between `√2` and `2`. It is halved, the series is applied
  to `f = (1 + x) / 2 - 1`, `log 2` is added back, and what `1 + x` lost in
  rounding is put back as a correction.

The series is that of `log (1 + f) = 2 · artanh s` with `s = f / (2 + f)`: past
its first term it is `f - f²/2 + s · (f²/2 + R)` with `R` a polynomial of degree
seven in `z = s²` whose coefficients keep the error below one unit in the last
place. `log 2` is held in two parts, the high one short enough for its sum with
a small number to stay exact.
-/

namespace ChartParsing.LogOnePlus

/-- `log 2` to 33 bits. -/
def ln2High : Float := Float.ofBits 0x3fe62e42fee00000

/-- What `ln2High` leaves of `log 2`. -/
def ln2Low : Float := Float.ofBits 0x3dea39ef35793c76

/-- The coefficients of the series, from the first power of `z` to the seventh,
evaluated in four pairs. -/
def remainder (z : Float) : Float :=
  let c1 := Float.ofBits 0x3fe5555555555593
  let c2 := Float.ofBits 0x3fd999999997fa04
  let c3 := Float.ofBits 0x3fd2492494229359
  let c4 := Float.ofBits 0x3fcc71c51d8e78af
  let c5 := Float.ofBits 0x3fc7466496cb03de
  let c6 := Float.ofBits 0x3fc39a09d078c69f
  let c7 := Float.ofBits 0x3fc2f112df3e5244
  let r1 := z * c1
  let z2 := z * z
  let r2 := c2 + z * c3
  let z4 := z2 * z2
  let r3 := c4 + z * c5
  let z6 := z4 * z2
  let r4 := c6 + z * c7
  r1 + z2 * r2 + z4 * r3 + z6 * r4

/-- `log (1 + f)` for `f` between `√½ - 1` and `√2 - 1`. -/
def nearOne (f : Float) : Float :=
  let half := 0.5 * f * f
  let s := f / (2 + f)
  f - (half - s * (half + remainder (s * s)))

/-- `log (1 + x)` for `x` between `√2 - 1` and `1`, through half of `1 + x`. -/
def upper (x : Float) : Float :=
  let u := 1 + x
  let low := if u < 2 then (x - (u - 1)) / u else (1 - (u - x)) / u
  let f := 0.5 * u - 1
  let half := 0.5 * f * f
  if f == 0 then
    ln2High + (low + ln2Low)
  else if f.abs < Float.ofBits 0x3eb0000000000000 then
    let r := half * (1 - 0.66666666666666666 * f)
    ln2High - ((r - (ln2Low + low)) - f)
  else
    let s := f / (2 + f)
    ln2High - ((half - (s * (half + remainder (s * s)) + (ln2Low + low))) - f)

/-- `log (1 + x)` for `x` in `[0, 1]`. -/
def logOnePlus (x : Float) : Float :=
  if x.isNaN then x
  else if x < Float.ofBits 0x3c90000000000000 then x
  else if x < Float.ofBits 0x3e20000000000000 then x - x * x * 0.5
  else if x < Float.ofBits 0x3fda827a00000000 then nearOne x
  else upper x

end ChartParsing.LogOnePlus
