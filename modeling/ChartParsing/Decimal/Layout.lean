import ChartParsing.Decimal.Shortest
import ChartParsing.Score

/-!
# Written scores

A score is written with the fewest digits that read back. What remains to be
said is where the point goes, and a `Layout` says it: whether whole numbers keep
a fraction, and from which sizes on an exponent takes the place of leading or
trailing zeros.

Messages use `plain`, which never writes an exponent. Records of optional scores
use `marked`.
-/

namespace ChartParsing.Decimal

/-- How a decimal is laid out. -/
structure Layout where
  /-- Whole numbers are written with the fraction `.0`. -/
  keepsFraction : Bool
  /-- The least and the greatest exponent written positionally, for digits that
  stand behind the point. Without bounds everything is. -/
  positional : Option (Int × Int)

/-- Always positional, and whole numbers without a fraction: `-3`, `0.1`,
`10000000000000000`. -/
def Layout.plain : Layout := ⟨false, none⟩

/-- Positional from `0.0001` up to below `10 ^ 16`, and never without a fraction
or an exponent: `-3.0`, `0.1`, `1e16`, `1e-5`. -/
def Layout.marked : Layout := ⟨true, some (-3, 16)⟩

/-- A digit as a character. -/
def digitChar (d : Nat) : Char := Char.ofNat ('0'.toNat + d)

/-- Digits as text. -/
def digitText (digits : List Nat) : String := String.ofList (digits.map digitChar)

/-- So many zeros. -/
def zeros (count : Nat) : String := String.ofList (List.replicate count '0')

/-- The digits with the point at its place. -/
def positionalText (keepsFraction : Bool) (d : Digits) : String :=
  if d.exponent ≤ 0 then
    "0." ++ zeros (-d.exponent).toNat ++ digitText d.digits
  else
    let whole := d.exponent.toNat
    if whole < d.digits.length then
      digitText (d.digits.take whole) ++ "." ++ digitText (d.digits.drop whole)
    else
      digitText d.digits ++ zeros (whole - d.digits.length) ++ if keepsFraction then ".0" else ""

/-- The digits with the point behind the first of them, and the exponent of that
form. -/
def exponentText (d : Digits) : String :=
  let head := digitText (d.digits.take 1)
  let tail := digitText (d.digits.drop 1)
  let point := if d.digits.length ≤ 1 then "" else "."
  head ++ point ++ tail ++ "e" ++ toString (d.exponent - 1)

/-- A decimal without its sign. -/
def Layout.digits (l : Layout) (d : Digits) : String :=
  match l.positional with
  | some (least, greatest) =>
    if least ≤ d.exponent && d.exponent ≤ greatest then positionalText l.keepsFraction d
    else exponentText d
  | none => positionalText l.keepsFraction d

/-- A double-precision number. Zero and infinity keep their sign. -/
def Layout.text (l : Layout) (x : Float) : String :=
  let (negative, magnitude) := decode x.toBits
  let sign := if negative then "-" else ""
  match magnitude with
  | .nan => "NaN"
  | .infinite => sign ++ "inf"
  | .zero => sign ++ if l.keepsFraction then "0.0" else "0"
  | .finite b => sign ++ l.digits (shortest b)

end ChartParsing.Decimal

namespace ChartParsing

instance : ScoreText Float where
  plain := Decimal.Layout.plain.text
  marked := Decimal.Layout.marked.text

end ChartParsing
