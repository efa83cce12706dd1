import ChartParsing.Scorer

/-!
# Ready-made scorers

Besides the static scorer there is one that adds a linear function of the span
and its split to a rule's score, and one that looks places up in a table. The
table is searched in order, and an entry may leave parts of the place open.
-/

namespace ChartParsing

/-- The coefficients of a linear function of a place. -/
structure LinearTerm where
  constant : Float
  start : Float
  mid : Float
  stop : Float

/-- A position as a number, correctly rounded. -/
def positionFloat (position : Nat) : Float := position.toUInt64.toFloat

/-- A rule's score plus a linear function of the place, added up term by term.
-/
def Scorer.linear (t : LinearTerm) : Scorer Float :=
  ⟨fun rule start mid stop =>
    rule.score + t.constant + t.start * positionFloat start + t.mid * positionFloat mid
      + t.stop * positionFloat stop⟩

/-- The score of all places that agree with the parts given. -/
structure PlaceScore (S : Type) where
  rule : Option RuleId
  start : Option Nat
  mid : Option Nat
  stop : Option Nat
  score : S

/-- A part left open agrees with everything, any other only with itself. -/
def agrees {α : Type} [DecidableEq α] (part : Option α) (value : α) : Bool :=
  match part with
  | none => true
  | some x => x = value

/-- The entry covers the place. -/
def PlaceScore.covers {S : Type} (e : PlaceScore S) (rule : Rule S) (start mid stop : Nat) : Bool :=
  agrees e.rule rule.id && agrees e.start start && agrees e.mid mid && agrees e.stop stop

/-- The score of the first entry that covers the place, or else the rule's own.
-/
def Scorer.table {S : Type} (entries : List (PlaceScore S)) : Scorer S :=
  ⟨fun rule start mid stop =>
    match entries.find? (·.covers rule start mid stop) with
    | some e => e.score
    | none => rule.score⟩

end ChartParsing
