import ChartParsing.Chart.BestTree
import ChartParsing.Posterior.OutsidePass

/-!
# Parsers

A parser is a chart and a scorer. It parses one sentence at a time and answers
for it: with the filled chart, with the best derivation, or with inside and
outside scores. The chart keeps the sentence last parsed, also when the answer
cannot be given.
-/

namespace ChartParsing

/-- A chart and the scorer to fill it with. -/
structure Parser (S C : Type) where
  chart : Chart S C
  scorer : Scorer S

namespace Parser

variable {S P C J : Type} [Score S] [ScoreText S]

/-- A parser whose rules score the same everywhere. -/
def create (grammar : Grammar S) (config : ChartConfig) (hasJitter : Bool) :
    Except ChartError (Parser S C) := do
  return ⟨← Chart.create grammar config hasJitter, .static⟩

/-- The parser with another scorer. -/
def withScorer (parser : Parser S C) (scorer : Scorer S) : Parser S C := { parser with scorer }

/-- What the scorer says of a rule at a place. -/
def scoreRule (parser : Parser S C) (id : RuleId) (start mid stop : Nat) : Effect J S S := do
  let rule ← (parser.chart.grammar.rule id : Except Fault (Rule S))
  Effect.emit (.scored rule.id start mid stop)
  return parser.scorer.score rule start mid stop

variable [CellConstraint C S] [JitterSource J]

/-- Fills the chart for a sentence. -/
def parse (parser : Parser S C) (sentence : List Symbol) :
    Effect J S (Except ChartError (Parser S C)) := do
  match ← parser.chart.parse sentence parser.scorer with
  | .error e => return .error e
  | .ok chart => return .ok { parser with chart }

/-- The best derivation of a sentence, if it has any. -/
def viterbiParse? (parser : Parser S C) (sentence : List Symbol) :
    Effect J S (Except ChartError (Parser S C × Option (ViterbiParse S))) := do
  match ← parser.parse sentence with
  | .error e => return .error e
  | .ok parser => return .ok (parser, ← (parser.chart.viterbiParse? : Except Fault _))

/-- Inside and outside scores of a sentence. The parser after it comes with the
answer, also if the chart does not hold inside scores. -/
def posterior [Probability P] [Sharing S P] [ScoreText P] (parser : Parser S C)
    (sentence : List Symbol) :
    Effect J S (Parser S C × Except ChartError (Posterior S P)) := do
  match ← parser.parse sentence with
  | .error e => return (parser, .error e)
  | .ok parser => return (parser, ← Posterior.ofChart parser.chart parser.scorer)

end Parser

end ChartParsing
