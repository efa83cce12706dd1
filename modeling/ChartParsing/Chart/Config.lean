import ChartParsing.Cell
import ChartParsing.Grammar.Index

/-!
# Configurations of charts

How a chart is to be filled: what its scores mean, how its cells are stored, and
how binary rules are found. Not every combination makes a chart, and not every
sentence can be parsed; `ChartError` says why.
-/

namespace ChartParsing

/-- How a chart is to be filled. -/
structure ChartConfig where
  aggregation : Aggregation
  cellType : CellType
  loopOrder : LoopOrder
  deriving DecidableEq

/-- Best derivations, dense cells, rules by their left child. -/
def ChartConfig.default : ChartConfig := ⟨.viterbi, .full, .leftChild⟩

/-- What is wrong with a configuration, or with a sentence. -/
inductive ChartError where
  | unsupportedCombination (cellType : CellType) (aggregation : Aggregation)
  | loopOrderNotIndexed (requested indexed : LoopOrder)
  | missingJitterSource
  | tokenOutOfRange (position token terminals : Nat)
  | notAnInsideChart (aggregation : Aggregation)
  deriving DecidableEq

/-- What an error says. -/
def ChartError.message : ChartError → String
  | .unsupportedCombination cellType aggregation =>
    s!"{cellType.name} cells do not support {aggregation.name} scores"
  | .loopOrderNotIndexed requested indexed =>
    s!"the chart needs binary rules indexed for {requested.name}, "
      ++ s!"but they are indexed for {indexed.name}"
  | .missingJitterSource => "tie-breaking cells need a jitter source"
  | .tokenOutOfRange position token terminals =>
    s!"token {token} at position {position} is outside the alphabet of {terminals} terminals"
  | .notAnInsideChart aggregation =>
    s!"outside scores need a chart of inside scores, not {aggregation.name}"

end ChartParsing
