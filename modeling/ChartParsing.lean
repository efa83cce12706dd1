import ChartParsing.Constraint.Stock
import ChartParsing.Decimal.Layout
import ChartParsing.Grammar.Draft
import ChartParsing.Parser
import ChartParsing.Proofs.Alphabet
import ChartParsing.Proofs.Cell.Answers
import ChartParsing.Proofs.Cell.BestScore
import ChartParsing.Proofs.Cell.Calls
import ChartParsing.Proofs.Cell.Contest
import ChartParsing.Proofs.Cell.Fairness
import ChartParsing.Proofs.Cell.FirstBest
import ChartParsing.Proofs.Cell.Gather
import ChartParsing.Proofs.Cell.History
import ChartParsing.Proofs.Cell.Serving
import ChartParsing.Proofs.Cell.Slots
import ChartParsing.Proofs.Cell.Store
import ChartParsing.Proofs.Cell.Tolerance
import ChartParsing.Proofs.Cell.Touched
import ChartParsing.Proofs.Cell.Twin
import ChartParsing.Proofs.Chart.Answers
import ChartParsing.Proofs.Chart.Applying
import ChartParsing.Proofs.Chart.Asking
import ChartParsing.Proofs.Chart.Filled
import ChartParsing.Proofs.Chart.Finding
import ChartParsing.Proofs.Chart.OneCell
import ChartParsing.Proofs.Chart.Parsing
import ChartParsing.Proofs.Chart.Representation
import ChartParsing.Proofs.Chart.Reuse
import ChartParsing.Proofs.Chart.Safety
import ChartParsing.Proofs.Chart.Sites
import ChartParsing.Proofs.Chart.Soundness
import ChartParsing.Proofs.Chart.State
import ChartParsing.Proofs.Chart.Supported
import ChartParsing.Proofs.Chart.Sweep
import ChartParsing.Proofs.Chart.Taking
import ChartParsing.Proofs.Chart.Triangle
import ChartParsing.Proofs.Chart.Twin
import ChartParsing.Proofs.Constraint.BitStorage
import ChartParsing.Proofs.Constraint.Bracketing
import ChartParsing.Proofs.Derivation
import ChartParsing.Proofs.Derivation.Constituents
import ChartParsing.Proofs.Derivation.Listing
import ChartParsing.Proofs.Derivation.Tree
import ChartParsing.Proofs.Grammar.Accepted
import ChartParsing.Proofs.Grammar.Edits
import ChartParsing.Proofs.Grammar.Filed
import ChartParsing.Proofs.Grammar.InPlace
import ChartParsing.Proofs.Grammar.Lookup
import ChartParsing.Proofs.Grammar.Rules
import ChartParsing.Proofs.Grammar.UnaryCycle
import ChartParsing.Proofs.Grammar.UnaryOrder
import ChartParsing.Proofs.Grammar.Validation
import ChartParsing.Proofs.Inside.Correctness
import ChartParsing.Proofs.Inside.LogProbabilities
import ChartParsing.Proofs.Inside.Recurrence
import ChartParsing.Proofs.Lockstep
import ChartParsing.Proofs.LoopOrder.Agreement
import ChartParsing.Proofs.LoopOrder.Gathering
import ChartParsing.Proofs.LoopOrder.Scores
import ChartParsing.Proofs.Outcome
import ChartParsing.Proofs.Outside.Alike
import ChartParsing.Proofs.Outside.Duality
import ChartParsing.Proofs.Outside.Enumeration
import ChartParsing.Proofs.Outside.Marked
import ChartParsing.Proofs.Outside.Order
import ChartParsing.Proofs.Outside.Pass
import ChartParsing.Proofs.Outside.Posteriors
import ChartParsing.Proofs.Outside.Reached
import ChartParsing.Proofs.Outside.Rejected
import ChartParsing.Proofs.Outside.Returns
import ChartParsing.Proofs.Outside.Splits
import ChartParsing.Proofs.Outside.Start
import ChartParsing.Proofs.Outside.Table
import ChartParsing.Proofs.Outside.Tokens
import ChartParsing.Proofs.Outside.Updates
import ChartParsing.Proofs.Removal.Charts
import ChartParsing.Proofs.Removal.Rules
import ChartParsing.Proofs.Removal.Scores
import ChartParsing.Proofs.Score.Exact
import ChartParsing.Proofs.Score.Laws
import ChartParsing.Proofs.Score.Pooling
import ChartParsing.Proofs.Score.Real
import ChartParsing.Proofs.Span
import ChartParsing.Proofs.Step
import ChartParsing.Proofs.Tree.Bracketed
import ChartParsing.Proofs.Tree.Walks
import ChartParsing.Proofs.Viterbi.BestTree
import ChartParsing.Proofs.Viterbi.Optimality
import ChartParsing.Proofs.Viterbi.Pointers
import ChartParsing.Proofs.Viterbi.Ties
import ChartParsing.Rule.Filter
import ChartParsing.Score.LogFloat
import ChartParsing.Scorer.Stock
