/-!
# Faults

A fault is a broken promise of the caller: a closed cell updated, a span that is
no span of the chart, a number past the end of a table, a table too large to be
addressed. An operation that meets
one stops there and changes nothing. Faults differ from the errors that grammars
and charts report about their input, which are types of their own.
-/

namespace ChartParsing

/-- The part of a binary rule that an index of binary rules is keyed by. -/
inductive BinaryKey where
  | pair
  | leftChild
  | rightChild
  deriving DecidableEq

/-- The name of a key in messages. -/
def BinaryKey.name : BinaryKey → String
  | .pair => "pair"
  | .leftChild => "left child"
  | .rightChild => "right child"

/-- Why an operation stopped. -/
inductive Fault where
  /-- An update was offered to a cell that is closed. -/
  | closedCell
  /-- The symbols of a cell were asked for before it was closed. -/
  | openCell
  /-- The chart has no room for the span. -/
  | spanOutsideChart
  /-- The span is not one of the current sentence. -/
  | spanOutsideSentence (start stop tokens : Nat)
  /-- The cell of the span is out of the chart, to be filled. -/
  | cellBeingFilled
  /-- Binary rules were looked up by a key they are not indexed by. -/
  | notIndexedBy (key : BinaryKey)
  /-- A right-hand side was added before any left-hand side was chosen. -/
  | missingLhs
  /-- An undefined score was offered to a cell that has no room for one. -/
  | undefinedScore
  /-- A table has no slot at the given position. -/
  | noSlot
  /-- A position does not fit a 64-bit word. -/
  | positionOverflow
  /-- The width of a span was needed that ends before it starts. -/
  | reversedSpan
  /-- A table has more slots than can be addressed. -/
  | tableTooLarge
  deriving DecidableEq

/-- What a fault says. Faults without a message of their own say nothing. -/
def Fault.message : Fault → Option String
  | .closedCell => some "update of a closed chart cell"
  | .openCell => some "symbol list of an open chart cell"
  | .spanOutsideChart => some "span out of the chart"
  | .spanOutsideSentence start stop tokens =>
    some s!"span [{start}, {stop}) is not within a sentence of {tokens} tokens"
  | .cellBeingFilled => some "chart cell is being filled"
  | .notIndexedBy key => some s!"binary rules are not indexed by {key.name}"
  | .missingLhs => some "rule builder: LHS must be set with `rule` first"
  | .undefinedScore => none
  | .noSlot => none
  | .positionOverflow => none
  | .reversedSpan => none
  | .tableTooLarge => none

end ChartParsing
