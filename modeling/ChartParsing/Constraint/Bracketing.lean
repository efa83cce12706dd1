import ChartParsing.Constraint
import ChartParsing.Constraint.BitStorage
import ChartParsing.Span

/-!
# Bracketings

A bracketing forbids spans, such as those that cross the brackets of a known
partial analysis. No derivation of any kind may enter the chart over a forbidden
span. Two spans cross if they overlap and neither contains the other.

The forbidden spans are kept for sentences up to some length, and room is made
for more when a longer sentence is announced. They are bits in storage of any kind,
with a row and a column for each gap between tokens.
-/

namespace ChartParsing

/-- The forbidden spans, and the length of the sentence last announced. -/
structure Bracketing (M : Type) where
  forbidden : M
  sentenceLength : Nat

namespace Bracketing

open BitStorage

variable {M : Type} [BitStorage M]

/-- Room for sentences of up to `maxLength` tokens, with no span forbidden.
Refuses a length that there can be no room for. -/
def empty? (maxLength : Nat) : Except Fault (Bracketing M) := do
  return ⟨← zero? (maxLength + 1) (maxLength + 1), 0⟩

/-- The span from `start` to `stop` and a bracket overlap, and neither contains
the other. -/
def crosses (start stop : Nat) (bracket : Nat × Nat) : Bool :=
  let (first, last) := bracket
  (start < first && first < stop && stop < last) ||
    (first < start && start < last && last < stop)

/-- Forbids a span. -/
def forbid (b : Bracketing M) (start stop : Nat) : Except Fault (Bracketing M) := do
  return { b with forbidden := ← set? b.forbidden start stop }

/-- Forbids several spans, one after another. -/
def forbidAll (b : Bracketing M) (spans : List (Nat × Nat)) : Except Fault (Bracketing M) :=
  spans.foldlM (fun b (start, stop) => b.forbid start stop) b

/-- Room for sentences of up to `maxLength` tokens, with every span forbidden
that crosses one of the brackets. -/
def ofBrackets? (maxLength : Nat) (brackets : List (Nat × Nat)) :
    Except Fault (Bracketing M) := do
  (Span.all maxLength).foldlM (fun b (start, stop) =>
    if brackets.any (crosses start stop) then b.forbid start stop else pure b)
    (← empty? maxLength)

/-- The span is forbidden. -/
def isForbidden (b : Bracketing M) (start stop : Nat) : Bool :=
  start < rows b.forbidden && stop < columns b.forbidden && get b.forbidden start stop

/-- The forbidden spans with both ends at most `limit`, by start, then by end.
-/
def forbiddenSpans (b : Bracketing M) (limit : Nat) : List (Nat × Nat) :=
  (List.range (limit + 1)).flatMap fun start =>
    ((List.range (limit + 1)).filter (b.isForbidden start)).map fun stop => (start, stop)

/-- The bits of a matrix in a larger one with `side` rows and columns, all else off. Refuses
a side that there can be no room for. -/
def grow (m : M) (side : Nat) : Except Fault M := do
  (List.range (rows m)).foldlM (fun grown row =>
    (List.range (rows m)).foldlM (fun grown column =>
      if get m row column then set? grown row column else pure grown) grown)
    (← zero? side side)

/-- Takes note of a sentence, and makes room if it is longer than any before. -/
def announce (b : Bracketing M) (sentence : List Symbol) : Except Fault (Bracketing M) := do
  let side := sentence.length + 1
  let forbidden ← if rows b.forbidden < side then grow b.forbidden side else pure b.forbidden
  return ⟨forbidden, sentence.length⟩

instance {S : Type} : CellConstraint (Bracketing M) S where
  announce := announce
  accepts b start stop _ _ _ := .ok (!b.isForbidden start stop)

end Bracketing

end ChartParsing
