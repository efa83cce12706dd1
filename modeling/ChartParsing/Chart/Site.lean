import ChartParsing.Constraint
import ChartParsing.Run
import ChartParsing.Scorer

/-!
# Cells in their place

A site is a cell at the span it belongs to. A cell that is made under a constraint
is made with a filter: an offer reaches it only if the constraint accepts the offer
for that span. A closed cell is at fault for any offer, accepted or not.

An `Application` is a rule that applies over a span, with the score of the
children it combines. Its own score comes from a scorer.
-/

namespace ChartParsing

/-- A cell, its span, and which constraint filters its offers. Constraints are known
by their numbers, as they are shared and told of sentences later on. -/
structure Site (S : Type) where
  start : Nat
  stop : Nat
  cell : Cell S
  filter : Option Nat

/-- A rule to be applied with a split at `mid`. `children` is the combined score
of the children, none for a lexical rule. -/
structure Application (S : Type) where
  rule : Rule S
  mid : Nat
  children : Option S

variable {S C J : Type}

/-- The score of an application over a span. -/
def Application.score [Score S] (a : Application S) (scorer : Scorer S) (start stop : Nat) : S :=
  let score := scorer.score a.rule start a.mid stop
  match a.children with
  | some children => Score.combine children score
  | none => score

namespace Site

/-- Asks the constraint, where there is one, whether an offer may enter. -/
def consult [CellConstraint C S] (site : Site S) (constraint : Option C) (o : Offer S) :
    Effect J S Bool :=
  match constraint with
  | none => return true
  | some constraint => do
    let accepted ← (CellConstraint.accepts constraint site.start site.stop o.mid o.rule o.score :
      Except Fault Bool)
    Effect.emit (.consulted site.start site.stop o.mid o.rule.id o.score accepted)
    return accepted

variable [Score S] [CellConstraint C S] [JitterSource J]

/-- Takes an offer that the constraint accepts, and drops any other. -/
def offer (site : Site S) (constraint : Option C) (o : Offer S) : Effect J S (Site S) := do
  if ← site.consult constraint o then
    return { site with cell := ← Effect.offer site.cell o }
  else if site.cell.isClosed then
    throw .closedCell
  else
    return site

/-- Scores an application and offers the result. -/
def apply (scorer : Scorer S) (constraint : Option C) (site : Site S) (a : Application S) :
    Effect J S (Site S) := do
  Effect.emit (.scored a.rule.id site.start a.mid site.stop)
  site.offer constraint ⟨a.mid, a.rule, a.score scorer site.start site.stop⟩

/-- Makes several applications in order. -/
def applyAll (scorer : Scorer S) (constraint : Option C) (site : Site S)
    (applications : List (Application S)) : Effect J S (Site S) :=
  applications.foldlM (Site.apply scorer constraint) site

/-- Closes the cell. -/
def close (site : Site S) : Site S := { site with cell := site.cell.close }

/-- Empties and reopens the cell. -/
def reset (site : Site S) : Site S := { site with cell := site.cell.reset }

end Site

end ChartParsing
