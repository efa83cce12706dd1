import ChartParsing.Chart.SpanTable
import ChartParsing.LogLine
import ChartParsing.Score

/-!
# Posteriors

The inside score of a symbol over a span pools its derivations. Its outside
score pools everything around them: the derivations of the sentence from the
root with that one constituent left out. Together they make up the share of all
derivations that have the constituent, its marginal.

A `Posterior` is a table of both, with the outside scores of the tokens and the
expected number of applications of every rule. It answers questions about one
sentence.
-/

namespace ChartParsing

/-- Inside and outside scores of a sentence, and what follows from them. -/
structure Posterior (S P : Type) where
  tokens : Nat
  nonterminals : Nat
  root : Symbol
  /-- The pooled score of all derivations of the sentence, if it has any. -/
  logZ : Option S
  inside : SpanTable S
  outside : SpanTable S
  /-- The outside score of every token. -/
  terminalOutside : Array S
  /-- The expected number of applications of every rule. -/
  ruleCounts : Array P

namespace Posterior

variable {S P : Type} [Score S] [Probability P] [Sharing S P]

/-- The total, if it is more than impossible. -/
def total? (p : Posterior S P) : Option S :=
  match p.logZ with
  | some logZ => if Score.exceeds logZ Score.impossible then some logZ else none
  | none => none

/-- A value of a table over a span of the sentence. Symbols outside the alphabet
cannot be derived. -/
def entry (p : Posterior S P) (table : SpanTable S) (sym : Symbol) (start stop : Nat) :
    Except Fault S :=
  if start < stop ∧ stop ≤ p.tokens then
    if p.nonterminals ≤ sym.index then .ok Score.impossible else table.get sym start stop
  else .error (.spanOutsideSentence start stop p.tokens)

/-- The pooled score of the derivations of a symbol over a span. -/
def insideScore (p : Posterior S P) (sym : Symbol) (start stop : Nat) : Except Fault S :=
  p.entry p.inside sym start stop

/-- The pooled score of what is around a symbol over a span. -/
def outsideScore (p : Posterior S P) (sym : Symbol) (start stop : Nat) : Except Fault S :=
  p.entry p.outside sym start stop

/-- The outside score of the token at a position. -/
def terminalOutsideScore (p : Posterior S P) (position : Nat) : Except Fault S :=
  match p.terminalOutside[position]? with
  | some score => .ok score
  | none => .error .noSlot

/-- The share of derivations in which a symbol spans `start` to `stop`. Without
a derivation there is none, whatever the span. -/
def marginal (p : Posterior S P) (sym : Symbol) (start stop : Nat) : Except Fault P :=
  match p.total? with
  | none => .ok Probability.none
  | some total => do
    let joint := Score.combine (← p.insideScore sym start stop) (← p.outsideScore sym start stop)
    if Score.isImpossible joint then return Probability.none
    else return Sharing.share joint total

/-- The symbols with a positive marginal over a span, with their marginals. -/
def spanMarginals (p : Posterior S P) (start stop : Nat) : Except Fault (List (Symbol × P)) := do
  let all ← ((List.range p.nonterminals).map Symbol.ofNat).mapM fun sym => do
    return (sym, ← p.marginal sym start stop)
  return all.filter fun (_, marginal) => Probability.isPositive marginal

/-- The expected number of applications of a rule. -/
def ruleCount (p : Posterior S P) (id : RuleId) : Except Fault P :=
  match p.ruleCounts[id.index]? with
  | some count => .ok count
  | none => .error .noSlot

/-- The expected number of rule applications in a derivation. -/
def applications (p : Posterior S P) : P := p.ruleCounts.foldl Probability.add Probability.none

/-- What the log says of a pass. An empty sentence needs none. -/
def logLine? [ScoreText S] [ScoreText P] (p : Posterior S P) : Option LogLine :=
  if p.tokens = 0 then none
  else match p.total? with
    | some total =>
      some ⟨.debug, s!"outside pass over {p.tokens} tokens, log Z {ScoreText.plain total}, "
        ++ s!"expected rule applications {ScoreText.plain p.applications}"⟩
    | none => some ⟨.debug, s!"no parse of {p.tokens} tokens, outside pass skipped"⟩

end Posterior

end ChartParsing
