import ChartParsing.Chart.Filling
import ChartParsing.Posterior

/-!
# The outside pass

Outside scores are passed down from wide spans to narrow ones, the root starting
with certainty. On each span unary rules go first, parents before children, so
that a parent's outside score is complete before it is passed on. Then each
binary rule passes its parent's outside score to both children, each combined
with the other's inside score. Lexical rules come last and pass theirs on to the
tokens. Every rule that passes a score down is counted with the share it has of
the total.
-/

namespace ChartParsing.Posterior

variable {S P C J : Type} [Score S] [Probability P] [Sharing S P]

/-! ## Before the pass -/

/-- No inside and no outside scores yet. -/
def blank (chart : Chart S C) (logZ : Option S) : Posterior S P :=
  let tokens := chart.length
  let nonterminals := chart.grammar.nonterminalCount
  { tokens, nonterminals, logZ
    root := chart.grammar.root
    inside := .replicate tokens nonterminals Score.impossible
    outside := .replicate tokens nonterminals Score.impossible
    terminalOutside := Array.replicate tokens Score.impossible
    ruleCounts := Array.replicate chart.grammar.rules.size Probability.none }

/-- Takes over the inside scores of a span. -/
def readInside (chart : Chart S C) (p : Posterior S P) (span : Nat × Nat) :
    Except Fault (Posterior S P) := do
  let (start, stop) := span
  let cell ← chart.cell start stop
  let inside ← (← cell.symbols).foldlM
    (fun table sym => table.set sym start stop (cell.score sym)) p.inside
  return { p with inside }

/-- All inside scores, and certainty outside the root. -/
def ofInside (chart : Chart S C) : Except Fault (Posterior S P) := do
  let p : Posterior S P := blank chart (← chart.rootScore?)
  if p.tokens = 0 then return p
  let p ← (Span.all p.tokens).foldlM (readInside chart) p
  return { p with outside := ← p.outside.set p.root 0 p.tokens Score.certain }

/-! ## Passing scores down -/

/-- Pools a score into the outside score of a symbol over a span. The root over
the whole sentence has nothing around it. -/
def addOutside (p : Posterior S P) (sym : Symbol) (start stop : Nat) (score : S) :
    Except Fault (Posterior S P) :=
  if sym = p.root ∧ start = 0 ∧ stop = p.tokens then .ok p
  else do
    let old ← p.outside.get sym start stop
    return { p with outside := ← p.outside.set sym start stop (Score.pool old score) }

/-- Counts an application of a rule with its share of the total. -/
def addCount (p : Posterior S P) (total : S) (rule : Rule S) (joint : S) :
    Except Fault (Posterior S P) :=
  if Score.exceeds joint Score.impossible then
    match p.ruleCounts[rule.id.index]? with
    | none => .error .noSlot
    | some count =>
      let count := Probability.add count (Sharing.share joint total)
      .ok { p with ruleCounts := p.ruleCounts.setIfInBounds rule.id.index count }
  else .ok p

/-- Asks the scorer for the score of a rule at a place. -/
def ask (scorer : Scorer S) (rule : Rule S) (start mid stop : Nat) : Effect J S S := do
  Effect.emit (.scored rule.id start mid stop)
  return scorer.score rule start mid stop

/-- Passes the outside score of a unary rule's parent to its child. -/
def pushUnaryRule (scorer : Scorer S) (total childInside : S) (child : Symbol) (start stop : Nat)
    (p : Posterior S P) (rule : Rule S) : Effect J S (Posterior S P) := do
  let parentOutside ← (p.outside.get rule.parent start stop : Except Fault S)
  if Score.isImpossible parentOutside then return p
  let score := Score.combine parentOutside (← ask scorer rule start stop stop)
  let p ← (p.addCount total rule (Score.combine score childInside) : Except Fault (Posterior S P))
  liftM (p.addOutside child start stop score)

/-- Passes outside scores through the unary rules with one child. -/
def pushUnaryChild (chart : Chart S C) (scorer : Scorer S) (total : S) (cell : Cell S)
    (start stop : Nat) (p : Posterior S P) (child : Symbol) : Effect J S (Posterior S P) := do
  if !cell.contains child then return p
  let rules ← (chart.grammar.rulesAt (chart.grammar.unaryRulesWithChild child) :
    Except Fault (List (Rule S)))
  rules.foldlM (pushUnaryRule scorer total (cell.score child) child start stop) p

/-- Passes outside scores through all unary rules on a span, parents before
children. -/
def pushUnary (chart : Chart S C) (scorer : Scorer S) (total : S) (p : Posterior S P)
    (start stop : Nat) : Effect J S (Posterior S P) := do
  let cell ← (chart.cell start stop : Except Fault (Cell S))
  chart.grammar.unaryOrder.toList.reverse.foldlM
    (pushUnaryChild chart scorer total cell start stop) p

/-- Passes the outside score of a binary rule's parent to both children. -/
def pushBinaryRule (chart : Chart S C) (scorer : Scorer S) (total : S) (start mid stop : Nat)
    (p : Posterior S P) (rule : Rule S) : Effect J S (Posterior S P) := do
  let parentOutside ← (p.outside.get rule.parent start stop : Except Fault S)
  if Score.isImpossible parentOutside then return p
  match rule.rightChild? with
  | none => return p
  | some right =>
    let leftInside ← (chart.score rule.leftChild start mid : Except Fault S)
    let rightInside ← (chart.score right mid stop : Except Fault S)
    let score := Score.combine parentOutside (← ask scorer rule start mid stop)
    let joint := Score.combine (Score.combine score leftInside) rightInside
    let p ← (p.addCount total rule joint : Except Fault (Posterior S P))
    let p ← (p.addOutside rule.leftChild start mid (Score.combine score rightInside) :
      Except Fault (Posterior S P))
    liftM (p.addOutside right mid stop (Score.combine score leftInside))

/-- The binary rules for every pair of symbols, the left one of some rule on the left and
the right one of some rule on the right. -/
def pairRules (g : Grammar S) (left right : Cell S) : Except Fault (List (Rule S)) := do
  let found ← (← left.symbols).mapM fun leftSym => do
    if !g.isLeftChild leftSym then return []
    let found ← (← right.symbols).mapM fun rightSym => do
      if !g.isRightChild rightSym then return []
      g.rulesAt (← g.binaryRulesWithChildren leftSym rightSym)
    return found.flatten
  return found.flatten

/-- For every symbol on the left, the binary rules with that left child whose right child
is present. -/
def leftChildRules (g : Grammar S) (left right : Cell S) : Except Fault (List (Rule S)) := do
  let found ← (← left.symbols).mapM fun leftSym => do
    let rules ← g.rulesAt (← g.binaryRulesWithLeftChild leftSym)
    return rules.filter fun rule => rule.rightChild?.any right.contains
  return found.flatten

/-- For every symbol on the right, the binary rules with that right child whose left child
is present. -/
def rightChildRules (g : Grammar S) (left right : Cell S) : Except Fault (List (Rule S)) := do
  let found ← (← right.symbols).mapM fun rightSym => do
    let rules ← g.rulesAt (← g.binaryRulesWithRightChild rightSym)
    return rules.filter fun rule => left.contains rule.leftChild
  return found.flatten

/-- The binary rules to pass scores through at a split, in the loop order of the
grammar. -/
def splitRules (g : Grammar S) (left right : Cell S) : Except Fault (List (Rule S)) :=
  match g.loopOrder with
  | .cartesianProduct => pairRules g left right
  | .leftChild => leftChildRules g left right
  | .rightChild => rightChildRules g left right

/-- Passes outside scores through the binary rules for one split of a span. -/
def pushSplit (chart : Chart S C) (scorer : Scorer S) (total : S) (start stop : Nat)
    (p : Posterior S P) (mid : Nat) : Effect J S (Posterior S P) := do
  let left ← (chart.cell start mid : Except Fault (Cell S))
  let right ← (chart.cell mid stop : Except Fault (Cell S))
  let rules ← (splitRules chart.grammar left right : Except Fault (List (Rule S)))
  rules.foldlM (pushBinaryRule chart scorer total start mid stop) p

/-- Passes outside scores down from a span. -/
def pushSpan (chart : Chart S C) (scorer : Scorer S) (total : S) (p : Posterior S P)
    (span : Nat × Nat) : Effect J S (Posterior S P) := do
  let (start, stop) := span
  let p ← pushUnary chart scorer total p start stop
  (Span.splits start stop).foldlM (pushSplit chart scorer total start stop) p

/-- Passes the outside score of a lexical rule's parent to the token, whose
outside score so far is the second part of the state. -/
def pushLexicalRule (scorer : Scorer S) (total : S) (cell : Cell S) (position : Nat)
    (state : Posterior S P × S) (rule : Rule S) : Effect J S (Posterior S P × S) := do
  let (p, outside) := state
  if !cell.contains rule.parent then return state
  let parentOutside ← (p.outside.get rule.parent position (position + 1) : Except Fault S)
  if Score.isImpossible parentOutside then return state
  let score := Score.combine parentOutside (← ask scorer rule position position (position + 1))
  let p ← (p.addCount total rule score : Except Fault (Posterior S P))
  return (p, Score.pool outside score)

/-- Passes outside scores to the token at a position. -/
def pushToken (chart : Chart S C) (scorer : Scorer S) (total : S) (p : Posterior S P)
    (position : Nat) : Effect J S (Posterior S P) := do
  let cell ← (chart.cell position (position + 1) : Except Fault (Cell S))
  match chart.sentence[position]? with
  | none => throw .noSlot
  | some token =>
    let rules ← (chart.grammar.rulesAt (chart.grammar.lexicalRules token) :
      Except Fault (List (Rule S)))
    let (p, outside) ← rules.foldlM (pushLexicalRule scorer total cell position)
      (p, Score.impossible)
    return { p with terminalOutside := p.terminalOutside.setIfInBounds position outside }

/-- The whole pass, from the widest span to the tokens. -/
def push (chart : Chart S C) (scorer : Scorer S) (total : S) (p : Posterior S P) :
    Effect J S (Posterior S P) := do
  let p ← (Span.wideFirst p.tokens).foldlM (pushSpan chart scorer total) p
  (List.range p.tokens).foldlM (pushToken chart scorer total) p

/-! ## Both passes -/

/-- Runs the outside pass over a filled chart of inside scores. The scorer
should be the one the chart was filled with. Without a derivation there is
nothing to pass down. -/
def ofChart [ScoreText S] [ScoreText P] (chart : Chart S C) (scorer : Scorer S) :
    Effect J S (Except ChartError (Posterior S P)) := do
  if chart.config.aggregation ≠ .inside then
    return .error (.notAnInsideChart chart.config.aggregation)
  let p ← (ofInside chart : Except Fault (Posterior S P))
  let p ← match p.total? with
    | some total => push chart scorer total p
    | none => pure p
  match p.logLine? with
  | some line => Effect.emit (.logged line)
  | none => pure ()
  return .ok p

end ChartParsing.Posterior
