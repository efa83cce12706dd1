import ChartParsing.Chart

/-!
# Filling a chart

Cells are filled from narrow spans to wide ones, each out of the chart until it is
closed, under the constraint that it was made under. A span of one token takes the
lexical rules of the token. A wider span takes, for each split, the binary rules
whose children are present in the two cells of the split. Unary rules follow,
children before parents, so that a parent reads the final score of its child;
then the cell is closed.

The binary rules of a split are found in one of three ways, which try the same
rules in different orders.
-/

namespace ChartParsing.Chart

variable {S C J : Type} [Score S]

/-! ## What applies -/

/-- The lexical rules of the token at a position. -/
def lexicalApplications (chart : Chart S C) (position : Nat) :
    Except Fault (List (Application S)) := do
  match chart.sentence[position]? with
  | none => throw .noSlot
  | some token =>
    let rules ← chart.grammar.rulesAt (chart.grammar.lexicalRules token)
    return rules.map fun rule => ⟨rule, position, none⟩

/-- The binary rules for every pair of symbols, the left one of some rule on the
left and the right one of some rule on the right. -/
def pairApplications (g : Grammar S) (mid : Nat) (left right : Cell S) :
    Except Fault (List (Application S)) := do
  let found ← (← left.symbols).mapM fun leftSym => do
    if !g.isLeftChild leftSym then return []
    let found ← (← right.symbols).mapM fun rightSym => do
      if !g.isRightChild rightSym then return []
      let rules ← g.rulesAt (← g.binaryRulesWithChildren leftSym rightSym)
      let children := Score.combine (left.score leftSym) (right.score rightSym)
      return rules.map fun rule => ⟨rule, mid, some children⟩
    return found.flatten
  return found.flatten

/-- For every symbol on the left, the binary rules with that left child whose
right child is present. -/
def leftChildApplications (g : Grammar S) (mid : Nat) (left right : Cell S) :
    Except Fault (List (Application S)) := do
  let found ← (← left.symbols).mapM fun leftSym => do
    let rules ← g.rulesAt (← g.binaryRulesWithLeftChild leftSym)
    return rules.filterMap fun rule =>
      match rule.rightChild? with
      | some rightSym =>
        if right.contains rightSym then
          some ⟨rule, mid, some (Score.combine (left.score leftSym) (right.score rightSym))⟩
        else none
      | none => none
  return found.flatten

/-- For every symbol on the right, the binary rules with that right child whose
left child is present. -/
def rightChildApplications (g : Grammar S) (mid : Nat) (left right : Cell S) :
    Except Fault (List (Application S)) := do
  let found ← (← right.symbols).mapM fun rightSym => do
    let rules ← g.rulesAt (← g.binaryRulesWithRightChild rightSym)
    return rules.filterMap fun rule =>
      if left.contains rule.leftChild then
        some ⟨rule, mid, some (Score.combine (left.score rule.leftChild) (right.score rightSym))⟩
      else none
  return found.flatten

/-- The binary rules that combine the cells on the two sides of a split. -/
def binaryApplications (g : Grammar S) (mid : Nat) (left right : Cell S) :
    LoopOrder → Except Fault (List (Application S))
  | .cartesianProduct => pairApplications g mid left right
  | .leftChild => leftChildApplications g mid left right
  | .rightChild => rightChildApplications g mid left right

/-- The unary rules whose child is the given symbol, if the symbol is present.
-/
def unaryApplications (g : Grammar S) (site : Site S) (child : Symbol) :
    Except Fault (List (Application S)) := do
  if !site.cell.contains child then return []
  let rules ← g.rulesAt (g.unaryRulesWithChild child)
  return rules.map fun rule => ⟨rule, site.stop, some (site.cell.score child)⟩

/-! ## Filling a cell -/

variable [CellConstraint C S] [JitterSource J]

/-- Applies the lexical rules of a one-token span. -/
def applyLexical (chart : Chart S C) (scorer : Scorer S) (site : Site S) :
    Effect J S (Site S) := do
  site.applyAll scorer chart.constraint (← chart.lexicalApplications site.start)

/-- Applies the binary rules for one split of a span. -/
def applySplit (chart : Chart S C) (scorer : Scorer S) (site : Site S) (mid : Nat) :
    Effect J S (Site S) := do
  let left ← (chart.site site.start mid : Except Fault (Site S))
  let right ← (chart.site mid site.stop : Except Fault (Site S))
  site.applyAll scorer chart.constraint
    (← binaryApplications chart.grammar mid left.cell right.cell chart.config.loopOrder)

/-- Applies the unary rules with one child. -/
def applyUnary (chart : Chart S C) (scorer : Scorer S) (site : Site S) (child : Symbol) :
    Effect J S (Site S) := do
  site.applyAll scorer chart.constraint (← unaryApplications chart.grammar site child)

/-- Applies all unary rules, children before parents. -/
def sweepUnary (chart : Chart S C) (scorer : Scorer S) (site : Site S) : Effect J S (Site S) :=
  chart.grammar.unaryOrder.toList.foldlM (chart.applyUnary scorer) site

/-- Everything that applies over the span of a site, and the cell closed. -/
def fillSite (chart : Chart S C) (scorer : Scorer S) (site : Site S) : Effect J S (Site S) := do
  let site ←
    if site.stop = site.start + 1 then chart.applyLexical scorer site
    else (Span.splits site.start site.stop).foldlM (chart.applySplit scorer) site
  let site ← chart.sweepUnary scorer site
  return site.close

/-- Fills the cell of a span, which is out of the chart meanwhile. -/
def fill (scorer : Scorer S) (chart : Chart S C) (span : Nat × Nat) : Effect J S (Chart S C) := do
  let (start, stop) := span
  let (site, chart) ← (chart.take start stop : Except Fault (Site S × Chart S C))
  let site ← (chart.seenFrom site).fillSite scorer site
  let present ← (site.cell.symbols : Except Fault (List Symbol))
  Effect.log .trace s!"closed cell [{start}, {stop}) with {present.length} symbols"
  liftM (chart.withSite start stop site)

/-- Fills the cells of all spans of the sentence. -/
def fillAll (chart : Chart S C) (scorer : Scorer S) : Effect J S (Chart S C) :=
  (Span.narrowFirst chart.length).foldlM (Chart.fill scorer) chart

/-- The score of the root as log lines write it. -/
def rootText [ScoreText S] : Option S → String
  | some score => s!"Some({ScoreText.marked score})"
  | none => "None"

/-- Resets the chart to a sentence and fills it. -/
def parse [ScoreText S] (chart : Chart S C) (sentence : List Symbol) (scorer : Scorer S) :
    Effect J S (Except ChartError (Chart S C)) := do
  match ← chart.reset sentence with
  | .error e => return .error e
  | .ok chart =>
    let chart ← chart.fillAll scorer
    let root ← (chart.rootScore? : Except Fault (Option S))
    Effect.log .debug <|
      s!"filled {chart.config.aggregation.name} chart for {chart.length} tokens, "
        ++ s!"root score {rootText root}"
    return .ok chart

end ChartParsing.Chart
