import ChartParsing.Chart.Config
import ChartParsing.Chart.Site
import ChartParsing.Grammar
import ChartParsing.Span

/-!
# Charts

A chart has a cell for every span of the sentence it was last reset to. The
cells lie in a row, in the order of `Span.all`, and there are enough of them for
the longest sentence so far: a sentence that fits reopens the cells it needs, a
longer one gets new cells. A cell that is being filled is taken out of the row, and
looking it up meanwhile is at fault.

A cell is filtered by the constraint that it was made under, whatever constraint
comes later. Setting one drops all cells, so that the next sentence starts with new
ones. The sentence stays, and until the next reset its spans have no cell.
-/

namespace ChartParsing

/-- A chart for one sentence at a time. -/
structure Chart (S C : Type) where
  grammar : Grammar S
  config : ChartConfig
  constraint : Option C
  /-- The constraints that were replaced. They are numbered in the order in which they
  were set, and the one in force comes after them. -/
  earlier : Array C
  /-- The cells for all spans of `capacity` tokens, but for one that is being filled. -/
  sites : Array (Option (Site S))
  /-- The length of the longest sentence there are cells for. -/
  capacity : Nat
  sentence : List Symbol

namespace Chart

variable {S C J : Type}

/-! ## Making charts -/

/-- A chart without cells, constraint and sentence. -/
def vacant (grammar : Grammar S) (config : ChartConfig) : Chart S C :=
  ⟨grammar, config, none, #[], #[], 0, []⟩

/-- A chart without cells. The cells have to support the aggregation, the
grammar has to be indexed for the loop order, and breaking ties takes a source
of jitter. -/
def create (grammar : Grammar S) (config : ChartConfig) (hasJitter : Bool) :
    Except ChartError (Chart S C) :=
  if !config.cellType.supports config.aggregation then
    .error (.unsupportedCombination config.cellType config.aggregation)
  else if grammar.loopOrder ≠ config.loopOrder then
    .error (.loopOrderNotIndexed config.loopOrder grammar.loopOrder)
  else if config.cellType = .tieBreaking ∧ hasJitter = false then
    .error .missingJitterSource
  else .ok (vacant grammar config)

/-- Sets the constraint, and drops all cells. -/
def constrain (chart : Chart S C) (constraint : C) : Chart S C :=
  { chart with
    constraint := some constraint
    earlier := chart.earlier ++ chart.constraint.toArray
    sites := #[]
    capacity := 0 }

/-- The number of the constraint in force, which new cells are filtered by. -/
def newFilter (chart : Chart S C) : Option Nat := chart.constraint.map fun _ => chart.earlier.size

/-- The constraint that filters the cell of a site. -/
def filterOf (chart : Chart S C) (site : Site S) : Option C :=
  site.filter.bind fun number => (chart.earlier ++ chart.constraint.toArray)[number]?

/-- The chart as the cell of a site sees it, under the cell's own filter. -/
def seenFrom (chart : Chart S C) (site : Site S) : Chart S C :=
  { chart with constraint := chart.filterOf site }

/-- The length of the sentence. -/
def length (chart : Chart S C) : Nat := chart.sentence.length

/-! ## Sites -/

/-- The place of the site of a span, if the chart has room for it. -/
def index (chart : Chart S C) (start stop : Nat) : Except Fault Nat :=
  if start < stop ∧ stop ≤ chart.capacity then .ok (Span.index chart.capacity start stop)
  else .error .spanOutsideChart

/-- The site of a span, if the chart has room for it and it is not being filled. -/
def site (chart : Chart S C) (start stop : Nat) : Except Fault (Site S) := do
  match chart.sites[← chart.index start stop]? with
  | some (some site) => return site
  | some none => throw .cellBeingFilled
  | none => throw .noSlot

/-- The chart with another site for a span. -/
def withSite (chart : Chart S C) (start stop : Nat) (site : Site S) : Except Fault (Chart S C) := do
  let i ← chart.index start stop
  return { chart with sites := chart.sites.setIfInBounds i (some site) }

/-- The site of a span, taken out of the chart so that it can be filled. -/
def take (chart : Chart S C) (start stop : Nat) : Except Fault (Site S × Chart S C) := do
  let site ← chart.site start stop
  let i ← chart.index start stop
  return (site, { chart with sites := chart.sites.setIfInBounds i none })

/-- The open, empty site of a span. -/
def newSite (chart : Chart S C) (start stop : Nat) : Site S where
  start
  stop
  cell := .empty chart.config.cellType chart.config.aggregation chart.grammar.nonterminalCount
  filter := chart.newFilter

/-- New sites for sentences of up to `length` tokens. -/
def allocate (chart : Chart S C) (length : Nat) : Chart S C :=
  let sites := (Span.all length).map fun (start, stop) => some (chart.newSite start stop)
  { chart with sites := sites.toArray, capacity := length }

/-- Empties and reopens the cells for all spans of `length` tokens. -/
def reopen (chart : Chart S C) (length : Nat) : Except Fault (Chart S C) :=
  (Span.all length).foldlM (fun chart (start, stop) => do
    chart.withSite start stop (← chart.site start stop).reset) chart

/-! ## Resetting -/

/-- The first token outside the terminal alphabet, with its position. -/
def firstUnknown? (chart : Chart S C) (sentence : List Symbol) : Option (Symbol × Nat) :=
  sentence.zipIdx.find? fun (token, _) => chart.grammar.terminalCount ≤ token.index

/-- Empty, open cells for a sentence of the given length, from those at hand if
there are enough. -/
def makeRoom (chart : Chart S C) (length : Nat) : Effect J S (Chart S C) :=
  if chart.capacity < length then do
    Effect.log .debug <|
      s!"allocating chart for {length} tokens ({Span.count length} cells, "
        ++ s!"{chart.config.cellType.name})"
    return chart.allocate length
  else
    liftM (chart.reopen length)

/-- Tells the constraint, where there is one, the next sentence. -/
def announce [CellConstraint C S] (chart : Chart S C) (sentence : List Symbol) :
    Effect J S (Chart S C) :=
  match chart.constraint with
  | none => return chart
  | some constraint => do
    Effect.emit (.announced sentence)
    let constraint ← (CellConstraint.announce S constraint sentence : Except Fault C)
    return { chart with constraint := some constraint }

/-- Prepares the chart for a sentence. Every token has to be a terminal of the
grammar; otherwise nothing changes. -/
def reset [CellConstraint C S] (chart : Chart S C) (sentence : List Symbol) :
    Effect J S (Except ChartError (Chart S C)) := do
  match chart.firstUnknown? sentence with
  | some (token, position) =>
    return .error (.tokenOutOfRange position token.index chart.grammar.terminalCount)
  | none =>
    let chart ← chart.makeRoom sentence.length
    let chart ← chart.announce sentence
    return .ok { chart with sentence }

/-! ## Reading -/

/-- The cell of a span of the sentence. -/
def cell (chart : Chart S C) (start stop : Nat) : Except Fault (Cell S) :=
  if start < stop ∧ stop ≤ chart.length then return (← chart.site start stop).cell
  else .error (.spanOutsideSentence start stop chart.length)

/-- The score of a symbol over a span of the sentence. -/
def score [Score S] (chart : Chart S C) (sym : Symbol) (start stop : Nat) : Except Fault S := do
  return (← chart.cell start stop).score sym

/-- The back pointer of a symbol over a span of the sentence. -/
def backPointer? (chart : Chart S C) (sym : Symbol) (start stop : Nat) :
    Except Fault (Option BackPointer) := do
  return (← chart.cell start stop).backPointer? sym

/-- The score of the root over the whole sentence, if the sentence has a
derivation. -/
def rootScore? [Score S] (chart : Chart S C) : Except Fault (Option S) :=
  if chart.length = 0 then .ok none
  else do
    let cell ← chart.cell 0 chart.length
    if cell.contains chart.grammar.root then return some (cell.score chart.grammar.root)
    else return none

end Chart

end ChartParsing
