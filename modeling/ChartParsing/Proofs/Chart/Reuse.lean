import ChartParsing.Proofs.Chart.Representation

/-!
# A chart may be used again

A chart is used for one sentence after another. What is left of those before it are
cells, which are emptied, room, which is of no consequence, and a constraint that has
been told the sentences. If the constraint goes by the last of them alone, the next
sentence is parsed as it would be by a chart that has just been made: cells are
equal, draws included, and so is the source of jitter.

A call that is rejected does nothing at all.
-/

namespace ChartParsing

variable {S P C J : Type} [Score S] [CellConstraint C S] [JitterSource J]

namespace Chart

/-- What a chart is called for. -/
inductive Call (S : Type) where
  | reset (sentence : List Symbol)
  | parse (sentence : List Symbol) (scorer : Scorer S)

namespace Call

/-- The sentence of a call. -/
def sentence : Call S → List Symbol
  | .reset sentence => sentence
  | .parse sentence _ => sentence

/-- What a call on a chart returns. -/
def on [ScoreText S] (chart : Chart S C) : Call S → Effect J S (Except ChartError (Chart S C))
  | .reset sentence => chart.reset sentence
  | .parse sentence scorer => chart.parse sentence scorer

end Call

/-- A chart that has been made and perhaps constrained, and not used yet. -/
inductive New (g : Grammar S) (config : ChartConfig) : Chart S C → Prop where
  | bare {hasJitter : Bool} {chart : Chart S C} : create g config hasJitter = .ok chart →
      New g config chart
  | constrained {hasJitter : Bool} {chart : Chart S C} (constraint : C) :
      create g config hasJitter = .ok chart → New g config (chart.constrain constraint)

variable {g : Grammar S} {config : ChartConfig} {new chart used : Chart S C}

omit [Score S] [CellConstraint C S] in
theorem New.shaped (h : new.New g config) :
    new.Shaped ∧ new.grammar = g ∧ new.config = config := by
  cases h with
  | bare hcreate => exact shaped_create hcreate
  | constrained constraint hcreate =>
    obtain ⟨hshaped, hgrammar, hconfig⟩ := shaped_create hcreate
    exact ⟨hshaped.constrain constraint, hgrammar, hconfig⟩

/-- A call is rejected for a token that the grammar does not know, before anything
else is done. -/
theorem on_of_unknown [ScoreText S] {call : Call S} {token : Symbol} {position : Nat}
    (h : chart.firstUnknown? call.sentence = some (token, position)) (run : Run J S) :
    (call.on chart).outcome run = (.ok (.error (.tokenOutOfRange position token.index
      chart.grammar.terminalCount)), run) := by
  have hreset :
      (chart.reset call.sentence : Effect J S (Except ChartError (Chart S C))).outcome run =
      (.ok (.error (.tokenOutOfRange position token.index chart.grammar.terminalCount)), run) := by
    unfold reset
    rw [h]
    rfl
  cases call with
  | reset sentence => exact hreset
  | parse sentence scorer =>
    show (chart.parse sentence scorer).outcome run = _
    unfold parse
    rw [Effect.outcome_bind, show (chart.reset sentence).outcome run = _ from hreset]
    rfl

/-- Charts whose cells are the same one by one. -/
theorem Twins.cell_eq {size : Nat} {chart chart' : Chart S C}
    (h : chart.Twins (.same size : Twinning S J _ _) chart') (start stop : Nat) :
    chart.cell start stop = chart'.cell start stop := by
  by_cases hspan : start < stop ∧ stop ≤ chart.length
  · obtain ⟨site, site', hsite, hsite', hsites⟩ := h.site start stop hspan.1 hspan.2
    rw [Chart.cell_eq hsite hspan.2, Chart.cell_eq hsite' (h.length_eq ▸ hspan.2)]
    exact congrArg Except.ok hsites.cell
  · unfold cell
    rw [← h.length_eq, if_neg hspan, if_neg hspan]

/-- Spans of one token take any rule, wider ones only if they start with the
sentence. -/
def fromStart : CellPredicate ℚ≥0 := ⟨fun start stop _ _ _ => stop = start + 1 ∨ start = 0⟩

end Chart

end ChartParsing
