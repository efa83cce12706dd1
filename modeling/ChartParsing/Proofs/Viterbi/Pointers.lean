import ChartParsing.Proofs.Viterbi.BestTree

/-!
# Back pointers

A chart of best derivations keeps with every score where it came from. Whatever the
constraint lets through, and whichever way ties go, the back pointer of a symbol names
a step that makes the symbol: all the step is made from is in the chart, in cells
that were filled before this entry was written or in the same one, and the scores that
are there now are those the entry was made from.
-/

namespace ChartParsing

variable {S C J : Type} [Score S]

/-- The rule makes the span from what is in the chart, and comes to the score: from a
token, from its child over the same span, or from its children over two parts. -/
inductive Makes (g : Grammar S) (sentence : List Symbol) (scorer : Scorer S) (V : Values S)
    (start stop : Nat) : Rule S → Nat → S → Prop
  | lexical {r : Rule S} {t : Symbol} : r ∈ g.rules → r.rhs = .lexical t → stop = start + 1 →
      sentence[start]? = some t →
      Makes g sentence scorer V start stop r start (scorer.score r start start stop)
  | unary {r : Rule S} {y : Symbol} {v : S} : r ∈ g.rules → r.rhs = .unary y →
      V y start stop = some v →
      Makes g sentence scorer V start stop r stop
        (Score.combine v (scorer.score r start stop stop))
  | binary {r : Rule S} {y z : Symbol} {v w : S} {mid : Nat} : r ∈ g.rules →
      r.rhs = .binary y z → start < mid → mid < stop → V y start mid = some v →
      V z mid stop = some w →
      Makes g sentence scorer V start stop r mid
        (Score.combine (Score.combine v w) (scorer.score r start mid stop))

theorem Applies.makes {g : Grammar S} {sentence : List Symbol} {V : Values S} {start stop : Nat}
    {a : Application S} (h : Applies g sentence V start stop a) (scorer : Scorer S) :
    Makes g sentence scorer V start stop a.rule a.mid (a.score scorer start stop) := by
  cases h with
  | lexical hr hrhs hstop ht => exact .lexical hr hrhs hstop ht
  | unary hr hrhs hv => exact .unary hr hrhs hv
  | binary hr hrhs h₁ h₂ hv hw => exact .binary hr hrhs h₁ h₂ hv hw

namespace Chart

variable [CellConstraint C S] [JitterSource J] {chart : Chart S C} {sentence : List Symbol}
  {p : CellPredicate S}

/-- **Back pointers lead to what is there.** Unless a parse for best derivations comes to
an application that a cell refuses, as its score, which is that of a derivation, is
undefined, there is a cell over every span of the sentence, and each symbol in it has a
back pointer. It names a rule for the symbol and a split. The rule makes the span from
finished scores of the chart, it comes to the score that the cell has, and the constraint
accepts this. -/
theorem parse_backPointers [ScoreText S] {g : Grammar S} (hg : g.Accepted) {config : ChartConfig}
    (hagg : config.aggregation = .viterbi) (hchart : chart.Reachable J g config)
    (hsentence : ∀ token ∈ sentence, token.index < g.terminalCount)
    (hp : Follows (chart.announced sentence) sentence.length p) (scorer : Scorer S)
    (run : Run J S) :
    (∃ run', (chart.parse sentence scorer).outcome run = (.error .undefinedScore, run') ∧
      chart.MeetsUndefined sentence scorer run run' ∧
      ∃ d : Derivation S, d.Valid g sentence ∧ d.PartsAdmitted scorer p ∧
        Score.isUndefined (d.score scorer) = true) ∨
    ∃ filled run', (chart.parse sentence scorer).outcome run = (.ok (.ok filled), run') ∧
      ∀ start stop, start < stop → stop ≤ sentence.length →
        ∃ cell, filled.cell start stop = .ok cell ∧
          ∀ sym, cell.contains sym = true → ∃ r mid v,
            filled.backPointer? sym start stop = .ok (some (.derivation r.id mid)) ∧
            g.rule r.id = .ok r ∧ r.parent = sym ∧
            filled.score sym start stop = .ok v ∧
            Makes g sentence scorer filled.values start stop r mid v ∧
            p.test start stop mid r v = true := by
  obtain ⟨hshaped, rfl, rfl⟩ := hchart.shaped hg.indexed
  rcases hshaped.parse_parsed hg.indexed hsentence hp scorer run with
    ⟨filled, run', hrun, hparsed⟩ | ⟨run', hrun, hmeets⟩
  case inr => exact Or.inl ⟨run', hrun, hmeets, hmeets.exists_derivation hg.indexed hagg hp⟩
  refine Or.inr ⟨filled, run', hrun, fun start stop h₁ h₂ => ?_⟩
  obtain ⟨site, hcell, _⟩ := hparsed.exists_cell h₁ (hparsed.length_eq ▸ h₂)
  refine ⟨site.cell, hcell, fun sym hsym => ?_⟩
  obtain ⟨v, hv⟩ := Cell.contains_iff_value?.mp hsym
  have hvalue : filled.values sym start stop = some v := by
    unfold values
    rw [hcell]
    exact hv
  obtain ⟨a, happlies, hparent, rfl, hadmits, hpointer⟩ :=
    hparsed.exists_application hagg hp hvalue
  have hscore : filled.score sym start stop = .ok (a.score scorer start stop) := by
    unfold score
    rw [hcell, ← Cell.score_eq_of_value? hv]
    rfl
  exact ⟨a.rule, a.mid, _, hpointer, hg.indexed.rule_eq happlies.rule_mem, hparent, hscore,
    happlies.makes scorer, hadmits⟩

/-- A test that takes good scores and bad ones, and none in between. -/
def extremes : CellPredicate (WithBot ℚ) :=
  ⟨fun _ _ _ _ score => ((-2 : ℚ) : WithBot ℚ) < score ∨ score < ((-4 : ℚ) : WithBot ℚ)⟩

/-- Each rule costs one. -/
def unitCosts : Scorer (WithBot ℚ) := ⟨fun _ _ _ _ => ((-1 : ℚ) : WithBot ℚ)⟩

/-- The small grammar over `a a` in cells that break ties, where only the extremes are
taken. `A` is present over the first token. -/
theorem parse_backPointers_small :
    ∃ (g : Grammar (WithBot ℚ)) (chart filled : Chart (WithBot ℚ) (CellPredicate (WithBot ℚ)))
      (run' : Run Jitter (WithBot ℚ)), g.Accepted ∧ chart.config.cellType = .tieBreaking ∧
      chart.constraint = some extremes ∧
      (chart.parse Grammar.Small.tokens unitCosts).outcome (.start (.ofSeed 7)) =
        (.ok (.ok filled), run') ∧
      (∃ cell, filled.cell 0 1 = .ok cell ∧ cell.contains (.ofNat 1) = true) ∧
      ∀ start stop, start < stop → stop ≤ 2 →
        ∃ cell, filled.cell start stop = .ok cell ∧
          ∀ sym, cell.contains sym = true → ∃ r mid v,
            filled.backPointer? sym start stop = .ok (some (.derivation r.id mid)) ∧
            g.rule r.id = .ok r ∧ r.parent = sym ∧
            filled.score sym start stop = .ok v ∧
            Makes g Grammar.Small.tokens unitCosts filled.values start stop r mid v ∧
            extremes.test start stop mid r v = true := by
  obtain ⟨g, _, hg, hcount, horder, _, hrules⟩ :=
    Grammar.Small.accepted (WithBot ℚ) rfl rfl .rightChild
  have hnew : (.vacant g ⟨.viterbi, .tieBreaking, .rightChild⟩ :
      Chart (WithBot ℚ) (CellPredicate (WithBot ℚ))).Reachable Jitter g
        ⟨.viterbi, .tieBreaking, .rightChild⟩ := reachable_new rfl horder
  have htokens : ∀ token ∈ Grammar.Small.tokens, token.index < g.terminalCount := by
    rw [hcount]
    decide
  have hchart := hnew.constrain extremes
  have hp : Follows ((Chart.constrain (.vacant g ⟨.viterbi, .tieBreaking, .rightChild⟩)
      extremes).announced Grammar.Small.tokens) 2 extremes := follows_of_some rfl _ _
  rcases parse_backPointers hg rfl hchart htokens hp unitCosts (.start (.ofSeed 7)) with
    ⟨_, _, _, _, _, _, hundefined⟩ | ⟨filled, run', hrun, h⟩
  · cases hundefined
  have hparsed : Chart.Parsed Jitter _ Grammar.Small.tokens unitCosts filled :=
    (parse_ends (hchart.shaped hg.indexed).1 hg.indexed _ _ _).of_outcome hrun
  obtain ⟨-, -, leaf, hleaf, hparent, hrhs⟩ := Grammar.Small.exists_rules hrules
  have htoken : Grammar.Small.tokens[0]? = some (.ofNat 0) := rfl
  have hextreme : ((-2 : ℚ) : WithBot ℚ) < ((-1 : ℚ) : WithBot ℚ) :=
    WithBot.coe_lt_coe.mpr (by decide)
  have hadmits : extremes.test 0 1 0 leaf ((-1 : ℚ) : WithBot ℚ) = true := by
    simp only [extremes, hextreme, true_or, decide_true]
  obtain ⟨v, hv⟩ := hparsed.exists_value hp (.lexical hleaf hrhs rfl htoken) hadmits
  rw [hparent] at hv
  obtain ⟨cell, hcell, hvalue⟩ := cell_of_values hv
  exact ⟨g, _, filled, run', hg, rfl, rfl, hrun,
    ⟨cell, hcell, Cell.contains_iff_value?.mpr ⟨v, hvalue⟩⟩, h⟩

end Chart

end ChartParsing
