import ChartParsing.Proofs.Chart.Parsing
import ChartParsing.Proofs.Chart.Soundness
import ChartParsing.Proofs.Outside.Alike
import ChartParsing.Proofs.Score.Laws

/-!
# The cell type makes no difference

Cells of three types hold the same entries after the same offers, and list the
symbols present in the same order, since that is the order of their numbers and not
the order in which a map happens to list its keys. So charts with cells of different
types are filled in step, with no law asked of scores.

The one thing that tells cell types apart is an undefined score, which dense cells
refuse and maps take. A dense cell refuses it at the moment it would be written, so
that no undefined score is accumulated means that a parse with dense cells comes to
no refusal. An offer that leaves the better entry in place is not refused, even if
its score is undefined.
-/

namespace ChartParsing.Chart

variable {S P C J : Type} [Score S] [CellConstraint C S] [JitterSource J]

/-- The chart without cells and sentence, as it is when it has just been made and
constrained, to be filled with dense cells. -/
def anewDense (chart : Chart S C) : Chart S C :=
  { chart with
    config := { chart.config with cellType := .full }
    sites := #[]
    capacity := 0
    sentence := [] }

/-- No undefined score comes about in a cell while the sentence is parsed: dense
cells, which refuse these and nothing else, refuse nothing. -/
def NeverUndefined [ScoreText S] (chart : Chart S C) (sentence : List Symbol) (scorer : Scorer S)
    (run : Run J S) : Prop :=
  ((chart.anewDense.parse sentence scorer).outcome run).1 ≠ .error .undefinedScore

/-- The cells of the chart list the symbols present by number: in whatever order a
map may have its keys, sorting them gives this list. -/
def Ordered (chart : Chart S C) : Prop :=
  ∀ start stop cell, chart.cell start stop = .ok cell → ∀ keys : List Symbol, keys.Nodup →
    (∀ sym, sym ∈ keys ↔ cell.contains sym = true) →
    cell.symbols = .ok (keys.mergeSort Symbol.le)

/-- Two charts that no question tells apart, nor the posterior of either. -/
structure Agree (J P : Type) [Probability P] [Sharing S P] [ScoreText S] [ScoreText P]
    (chart chart' : Chart S C) : Prop where
  answers : chart.SameAnswers chart'
  posterior : ∀ (scorer : Scorer S) (run : Run J S),
    (Posterior.ofChart chart scorer : Effect J S (Except ChartError (Posterior S P))).outcome run =
      (Posterior.ofChart chart' scorer).outcome run

variable {g : Grammar S} {config₁ config₂ : ChartConfig} {chart chart₁ chart₂ : Chart S C}
  {sentence : List Symbol} {scorer : Scorer S}

omit [Score S] [CellConstraint C S] [JitterSource J] in
/-- A chart that has just been made is in shape. -/
theorem shaped_anewDense (h : chart.Shaped) : chart.anewDense.Shaped := by
  refine ⟨h.loopOrder_eq, ?_, ?_⟩
  · cases hagg : chart.config.aggregation <;> simp [anewDense, CellType.supports, hagg]
  · intro start stop h₁ h₂
    have hzero : stop ≤ 0 := h₂
    omega

/-- A chart with dense cells is akin to one with cells of any type without ties. -/
theorem akin_dense (sentence : List Symbol) (hshaped : chart.Shaped) (hg : chart.grammar.Indexed)
    (htype : chart.config.cellType ≠ .tieBreaking) (hgrammar : chart.grammar = chart₁.grammar)
    (hagg : chart.config.aggregation = chart₁.config.aggregation) (hshaped₁ : chart₁.Shaped)
    (hconstraint : chart₁.constraint = chart.constraint) :
    Akin (.plain chart.grammar.nonterminalCount : Twinning S J _ _) sentence chart₁.anewDense
      chart where
  indexed := hgrammar ▸ hg
  size_eq := by rw [hgrammar]; rfl
  grammar_eq := hgrammar.symm
  aggregation_eq := hagg.symm
  shaped := shaped_anewDense hshaped₁
  shaped' := hshaped
  constraint := by
    have hannounced : chart₁.anewDense.announced sentence = chart.announced sentence := by
      unfold announced
      rw [← hconstraint]
      rfl
    rw [hannounced]
    exact (Matched.refl _).imp fun constraint _ heq => heq ▸ .refl constraint
  empty := by
    rw [hagg]
    exact Twinning.plain_empty htype _ _

/-- With all scores defined, none is undefined. -/
theorem neverUndefined [ScoreText S] (hshaped : chart.Shaped) (hg : chart.grammar.Indexed)
    {p : CellPredicate S} (hp : Follows (chart.announced sentence) sentence.length p)
    (hdefined : ∀ x : S, Score.isUndefined x = false) (scorer : Scorer S) (run : Run J S) :
    chart.NeverUndefined sentence scorer run := by
  have hends := parse_ends (shaped_anewDense hshaped) hg sentence scorer run
  intro hundefined
  obtain ⟨-, hmeets⟩ := (hends.of_outcome_error (Prod.ext hundefined rfl)).meetsUndefined hp
  obtain ⟨x, hx⟩ := hmeets.exists_undefined
  rw [hdefined] at hx
  cases hx

theorem Parsed.ordered {chart' : Chart S C} (h : chart.Parsed J sentence scorer chart') :
    chart'.Ordered := by
  intro start stop cell hcell keys hnodup hkeys
  have hspan := span_of_cell hcell
  obtain ⟨site, hsite, hcomplete⟩ := h.exists_cell hspan.1 hspan.2
  cases hcell.symm.trans hsite
  rw [hcomplete.shut.symbols_eq]
  refine congrArg Except.ok (eq_of_increasing hcomplete.shut.tidy.pairwise_symbols
    (pairwise_mergeSort hnodup) fun sym => ?_)
  rw [List.mem_mergeSort, hkeys, hcomplete.shut.tidy.mem_symbols]
  rfl

/-- If dense cells refuse nothing, parsing terminals under a test returns a chart, of
whatever cells it is. -/
theorem NeverUndefined.parse_returns [ScoreText S] {run : Run J S}
    (hdefined : chart.NeverUndefined sentence scorer run) (hshaped : chart.Shaped)
    (hg : chart.grammar.Indexed) (htype : chart.config.cellType ≠ .tieBreaking)
    (htokens : ∀ token ∈ sentence, token.index < chart.grammar.terminalCount)
    {p : CellPredicate S} (hp : Follows (chart.announced sentence) sentence.length p) :
    ∃ filled run', (chart.parse sentence scorer).outcome run = (.ok (.ok filled), run') := by
  have hends := parse_ends hshaped hg sentence scorer run
  have hstep := (akin_dense (J := J) sentence hshaped hg htype rfl rfl hshaped rfl).parse scorer
    run run (Run.Nearness.since_start rfl)
  cases hout : (chart.parse sentence scorer).outcome run with
  | mk result run' =>
  cases result with
  | error fault =>
    -- the only fault left to a parse is an undefined score, and the dense chart met none
    obtain ⟨rfl, _⟩ := (hends.of_outcome_error hout).meetsUndefined hp
    rw [hout] at hstep
    unfold NeverUndefined at hdefined
    generalize (chart.anewDense.parse sentence scorer).outcome run = dense at hstep hdefined
    refine absurd ?_ hdefined
    cases hstep with
    | error _ _ => rfl
    | stop hstop => rw [hstop]
  | ok result =>
    cases result with
    | ok filled => exact ⟨filled, run', rfl⟩
    | error e =>
      obtain ⟨token, htoken, hle⟩ := hends.of_outcome hout
      exact absurd (htokens token htoken) (Nat.not_lt.mpr hle)

/-- **The cell type makes no difference.** Two charts for one grammar, with cells of
any types without ties, used in any way before but constrained alike, parse a
sentence to the same end, unless an undefined score comes about: they meet the same
fault, or report the same error, or return charts that agree on everything. The
scorer and the constraint are asked the same questions in the same order. -/
theorem parse_representation [ScoreText S] (P : Type) [Probability P] [Sharing S P] [ScoreText P]
    (hg : g.Accepted) (h₁ : chart₁.Reachable J g config₁) (h₂ : chart₂.Reachable J g config₂)
    (hagg : config₁.aggregation = config₂.aggregation)
    (htype₁ : config₁.cellType ≠ .tieBreaking) (htype₂ : config₂.cellType ≠ .tieBreaking)
    (hconstraint : chart₁.constraint = chart₂.constraint) (sentence : List Symbol)
    (scorer : Scorer S) {run : Run J S} (hdefined : chart₁.NeverUndefined sentence scorer run) :
    ∃ result₁ result₂ run₁' run₂',
      (chart₁.parse sentence scorer).outcome run = (result₁, run₁') ∧
      (chart₂.parse sentence scorer).outcome run = (result₂, run₂') ∧
      run₁'.calls = run₂'.calls ∧
      Matched (fun _ => False) (Matched (fun _ => False) fun filled₁ filled₂ =>
        Agree J P filled₁ filled₂ ∧ filled₁.Ordered ∧ filled₂.Ordered) result₁ result₂ ∧
      ((∀ token ∈ sentence, token.index < g.terminalCount) → ∀ p : CellPredicate S,
        Follows (chart₁.announced sentence) sentence.length p →
        ∃ filled₁, result₁ = .ok (.ok filled₁)) := by
  obtain ⟨hshaped₁, rfl, rfl⟩ := h₁.shaped hg.indexed
  obtain ⟨hshaped₂, hgrammar, rfl⟩ := h₂.shaped hg.indexed
  have hstart : (Run.Nearness.since run.calls run.calls).Near run run :=
    Run.Nearness.since_start rfl
  have hstep₁ := (akin_dense (J := J) sentence hshaped₁ hg.indexed htype₁ rfl rfl hshaped₁
    rfl).parse scorer run run hstart
  have hstep₂ := (akin_dense (J := J) sentence hshaped₂ (hgrammar ▸ hg.indexed) htype₂ hgrammar
    hagg.symm hshaped₁ hconstraint).parse scorer run run hstart
  have hends₁ := parse_ends hshaped₁ hg.indexed sentence scorer run
  have hends₂ := parse_ends hshaped₂ (hgrammar ▸ hg.indexed) sentence scorer run
  have hend := hstep₁.join hstep₂ fun fault hfault hundef => hdefined (hundef ▸ hfault)
  cases hout₁ : (chart₁.parse sentence scorer).outcome run with
  | mk result₁ run₁' =>
  cases hout₂ : (chart₂.parse sentence scorer).outcome run with
  | mk result₂ run₂' =>
  rw [hout₁, hout₂] at hend
  obtain ⟨hresults, _, new, hcalls₁, hcalls₂⟩ := hend.results
  refine ⟨result₁, result₂, run₁', run₂', rfl, rfl, hcalls₁.trans hcalls₂.symm, ?_, ?_⟩
  · cases hresults with
    | error fault => exact .error fault
    | stop hstop => exact hstop.elim
    | ok hresult =>
      obtain ⟨_, hmatched₁, hmatched₂⟩ := hresult
      have hparsed₁ := hends₁.of_outcome hout₁
      have hparsed₂ := hends₂.of_outcome hout₂
      refine .ok ?_
      cases hmatched₁.join hmatched₂ fun _ _ => id with
      | error e => exact .error e
      | stop hstop => exact hstop.elim
      | ok htwins =>
        obtain ⟨_, htwins₁, htwins₂⟩ := htwins
        have hread := htwins₁.readAlike.join htwins₂.readAlike
        have hsame := htwins₁.grammar_eq.symm.trans htwins₂.grammar_eq
        exact .ok ⟨⟨hread.sameAnswers, fun _ run => Posterior.ofChart_eq hread hsame run⟩,
          hparsed₁.ordered, hparsed₂.ordered⟩
  · intro htokens p hp
    obtain ⟨filled₁, _, hreturn⟩ := hdefined.parse_returns hshaped₁ hg.indexed htype₁ htokens hp
    exact ⟨filled₁, congrArg Prod.fst (hout₁.symm.trans hreturn)⟩

/-- The small grammar over `a a`, with one map and with two maps for each cell. -/
theorem parse_representation_small :
    ∃ (g : Grammar ℚ≥0) (chart₁ chart₂ filled₁ filled₂ : Chart ℚ≥0 (CellPredicate ℚ≥0))
      (run₁' run₂' : Run Jitter ℚ≥0), g.Accepted ∧ chart₁.config.cellType = .hashed ∧
      chart₂.config.cellType = .doubleHashed ∧
      (chart₁.parse Grammar.Small.tokens .static).outcome (.start (.ofSeed 0)) =
        (.ok (.ok filled₁), run₁') ∧
      (chart₂.parse Grammar.Small.tokens .static).outcome (.start (.ofSeed 0)) =
        (.ok (.ok filled₂), run₂') ∧
      run₁'.calls = run₂'.calls ∧ Agree Jitter ℚ≥0 filled₁ filled₂ := by
  obtain ⟨g, _, hg, hcount, horder, _⟩ := Grammar.Small.accepted ℚ≥0 rfl rfl .rightChild
  have hnew₁ : (.vacant g ⟨.inside, .hashed, .rightChild⟩ :
      Chart ℚ≥0 (CellPredicate ℚ≥0)).Reachable Jitter g ⟨.inside, .hashed, .rightChild⟩ :=
    reachable_new rfl horder
  have hnew₂ : (.vacant g ⟨.inside, .doubleHashed, .rightChild⟩ :
      Chart ℚ≥0 (CellPredicate ℚ≥0)).Reachable Jitter g ⟨.inside, .doubleHashed, .rightChild⟩ :=
    reachable_new rfl horder
  have htokens : ∀ token ∈ Grammar.Small.tokens, token.index < g.terminalCount := by
    rw [hcount]
    decide
  have hdefined := neverUndefined (hnew₁.shaped hg.indexed).1 hg.indexed
    (follows_of_none rfl Grammar.Small.tokens _) (fun _ => rfl) .static
    (.start (.ofSeed 0) : Run Jitter ℚ≥0)
  obtain ⟨result₁, result₂, run₁', run₂', hout₁, hout₂, hcalls, hagree, hreturns⟩ :=
    parse_representation ℚ≥0 hg hnew₁ hnew₂ rfl (by decide) (by decide) rfl Grammar.Small.tokens
      .static hdefined
  obtain ⟨filled₁, rfl⟩ := hreturns htokens _ (follows_of_none rfl _ _)
  obtain ⟨_, rfl, hmatched⟩ := hagree.of_ok
  obtain ⟨filled₂, rfl, hagree, _⟩ := hmatched.of_ok
  exact ⟨g, _, _, filled₁, filled₂, run₁', run₂', hg, rfl, rfl, hout₁, hout₂, hcalls, hagree⟩

end ChartParsing.Chart
