import ChartParsing.Proofs.Cell.Gather
import ChartParsing.Proofs.Chart.Soundness
import Mathlib.Order.Bounds.Basic

/-!
# Best derivations are best

With scores in a linear order a parsed chart holds, over every span, the symbols
that can be derived, each with the greatest score of its derivations. That such a
score is attained is soundness. That no derivation beats it goes by induction on
the derivation: what its parts score is no better than what the chart holds of
them, so an application to the latter was made and has the better score, and the
constraint, which turns nothing away for scoring better, let it in.
-/

namespace ChartParsing

variable {S C J : Type} [Score S] [CellConstraint C S] [JitterSource J]

/-- The predicate that accepts a score accepts any better one in its place. -/
def CellPredicate.UpwardClosed [LinearOrder S] (p : CellPredicate S) : Prop :=
  ∀ start stop mid rule (x y : S), x ≤ y → p.test start stop mid rule x = true →
    p.test start stop mid rule y = true

namespace Chart

variable {chart chart' : Chart S C} {sentence : List Symbol} {scorer : Scorer S}
  {p : CellPredicate S}

/-- A complete cell holds no less than any application admitted to it. -/
theorem Complete.score_le [LinearOrder S] [OrderedScore S] {V : Values S} {start stop : Nat}
    {site : Site S} (h : chart.Complete J scorer V start stop site)
    (hagg : chart.config.aggregation = .viterbi) (htype : chart.config.cellType ≠ .tieBreaking)
    {a : Application S} (ha : Applies chart.grammar chart.sentence V start stop a)
    (hadmits : admits chart.constraint start stop (a.offer scorer start stop) = true) :
    ∃ v, site.cell.value? a.rule.parent = some v ∧ a.score scorer start stop ≤ v := by
  obtain ⟨cell, made, rfl, hafter, hperm⟩ := h
  -- the application was made and let in, and the best of all that was let in is kept
  have hmade : a ∈ made := hperm.mem_iff.mpr (mem_applications.mpr ha)
  have hoffer : a.offer scorer start stop ∈ entering scorer chart.constraint start stop made :=
    mem_entering.mpr ⟨a, hmade, hadmits, rfl⟩
  rw [hagg] at hafter
  obtain ⟨e, he, hle⟩ := le_gather_viterbi hoffer
  refine ⟨e.score, ?_, hle⟩
  show (cell.find? _).map _ = _
  rw [hafter.find?_eq_gather htype]
  exact congrArg (Option.map Entry.score) he

/-- **No admitted derivation beats the chart.** -/
theorem Parsed.score_le [LinearOrder S] [OrderedScore S]
    (h : chart.Parsed J sentence scorer chart') (hagg : chart.config.aggregation = .viterbi)
    (htype : chart.config.cellType ≠ .tieBreaking)
    (hp : Follows (chart.announced sentence) sentence.length p) (hup : p.UpwardClosed)
    {d : Derivation S} (hvalid : d.Valid chart.grammar sentence) (hadmitted : d.Admitted scorer p) :
    ∃ v, chart'.values d.symbol d.start d.stop = some v ∧ d.score scorer ≤ v := by
  -- an application at the top of a derivation, to scores no worse than those of its parts
  have hstep : ∀ (d : Derivation S) (a : Application S), d.Valid chart.grammar sentence →
      d.TopAdmitted scorer p → a.rule = d.rule → a.mid = d.mid →
      Applies chart.grammar sentence chart'.values d.start d.stop a →
      d.score scorer ≤ a.score scorer d.start d.stop →
      ∃ v, chart'.values d.symbol d.start d.stop = some v ∧ d.score scorer ≤ v := by
    intro d a hvalid htop hrule hmid happlies hle
    obtain ⟨h₁, h₂⟩ := hvalid.span
    obtain ⟨site, hsite, hcomplete⟩ := h.complete d.start d.stop h₁ h₂
    rw [← h.grammar_eq, ← h.sentence_eq] at happlies
    obtain ⟨v, hv, hle'⟩ := hcomplete.score_le (by rw [h.config_eq]; exact hagg)
      (by rw [h.config_eq]; exact htype) happlies (by
        rw [(h.answersAs hp).admits_eq h₁ h₂]
        show p.test d.start d.stop a.mid a.rule (a.score scorer d.start d.stop) = true
        rw [hrule, hmid]
        exact hup _ _ _ _ _ _ hle htop)
    refine ⟨v, ?_, le_trans hle hle'⟩
    rw [values_eq hsite (h.length_eq ▸ h₂), Derivation.symbol, ← hrule]
    exact hv
  induction d with
  | lexical r position =>
    obtain ⟨hr, t, hrhs, ht⟩ := hvalid
    exact hstep (.lexical r position) ⟨r, position, none⟩ ⟨hr, t, hrhs, ht⟩ hadmitted.1 rfl rfl
      (.lexical hr hrhs rfl ht) (le_refl _)
  | unary r child ih =>
    obtain ⟨hr, hrhs, hchild⟩ := hvalid
    obtain ⟨v, hv, hle⟩ := ih hchild hadmitted.2
    exact hstep (.unary r child) ⟨r, child.stop, some v⟩ ⟨hr, hrhs, hchild⟩ hadmitted.1 rfl rfl
      (.unary hr hrhs hv) (OrderedScore.combine_le_combine hle (le_refl _))
  | binary r left right ihl ihr =>
    obtain ⟨hr, hrhs, hmid, hl, hrv⟩ := hvalid
    obtain ⟨hladmitted, hradmitted⟩ := hadmitted.2
    obtain ⟨v, hv, hlev⟩ := ihl hl hladmitted
    obtain ⟨w, hw, hlew⟩ := ihr hrv hradmitted
    have h₁ := hl.span
    have h₂ := hrv.span
    exact hstep (.binary r left right) ⟨r, left.stop, some (Score.combine v w)⟩
      ⟨hr, hrhs, hmid, hl, hrv⟩ hadmitted.1 rfl rfl
      (.binary hr hrhs h₁.1 (by rw [hmid]; exact h₂.1) hv (by rw [hmid]; exact hw))
      (OrderedScore.combine_le_combine (OrderedScore.combine_le_combine hlev hlew) (le_refl _))

/-- **A parse of best derivations is optimal.** Over every span the cell holds the
symbols that have an admitted derivation, each with the greatest score of its
admitted derivations. -/
theorem parse_optimal [LinearOrder S] [OrderedScore S] [ScoreText S] {g : Grammar S}
    (hg : g.Accepted) {config : ChartConfig} (hagg : config.aggregation = .viterbi)
    (htype : config.cellType ≠ .tieBreaking) (hchart : chart.Reachable J g config)
    (hsentence : ∀ token ∈ sentence, token.index < g.terminalCount)
    (hp : Follows (chart.announced sentence) sentence.length p) (hup : p.UpwardClosed)
    (scorer : Scorer S) (run : Run J S) :
    ∃ chart' run', (chart.parse sentence scorer).outcome run = (.ok (.ok chart'), run') ∧
      ∀ sym start stop, start < stop → stop ≤ sentence.length →
        ∃ cell, chart'.cell start stop = .ok cell ∧
          (cell.contains sym = true ↔
            (derivations g sentence scorer p sym start stop).Nonempty) ∧
          (cell.contains sym = true → IsGreatest
            (Derivation.score scorer '' derivations g sentence scorer p sym start stop)
            (cell.score sym)) := by
  obtain ⟨chart', run', hrun, hparsed⟩ :=
    hchart.parse_returns hg hsentence hp OrderedScore.isUndefined_eq scorer run
  obtain ⟨_, rfl, rfl⟩ := hchart.shaped hg.indexed
  refine ⟨chart', run', hrun, fun sym start stop h₁ h₂ => ?_⟩
  have hstop : stop ≤ chart'.length := hparsed.length_eq ▸ h₂
  obtain ⟨site, hsite, _⟩ := hparsed.complete start stop h₁ h₂
  have hvalue := values_eq hsite hstop
  -- scores are attained by derivations, and no derivation exceeds them
  have hattained := (hparsed.supported hagg).exists_derivation hg.indexed
    (hparsed.answersAs hp) sym start stop
  have hbound : ∀ d ∈ derivations chart.grammar sentence scorer p sym start stop,
      ∃ v, site.cell.value? sym = some v ∧ d.score scorer ≤ v := by
    intro d h
    rcases h with ⟨hvalid, hadmitted, rfl, rfl, rfl⟩
    rw [← hvalue]
    exact hparsed.score_le hagg htype hp hup hvalid hadmitted
  refine ⟨site.cell, cell_eq hsite hstop, ⟨?_, ?_⟩, ?_⟩
  · intro hc
    obtain ⟨v, hv⟩ := Cell.contains_iff_value?.mp hc
    obtain ⟨d, hd, _⟩ := hattained v ((hvalue sym).trans hv)
    exact ⟨d, hd⟩
  · intro h
    rcases h with ⟨d, hd⟩
    obtain ⟨v, hv, _⟩ := hbound d hd
    exact Cell.contains_iff_value?.mpr ⟨v, hv⟩
  · intro hc
    obtain ⟨v, hv⟩ := Cell.contains_iff_value?.mp hc
    rw [Cell.score_eq_of_value? hv]
    refine ⟨hattained v ((hvalue sym).trans hv), ?_⟩
    intro _ h
    rcases h with ⟨d, hd, rfl⟩
    obtain ⟨w, hw, hle⟩ := hbound d hd
    cases hv.symm.trans hw
    exact hle

/-- Every rule costs one. -/
def unitCost : Scorer (WithBot ℚ) := ⟨fun _ _ _ _ => ((-1 : ℚ) : WithBot ℚ)⟩

/-- Costs of up to four are accepted. -/
def atMostFour : CellPredicate (WithBot ℚ) :=
  ⟨fun _ _ _ _ score => decide (((-4 : ℚ) : WithBot ℚ) ≤ score)⟩

/-- The small grammar over `a a`, with a limit on costs. -/
theorem parse_optimal_small :
    ∃ (g : Grammar (WithBot ℚ)) (chart chart' : Chart (WithBot ℚ) (CellPredicate (WithBot ℚ)))
      (run' : Run Jitter (WithBot ℚ)), g.Accepted ∧ chart.constraint = some atMostFour ∧
      (chart.parse Grammar.Small.tokens unitCost).outcome (.start (.ofSeed 0)) =
        (.ok (.ok chart'), run') ∧
      ∀ sym start stop, start < stop → stop ≤ 2 → ∃ cell, chart'.cell start stop = .ok cell ∧
        (cell.contains sym = true ↔
          (derivations g Grammar.Small.tokens unitCost atMostFour sym start stop).Nonempty) ∧
        (cell.contains sym = true → IsGreatest (Derivation.score unitCost ''
          derivations g Grammar.Small.tokens unitCost atMostFour sym start stop)
          (cell.score sym)) := by
  obtain ⟨g, _, hg, hcount, horder, _⟩ := Grammar.Small.accepted (WithBot ℚ) rfl rfl .leftChild
  have hnew : (.vacant g ⟨.viterbi, .full, .leftChild⟩ :
      Chart (WithBot ℚ) (CellPredicate (WithBot ℚ))).Reachable Jitter g
        ⟨.viterbi, .full, .leftChild⟩ := reachable_new rfl horder
  have htokens : ∀ token ∈ Grammar.Small.tokens, token.index < g.terminalCount := by
    rw [hcount]
    decide
  obtain ⟨chart', run', hrun, hcells⟩ := parse_optimal hg rfl (by decide)
    (hnew.constrain atMostFour) htokens (follows_of_some rfl _ _)
    (fun _ _ _ _ _ _ hle hx => decide_eq_true (le_trans (of_decide_eq_true hx) hle))
    unitCost (.start (.ofSeed 0))
  exact ⟨g, _, chart', run', hg, rfl, hrun, hcells⟩

end Chart

end ChartParsing
