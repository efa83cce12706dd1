import ChartParsing.Proofs.Inside.Recurrence

/-!
# Inside scores are sums over derivations

A parsed chart of inside scores holds, over every span, the symbols that have a
derivation, each with the sum of the weights of its derivations. Every derivation
counts exactly once: the step at its top is one of those that the cell has taken in
once, and the scores of its parts were complete by then.
-/

namespace ChartParsing

variable {S C J : Type} [Score S]

/-- The weight of a symbol over a span: its score if it is present, and zero
otherwise. -/
def Values.weight [CommSemiring S] (V : Values S) (sym : Symbol) (start stop : Nat) : S :=
  (V sym start stop).getD 0

/-- Among weights an absent symbol scores zero. -/
theorem Cell.score_eq_getD [CommSemiring S] [WeightScore S] (cell : Cell S) (sym : Symbol) :
    cell.score sym = (cell.value? sym).getD 0 := by
  rw [Cell.score_eq, WeightScore.impossible_eq]

/-- The score of an application is the weight of its step, and a step that does not
apply has none. -/
theorem Step.weight_eq [CommSemiring S] [WeightScore S] (V : Values S) (scorer : Scorer S)
    (st : Step S) :
    st.weight scorer V.weight = match st.application? V with
      | some a => a.score scorer st.start st.stop
      | none => 0 := by
  obtain ⟨r, s, mid, e⟩ := st
  unfold Step.weight Step.parts Step.application? Application.score Values.weight
  cases hrhs : r.rhs with
  | lexical t => exact one_mul _
  | unary y => cases hv : V y s e <;> simp [hv, WeightScore.combine_eq, Derivation.stepScore]
  | binary y z =>
    cases hv : V y s mid with
    | none => simp [hv]
    | some v =>
      cases hw : V z mid e <;> simp [hv, hw, WeightScore.combine_eq, Derivation.stepScore]

variable [CellConstraint C S]

/-- The application of a step enters if the step is admitted. -/
theorem AnswersAs.admits_offer {constraint : Option C} {length : Nat} {p : CellPredicate S}
    (hp : AnswersAs constraint length p) (hfree : p.ScoreFree) {start stop : Nat}
    (h₁ : start < stop) (h₂ : stop ≤ length) {V : Values S} {st : Step S}
    (hstart : st.start = start) (hstop : st.stop = stop) {a : Application S}
    (happ : st.application? V = some a) (scorer : Scorer S) :
    admits constraint start stop (a.offer scorer start stop) = p.admitsStep st := by
  obtain ⟨hrule, hmid⟩ := Step.application?_eq_some happ
  rw [hp.admits_eq h₁ h₂, CellPredicate.admitsStep, hstart, hstop, ← hrule, ← hmid]
  exact hfree _ _ _ _ _ _

/-- The offers that enter for a symbol, of all steps over a span, sum up to the
weights of the admitted steps for the symbol. -/
theorem sum_entering [CommSemiring S] [WeightScore S] {p : CellPredicate S} (hfree : p.ScoreFree)
    {constraint : Option C} {length : Nat} (hp : AnswersAs constraint length p) (V : Values S)
    (scorer : Scorer S) {start stop : Nat} (h₁ : start < stop) (h₂ : stop ≤ length) (sym : Symbol)
    {steps : List (Step S)} (hsteps : ∀ st ∈ steps, st.start = start ∧ st.stop = stop) :
    (((entering scorer constraint start stop (steps.filterMap (Step.application? V))).filter
      fun o => o.rule.parent = sym).map (·.score)).sum =
        ((steps.filter fun st => st.rule.parent = sym ∧ p.admitsStep st = true).map
          (Step.weight scorer V.weight)).sum := by
  induction steps with
  | nil => rfl
  | cons st steps ih =>
    have ih := ih fun st' hst' => hsteps st' (List.mem_cons_of_mem _ hst')
    obtain ⟨hstart, hstop⟩ := hsteps st List.mem_cons_self
    have hweight := Step.weight_eq V scorer st
    -- a step makes one offer, or none if it does not apply
    cases happ : st.application? V with
    | none =>
      rw [happ] at hweight
      rw [List.filterMap_cons_none happ, ih]
      by_cases hkeep : st.rule.parent = sym ∧ p.admitsStep st = true
      · rw [List.filter_cons_of_pos (by simpa using hkeep), List.map_cons, List.sum_cons, hweight,
          zero_add]
      · rw [List.filter_cons_of_neg (by simpa using hkeep)]
    | some a =>
      have hrule := (Step.application?_eq_some happ).1
      have hadmits := hp.admits_offer hfree h₁ h₂ hstart hstop happ scorer
      have hparent : (a.offer scorer start stop).rule.parent = st.rule.parent :=
        congrArg Rule.parent hrule
      rw [happ, hstart, hstop] at hweight
      rw [List.filterMap_cons_some happ, ← List.singleton_append, entering_append,
        List.filter_append, List.map_append, List.sum_append, ih]
      have hself : entering scorer constraint start stop [a] =
          if p.admitsStep st = true then [a.offer scorer start stop] else [] := by
        unfold entering
        rw [List.map_cons, List.map_nil, List.filter_cons, List.filter_nil, hadmits]
      rw [hself]
      by_cases hkeep : st.rule.parent = sym ∧ p.admitsStep st = true
      · rw [List.filter_cons_of_pos (by simpa using hkeep), if_pos hkeep.2,
          List.filter_cons_of_pos (by simpa [hparent] using hkeep.1), List.filter_nil,
          List.map_singleton, List.sum_singleton, List.map_cons, List.sum_cons, hweight]
        rfl
      · rw [List.filter_cons_of_neg (by simpa using hkeep)]
        by_cases hadm : p.admitsStep st = true
        · rw [if_pos hadm, List.filter_cons_of_neg (by
            simpa [hparent] using fun h => hkeep ⟨h, hadm⟩)]
          simp
        · rw [if_neg hadm]
          simp

namespace Chart

variable [JitterSource J] {chart chart' : Chart S C} {sentence : List Symbol} {scorer : Scorer S}
  {p : CellPredicate S}

/-- A complete cell that pools offers holds the sum of the admitted steps. -/
theorem Complete.sum_eq [CommSemiring S] [WeightScore S] {V : Values S} {start stop : Nat}
    {site : Site S} (h : chart.Complete J scorer V start stop site)
    (hagg : chart.config.aggregation = .inside) (htype : chart.config.cellType ≠ .tieBreaking)
    (hfree : p.ScoreFree) (hp : AnswersAs chart.constraint chart.sentence.length p)
    (h₁ : start < stop) (h₂ : stop ≤ chart.sentence.length) (sym : Symbol) :
    (site.cell.value? sym).getD 0 =
      ((chart.grammar.stepsFor chart.sentence p sym start stop).map
        (Step.weight scorer V.weight)).sum := by
  obtain ⟨cell, made, rfl, hafter, hperm⟩ := h
  rw [hagg] at hafter
  have hgather : cell.find? sym = gather .inside (entering scorer chart.constraint start stop made)
      sym := hafter.find?_eq_gather htype sym
  show ((cell.find? sym).map _).getD 0 = _
  rw [hgather, gather_inside, Grammar.stepsFor,
    ← sum_entering hfree hp V scorer h₁ h₂ sym (fun st hst => by
      obtain ⟨_, hs, he, _⟩ := Grammar.mem_steps.mp hst
      exact ⟨hs, he⟩)]
  exact ((((hperm.map _).filter _).filter _).map _).sum_eq

/-- A symbol is present in a complete cell if an admitted step for it applies. -/
theorem Complete.contains_iff {V : Values S} {start stop : Nat} {site : Site S}
    (h : chart.Complete J scorer V start stop site)
    (hfree : p.ScoreFree) (hp : AnswersAs chart.constraint chart.sentence.length p)
    (h₁ : start < stop) (h₂ : stop ≤ chart.sentence.length) (sym : Symbol) :
    site.cell.contains sym = true ↔
      ∃ st ∈ chart.grammar.stepsFor chart.sentence p sym start stop,
        (st.application? V).isSome = true := by
  obtain ⟨cell, made, rfl, hafter, hperm⟩ := h
  show cell.contains sym = true ↔ _
  rw [hafter.contains_iff]
  refine ⟨?_, ?_⟩
  · intro hx
    rcases hx with ⟨o, ho, hparent⟩
    obtain ⟨a, ha, hadm, rfl⟩ := mem_entering.mp ho
    obtain ⟨st, hst, happ⟩ := List.mem_filterMap.mp (hperm.mem_iff.mp ha)
    obtain ⟨_, hs, he, _⟩ := Grammar.mem_steps.mp hst
    rw [hp.admits_offer hfree h₁ h₂ hs he happ] at hadm
    refine ⟨st, Grammar.mem_stepsFor.mpr ⟨hst, ?_, hadm⟩, by rw [happ]; rfl⟩
    rw [← (Step.application?_eq_some happ).1]
    exact hparent
  · intro hx
    rcases hx with ⟨st, hst, happ⟩
    obtain ⟨hmem, hparent, hadm⟩ := Grammar.mem_stepsFor.mp hst
    obtain ⟨_, hs, he, _⟩ := Grammar.mem_steps.mp hmem
    obtain ⟨a, happ⟩ := Option.isSome_iff_exists.mp happ
    refine ⟨a.offer scorer start stop, mem_entering.mpr ⟨a, ?_, ?_, rfl⟩, ?_⟩
    · exact hperm.mem_iff.mpr (List.mem_filterMap.mpr ⟨st, hmem, happ⟩)
    · rw [hp.admits_offer hfree h₁ h₂ hs he happ]
      exact hadm
    · show a.rule.parent = sym
      rw [(Step.application?_eq_some happ).1]
      exact hparent

/-- The chart's own grammar, sentence and constraint are those it was parsed
with. -/
theorem Parsed.site {start stop : Nat} (h : chart.Parsed J sentence scorer chart')
    (h₁ : start < stop) (h₂ : stop ≤ sentence.length) :
    ∃ site, chart'.site start stop = .ok site ∧
      (∀ sym, chart'.values sym start stop = site.cell.value? sym) ∧
      chart'.Complete J scorer chart'.values start stop site := by
  obtain ⟨site, hsite, hcomplete⟩ := h.complete start stop h₁ h₂
  exact ⟨site, hsite, values_eq hsite (h.length_eq ▸ h₂), hcomplete⟩

/-- **The recurrence of inside scores.** -/
theorem Parsed.weight_eq [CommSemiring S] [WeightScore S]
    (h : chart.Parsed J sentence scorer chart') (hagg : chart.config.aggregation = .inside)
    (hfree : p.ScoreFree) (hp : Follows (chart.announced sentence) sentence.length p)
    {start stop : Nat} (h₁ : start < stop) (h₂ : stop ≤ sentence.length) (sym : Symbol) :
    chart'.values.weight sym start stop =
      ((chart.grammar.stepsFor sentence p sym start stop).map
        (Step.weight scorer chart'.values.weight)).sum := by
  obtain ⟨site, hsite, hvalue, hcomplete⟩ := h.site h₁ h₂
  have hagg' : chart'.config.aggregation = .inside := by rw [h.config_eq]; exact hagg
  -- pooling and breaking ties do not go together
  have htype : chart'.config.cellType ≠ .tieBreaking := by
    intro htie
    have hsupports := h.shaped.supports
    rw [htie, hagg'] at hsupports
    cases hsupports
  rw [← h.sentence_eq, ← h.grammar_eq, Values.weight, hvalue]
  exact hcomplete.sum_eq hagg' htype hfree (by rw [h.sentence_eq]; exact h.answersAs hp) h₁
    (by rw [h.sentence_eq]; exact h₂) sym

/-- **Inside scores are the total weights of derivations.** -/
theorem Parsed.weight_eq_totalWeight [CommSemiring S] [WeightScore S]
    (h : chart.Parsed J sentence scorer chart') (hg : chart.grammar.Indexed)
    (hagg : chart.config.aggregation = .inside) (hfree : p.ScoreFree)
    (hp : Follows (chart.announced sentence) sentence.length p) (sym : Symbol) (start stop : Nat) :
    start < stop → stop ≤ sentence.length → chart'.values.weight sym start stop =
      totalWeight chart.grammar sentence scorer p sym start stop := by
  induction sym, start, stop using chart.grammar.span_induction with
  | step sym start stop hnarrow hlower =>
    intro h₁ h₂
    rw [h.weight_eq hagg hfree hp h₁ h₂, totalWeight_eq hg hfree]
    refine congrArg List.sum (List.map_congr_left fun st hst => ?_)
    obtain ⟨hmem, rfl, _⟩ := Grammar.mem_stepsFor.mp hst
    obtain ⟨hr, hs, he, hmid⟩ := Grammar.mem_steps.mp hmem
    -- what a step reads is narrower or ranks lower, so the induction applies to it
    unfold Step.weight Step.parts
    rw [hs, he]
    cases hrhs : st.rule.rhs with
    | lexical t => rfl
    | unary y =>
      simp only [hlower y (hg.unaryRank_lt hr hrhs) h₁ h₂]
    | binary y z =>
      rw [hrhs] at hmid
      obtain ⟨hm₁, hm₂⟩ := Span.mem_splits.mp hmid
      simp only [hnarrow y start st.mid (by omega) hm₁ (by omega),
        hnarrow z st.mid stop (by omega) hm₂ h₂]

/-- **Symbols present are those with derivations.** -/
theorem Parsed.contains_iff (h : chart.Parsed J sentence scorer chart')
    (hg : chart.grammar.Indexed) (hfree : p.ScoreFree)
    (hp : Follows (chart.announced sentence) sentence.length p) (sym : Symbol) (start stop : Nat) :
    start < stop → stop ≤ sentence.length → ((∃ v, chart'.values sym start stop = some v) ↔
      (derivations chart.grammar sentence scorer p sym start stop).Nonempty) := by
  induction sym, start, stop using chart.grammar.span_induction with
  | step sym start stop hnarrow hlower =>
    intro h₁ h₂
    obtain ⟨site, hsite, hvalue, hcomplete⟩ := h.site h₁ h₂
    have hcontains := hcomplete.contains_iff hfree (by rw [h.sentence_eq]; exact h.answersAs hp)
      h₁ (by rw [h.sentence_eq]; exact h₂) sym
    rw [Cell.contains_iff_value?, h.grammar_eq, h.sentence_eq] at hcontains
    rw [hvalue, hcontains, derivations_nonempty_iff hg hfree]
    refine exists_congr fun st => and_congr_right fun hst => ?_
    obtain ⟨hmem, rfl, _⟩ := Grammar.mem_stepsFor.mp hst
    obtain ⟨hr, hs, he, hmid⟩ := Grammar.mem_steps.mp hmem
    -- a step applies if its parts are present, which means that they have derivations
    have hlist : ∀ {y : Symbol} {s e : Nat},
        ((∃ v, chart'.values y s e = some v) ↔
          (derivations chart.grammar sentence scorer p y s e).Nonempty) →
        ((chart'.values y s e).isSome = true ↔
          ∃ d, d ∈ derivationList chart.grammar sentence scorer p y s e) := by
      intro y s e hiff
      rw [Option.isSome_iff_exists, hiff]
      exact exists_congr fun d => (mem_listing (finite_derivations hg hfree _ _ _ _ _)).symm
    rw [Step.isSome_application?]
    unfold Step.expansions
    rw [hs, he]
    cases hrhs : st.rule.rhs with
    | lexical t => simp
    | unary y =>
      simp only [hlist (hlower y (hg.unaryRank_lt hr hrhs) h₁ h₂), List.mem_map]
      exact ⟨fun ⟨d, hd⟩ => ⟨_, d, hd, rfl⟩, fun ⟨_, d, hd, _⟩ => ⟨d, hd⟩⟩
    | binary y z =>
      rw [hrhs] at hmid
      obtain ⟨hm₁, hm₂⟩ := Span.mem_splits.mp hmid
      simp only [Bool.and_eq_true, hlist (hnarrow y start st.mid (by omega) hm₁ (by omega)),
        hlist (hnarrow z st.mid stop (by omega) hm₂ h₂), List.mem_flatMap, List.mem_map]
      refine ⟨?_, ?_⟩
      · intro hx
        rcases hx with ⟨⟨l, hl⟩, r, hr⟩
        exact ⟨_, l, hl, r, hr, rfl⟩
      · intro hx
        rcases hx with ⟨_, l, hl, r, hr, _⟩
        exact ⟨⟨l, hl⟩, r, hr⟩

/-- **Inside scores are sums over derivations.** Over every span the cell holds the
symbols that have an admitted derivation, and the score of a symbol, zero if it is
absent, is the sum of the weights of its admitted derivations, of which there are
finitely many. -/
theorem parse_inside [CommSemiring S] [WeightScore S] [ScoreText S] {g : Grammar S}
    (hg : g.Accepted) {config : ChartConfig} (hagg : config.aggregation = .inside)
    (hchart : chart.Reachable J g config)
    (hsentence : ∀ token ∈ sentence, token.index < g.terminalCount)
    (hp : Follows (chart.announced sentence) sentence.length p) (hfree : p.ScoreFree)
    (scorer : Scorer S) (run : Run J S) :
    ∃ chart' run', (chart.parse sentence scorer).outcome run = (.ok (.ok chart'), run') ∧
      ∀ sym start stop, start < stop → stop ≤ sentence.length →
        ∃ cell, chart'.cell start stop = .ok cell ∧
          (cell.contains sym = true ↔
            (derivations g sentence scorer p sym start stop).Nonempty) ∧
          (cell.contains sym = false → cell.score sym = 0) ∧
          (derivations g sentence scorer p sym start stop).Finite ∧
          cell.score sym =
            ∑ᶠ d ∈ derivations g sentence scorer p sym start stop, d.weight scorer := by
  obtain ⟨chart', run', hrun, hparsed⟩ :=
    hchart.parse_returns hg hsentence hp WeightScore.isUndefined_eq scorer run
  obtain ⟨_, rfl, rfl⟩ := hchart.shaped hg.indexed
  refine ⟨chart', run', hrun, fun sym start stop h₁ h₂ => ?_⟩
  obtain ⟨site, hsite, hvalue, _⟩ := hparsed.site h₁ h₂
  have hfinite := finite_derivations hg.indexed hfree sentence scorer sym start stop
  have hweight := hparsed.weight_eq_totalWeight hg.indexed hagg hfree hp sym start stop h₁ h₂
  have hcontains := hparsed.contains_iff hg.indexed hfree hp sym start stop h₁ h₂
  rw [hvalue, ← Cell.contains_iff_value?] at hcontains
  have hscore : site.cell.score sym = chart'.values.weight sym start stop := by
    rw [Values.weight, hvalue, Cell.score_eq_getD]
  refine ⟨site.cell, cell_eq hsite (hparsed.length_eq ▸ h₂), hcontains, ?_,
    hfinite, ?_⟩
  · intro hnot
    cases hv : site.cell.value? sym with
    | none => rw [Cell.score_eq_of_value?_none hv, WeightScore.impossible_eq]
    | some v =>
      rw [Cell.contains_iff_value?.mpr ⟨v, hv⟩] at hnot
      cases hnot
  · rw [hscore, hweight, totalWeight, sum_listing hfinite]

/-- Binary rules split at odd positions. -/
def oddSplits : CellPredicate ℕ := ⟨fun _ _ mid rule _ => !rule.isBinary || mid % 2 = 1⟩

/-- The small grammar over `a a`, where every rule weighs two. -/
theorem parse_inside_small :
    ∃ (g : Grammar ℕ) (chart chart' : Chart ℕ (CellPredicate ℕ)) (run' : Run Jitter ℕ),
      g.Accepted ∧ chart.constraint = some oddSplits ∧
      (chart.parse Grammar.Small.tokens ⟨fun _ _ _ _ => 2⟩).outcome (.start (.ofSeed 0)) =
        (.ok (.ok chart'), run') ∧
      ∀ sym start stop, start < stop → stop ≤ 2 → ∃ cell, chart'.cell start stop = .ok cell ∧
        (cell.contains sym = true ↔ (derivations g Grammar.Small.tokens ⟨fun _ _ _ _ => 2⟩
          oddSplits sym start stop).Nonempty) ∧
        (cell.contains sym = false → cell.score sym = 0) ∧
        (derivations g Grammar.Small.tokens ⟨fun _ _ _ _ => 2⟩ oddSplits sym start stop).Finite ∧
        cell.score sym = ∑ᶠ d ∈ derivations g Grammar.Small.tokens ⟨fun _ _ _ _ => 2⟩ oddSplits
          sym start stop, d.weight ⟨fun _ _ _ _ => 2⟩ := by
  obtain ⟨g, _, hg, hcount, horder, _⟩ := Grammar.Small.accepted ℕ rfl rfl .cartesianProduct
  have hnew : (.vacant g ⟨.inside, .hashed, .cartesianProduct⟩ :
      Chart ℕ (CellPredicate ℕ)).Reachable Jitter g ⟨.inside, .hashed, .cartesianProduct⟩ :=
    reachable_new rfl horder
  have htokens : ∀ token ∈ Grammar.Small.tokens, token.index < g.terminalCount := by
    rw [hcount]
    decide
  obtain ⟨chart', run', hrun, hcells⟩ := parse_inside hg rfl (hnew.constrain oddSplits) htokens
    (follows_of_some rfl _ _) (fun _ _ _ _ _ _ => rfl) ⟨fun _ _ _ _ => 2⟩ (.start (.ofSeed 0))
  exact ⟨g, _, chart', run', hg, rfl, hrun, hcells⟩

end Chart

end ChartParsing
