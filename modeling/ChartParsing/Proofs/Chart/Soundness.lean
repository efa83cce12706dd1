import ChartParsing.Proofs.Chart.Filled
import ChartParsing.Proofs.Derivation

/-!
# Best scores are scores of derivations

In a chart of best derivations every score is that of an application to other
scores of the chart. Going down from application to application ends, since spans
get narrower or symbols rank lower, and what was gone through is a derivation with
the score one started from.

A parse that does not return has met an undefined score, so it returns if there is
none.
-/

namespace ChartParsing

variable {S C J : Type} [Score S]

/-- An application to scores of derivations is the top of a derivation. -/
theorem Applies.exists_derivation {g : Grammar S} {sentence : List Symbol} {V : Values S}
    {start stop : Nat} {a : Application S} (h : Applies g sentence V start stop a)
    (scorer : Scorer S) (p : CellPredicate S)
    (hlower : ∀ y v, a.rule.rhs = .unary y → V y start stop = some v →
      ∃ d ∈ derivations g sentence scorer p y start stop, d.score scorer = v)
    (hnarrow : ∀ y s e v, e - s < stop - start → V y s e = some v →
      ∃ d ∈ derivations g sentence scorer p y s e, d.score scorer = v) :
    ∃ d : Derivation S, d.Valid g sentence ∧ d.PartsAdmitted scorer p ∧ d.rule = a.rule ∧
      d.start = start ∧ d.mid = a.mid ∧ d.stop = stop ∧
        d.score scorer = a.score scorer start stop := by
  cases h with
  | lexical hr hrhs hstop ht =>
    subst hstop
    exact ⟨.lexical _ start, ⟨hr, _, hrhs, ht⟩, trivial, rfl, rfl, rfl, rfl, rfl⟩
  | unary hr hrhs hv =>
    obtain ⟨d, ⟨hvalid, hadmitted, rfl, rfl, rfl⟩, rfl⟩ := hlower _ _ hrhs hv
    exact ⟨.unary _ d, ⟨hr, hrhs, hvalid⟩, hadmitted, rfl, rfl, rfl, rfl, rfl⟩
  | binary hr hrhs h₁ h₂ hv hw =>
    obtain ⟨l, ⟨hlvalid, hladmitted, rfl, rfl, rfl⟩, rfl⟩ :=
      hnarrow _ _ _ _ (by omega) hv
    obtain ⟨r, ⟨hrvalid, hradmitted, rfl, hrstart, rfl⟩, rfl⟩ :=
      hnarrow _ _ _ _ (by omega) hw
    exact ⟨.binary _ l r, ⟨hr, hrhs, hrstart.symm, hlvalid, hrvalid⟩, ⟨hladmitted, hradmitted⟩,
      rfl, rfl, rfl, rfl, rfl⟩

variable [CellConstraint C S]

/-- **A supported score is the score of a derivation.** -/
theorem Supported.exists_derivation {g : Grammar S} (hg : g.Indexed) {sentence : List Symbol}
    {scorer : Scorer S} {constraint : Option C} {p : CellPredicate S}
    (hp : AnswersAs constraint sentence.length p) {V : Values S}
    (h : Supported g sentence scorer constraint V) (sym : Symbol) (start stop : Nat) :
    ∀ v, V sym start stop = some v →
      ∃ d ∈ derivations g sentence scorer p sym start stop, d.score scorer = v := by
  induction sym, start, stop using g.span_induction with
  | step sym start stop hnarrow hlower =>
    intro v hv
    obtain ⟨a, happlies, rfl, hadmits, rfl⟩ := h sym start stop v hv
    -- unary rules lead to lower ranks, binary ones to narrower spans
    obtain ⟨d, hvalid, hparts, hrule, rfl, hmid, rfl, hscore⟩ :=
      happlies.exists_derivation scorer p
        (fun y v hy hv => hlower y (hg.unaryRank_lt happlies.rule_mem hy) v hv)
        (fun y s e v hlt hv => hnarrow y s e hlt v hv)
    obtain ⟨h₁, h₂⟩ := hvalid.span
    rw [hp.admits_eq h₁ h₂] at hadmits
    refine ⟨d, ⟨hvalid, ⟨?_, hparts⟩, by rw [Derivation.symbol, hrule], rfl, rfl⟩, hscore⟩
    unfold Derivation.TopAdmitted
    rw [hrule, hmid, hscore]
    exact hadmits

namespace Chart

variable [JitterSource J] {chart chart' : Chart S C} {sentence : List Symbol} {scorer : Scorer S}

/-- A best entry of a complete cell is that of an application to the scores of the
chart. -/
theorem Complete.exists_application {V : Values S} {start stop : Nat} {site : Site S}
    (h : chart.Complete J scorer V start stop site) (hagg : chart.config.aggregation = .viterbi)
    {sym : Symbol} {e : Entry S} (he : site.cell.find? sym = some e) :
    ∃ a, Applies chart.grammar chart.sentence V start stop a ∧ a.rule.parent = sym ∧
      admits chart.constraint start stop (a.offer scorer start stop) = true ∧
        e = (a.offer scorer start stop).entry .viterbi := by
  obtain ⟨cell, made, rfl, hafter, hperm⟩ := h
  rw [hagg] at hafter
  obtain ⟨o, ho, hparent, rfl⟩ := hafter.exists_offer he
  obtain ⟨a, ha, hadmits, rfl⟩ := mem_entering.mp ho
  exact ⟨a, mem_applications.mp (hperm.mem_iff.mp ha), hparent, hadmits, rfl⟩

/-- **The scores of a parsed chart are supported.** -/
theorem Parsed.supported (h : chart.Parsed J sentence scorer chart')
    (hagg : chart.config.aggregation = .viterbi) :
    Supported chart.grammar sentence scorer chart'.constraint chart'.values := by
  intro sym start stop v hv
  have hspan := span_of_values hv
  unfold length at hspan
  rw [h.sentence_eq] at hspan
  obtain ⟨site, hsite, hcomplete⟩ := h.complete start stop hspan.1 hspan.2
  rw [values_eq hsite (h.length_eq ▸ hspan.2)] at hv
  obtain ⟨e, he, rfl⟩ := Option.map_eq_some_iff.mp hv
  obtain ⟨a, happlies, hparent, hadmits, rfl⟩ :=
    hcomplete.exists_application (by rw [h.config_eq]; exact hagg) he
  rw [h.grammar_eq, h.sentence_eq] at happlies
  exact ⟨a, happlies, hparent, hadmits, rfl⟩

/-- While a cell is being filled, too, all scores are supported: those of the cells that
are done, and those that the cell holds by now. -/
theorem Filling.supported {done rest : List (Nat × Nat)} {start stop : Nat}
    {past : List (Event S)} {made : List (Application S)} {site : Site S} {run : Run J S}
    {a : Application S} (h : chart.Filling J scorer done)
    (hagg : chart.config.aggregation = .viterbi)
    (hsplit : Span.narrowFirst chart.length = done ++ (start, stop) :: rest)
    (hturn : chart.Turn scorer start stop past made site run a) :
    Supported chart.grammar chart.sentence scorer chart.constraint
      (chart.values.set start stop site.cell) := by
  intro sym s e v hv
  by_cases hspan : s = start ∧ e = stop
  · obtain ⟨rfl, rfl⟩ := hspan
    rw [Values.set_self] at hv
    obtain ⟨entry, hentry, rfl⟩ := Option.map_eq_some_iff.mp hv
    have hafter := hturn.holding.after
    rw [Site.Made, hturn.holding.start_eq, hturn.holding.stop_eq, hagg] at hafter
    obtain ⟨o, ho, hparent, rfl⟩ := hafter.exists_offer hentry
    obtain ⟨b, hb, hadmits, rfl⟩ := mem_entering.mp ho
    exact ⟨b, hturn.applies b (List.mem_append_left _ hb), hparent, hadmits, rfl⟩
  · rw [Values.set_of_ne _ _ _ hspan] at hv
    obtain ⟨h₁, h₂⟩ := span_of_values hv
    by_cases hdone : (s, e) ∈ done
    · obtain ⟨old, hold, hcomplete⟩ := h.complete s e hdone
      rw [values_eq hold h₂] at hv
      obtain ⟨entry, hentry, rfl⟩ := Option.map_eq_some_iff.mp hv
      obtain ⟨b, happlies, hparent, hadmits, rfl⟩ := hcomplete.exists_application hagg hentry
      exact ⟨b, happlies.congr (set_within_done hsplit hdone chart.values site.cell), hparent,
        hadmits, rfl⟩
    · rw [values_eq (h.blank s e h₁ h₂ hdone) h₂, value?_newSite] at hv
      cases hv

/-- **An undefined score that a parse for best derivations meets is that of a
derivation**, from parts that are admitted. -/
theorem MeetsUndefined.exists_derivation {run run' : Run J S} {p : CellPredicate S}
    (h : chart.MeetsUndefined sentence scorer run run') (hg : chart.grammar.Indexed)
    (hagg : chart.config.aggregation = .viterbi)
    (hp : Follows (chart.announced sentence) sentence.length p) :
    ∃ d : Derivation S, d.Valid chart.grammar sentence ∧ d.PartsAdmitted scorer p ∧
      Score.isUndefined (d.score scorer) = true := by
  obtain ⟨⟨start, stop⟩, held, run₁, hcomes, made, site, a, run₂, hturn, hrefuses, _⟩ := h
  obtain ⟨_, _, done, rest, _, hsplit, _, hfilling⟩ := hcomes.reached
  have hgrammar := hcomes.grammar_eq
  have hsentence := hcomes.sentence_eq
  have hheld : held.config.aggregation = .viterbi := by rw [hcomes.config_eq, hagg]
  have hanswers := hp.answersAs hcomes.constraint_eq
  rw [← hsentence] at hsplit
  have hsupported := hfilling.supported hheld hsplit hturn
  have happlies := hturn.applies a (List.mem_append_right _ (List.mem_singleton_self a))
  rw [hgrammar, hsentence] at hsupported happlies
  obtain ⟨d, hvalid, hparts, _, _, _, _, hscore⟩ := happlies.exists_derivation scorer p
    (fun y v _ hv => hsupported.exists_derivation hg hanswers y start stop v hv)
    (fun y s e v _ hv => hsupported.exists_derivation hg hanswers y s e v hv)
  refine ⟨d, hvalid, hparts, ?_⟩
  -- nothing is pooled, so it is the offer itself that is undefined
  rw [hscore]
  rcases hrefuses.spoils with hundef | ⟨hinside, _⟩
  · rw [hturn.holding.start_eq, hturn.holding.stop_eq] at hundef
    exact hundef
  · cases hheld.symm.trans hinside

/-- What is admitted of all that applies makes its symbol present. -/
theorem Parsed.exists_value (h : chart.Parsed J sentence scorer chart') {p : CellPredicate S}
    (hp : Follows (chart.announced sentence) sentence.length p) {start stop : Nat}
    {a : Application S} (ha : Applies chart.grammar sentence chart'.values start stop a)
    (hadmits : p.test start stop a.mid a.rule (a.score scorer start stop) = true) :
    ∃ v, chart'.values a.rule.parent start stop = some v := by
  obtain ⟨h₁, h₂⟩ := ha.span fun hv => by
    have hspan := span_of_values hv
    rw [h.length_eq] at hspan
    exact hspan
  obtain ⟨site, hsite, cell, made, rfl, hafter, hperm⟩ := h.complete start stop h₁ h₂
  rw [h.grammar_eq, h.sentence_eq] at hperm
  have henters : a.offer scorer start stop ∈ entering scorer chart'.constraint start stop made :=
    mem_entering.mpr ⟨a, hperm.mem_iff.mpr (mem_applications.mpr ha),
      ((h.answersAs hp).admits_eq h₁ h₂ _).trans hadmits, rfl⟩
  rw [values_eq hsite (h.length_eq ▸ h₂)]
  exact Cell.contains_iff_value?.mp ((hafter.contains_iff _).mpr ⟨_, henters, rfl⟩)

/-- A sentence of terminals is parsed, unless the parse meets an undefined score. -/
theorem Shaped.parse_parsed [ScoreText S] (h : chart.Shaped) (hg : chart.grammar.Indexed)
    (hsentence : ∀ token ∈ sentence, token.index < chart.grammar.terminalCount)
    {p : CellPredicate S} (hp : Follows (chart.announced sentence) sentence.length p)
    (scorer : Scorer S) (run : Run J S) :
    (∃ chart' run', (chart.parse sentence scorer).outcome run = (.ok (.ok chart'), run') ∧
      chart.Parsed J sentence scorer chart') ∨
    ∃ run', (chart.parse sentence scorer).outcome run = (.error .undefinedScore, run') ∧
      chart.MeetsUndefined sentence scorer run run' := by
  have hends := parse_ends h hg sentence scorer run
  cases hrun : (chart.parse sentence scorer).outcome run with
  | mk result run' =>
  -- a parse ends at a fault, at a token it does not know, or with a chart
  match result with
  | .error fault =>
    obtain ⟨rfl, hmeets⟩ := (hends.of_outcome_error hrun).meetsUndefined hp
    exact Or.inr ⟨run', rfl, hmeets⟩
  | .ok (.error e) =>
    obtain ⟨token, htoken, hle⟩ := hends.of_outcome hrun
    exact absurd (hsentence token htoken) (Nat.not_lt.mpr hle)
  | .ok (.ok chart') => exact Or.inl ⟨chart', run', rfl, hends.of_outcome hrun⟩

/-- **With all scores defined, parsing returns** for a chart in use and a sentence
over the grammar's terminals. -/
theorem Reachable.parse_returns [ScoreText S] {g : Grammar S} {config : ChartConfig}
    (h : chart.Reachable J g config) (hg : g.Accepted)
    (hsentence : ∀ token ∈ sentence, token.index < g.terminalCount) {p : CellPredicate S}
    (hp : Follows (chart.announced sentence) sentence.length p)
    (hdefined : ∀ x : S, Score.isUndefined x = false) (scorer : Scorer S) (run : Run J S) :
    ∃ chart' run', (chart.parse sentence scorer).outcome run = (.ok (.ok chart'), run') ∧
      chart.Parsed J sentence scorer chart' := by
  obtain ⟨hshaped, rfl, rfl⟩ := h.shaped hg.indexed
  rcases hshaped.parse_parsed hg.indexed hsentence hp scorer run with hparsed | ⟨_, _, hmeets⟩
  · exact hparsed
  · obtain ⟨x, hx⟩ := hmeets.exists_undefined
    rw [hdefined] at hx
    cases hx

end Chart

end ChartParsing
