import ChartParsing.Proofs.LoopOrder.Scores
import ChartParsing.Proofs.Outside.Returns
import ChartParsing.Proofs.Score.Laws

/-!
# The loop order makes no difference

Charts filled in different loop orders hold the same scores, so in their cells the same
symbols are present. Cells of pooled scores have nothing else to them. They read alike,
and then the outside passes over them leave each split in the same state. Back pointers
to best derivations may differ, where several are equally good.
-/

namespace ChartParsing

variable {S P C J : Type} [Score S]

/-! ## Cells with the same scores -/

/-- Two closed cells that hold the same scores. -/
structure Cell.Level (c d : Cell S) : Prop where
  value?_eq : ∀ sym, c.value? sym = d.value? sym
  shut : c.Shut
  shut' : d.Shut

namespace Cell.Level

variable {c d : Cell S} (h : c.Level d)

include h

theorem contains_eq (sym : Symbol) : c.contains sym = d.contains sym := by
  rw [Bool.eq_iff_iff, contains_iff_value?, contains_iff_value?, h.value?_eq]

theorem score_eq (sym : Symbol) : c.score sym = d.score sym := by
  cases hv : c.value? sym with
  | none =>
    rw [score_eq_of_value?_none hv, score_eq_of_value?_none ((h.value?_eq sym).symm.trans hv)]
  | some v => rw [score_eq_of_value? hv, score_eq_of_value? ((h.value?_eq sym).symm.trans hv)]

theorem symbols_eq : c.symbols = d.symbols := by
  rw [h.shut.symbols_eq, h.shut'.symbols_eq]
  refine congrArg Except.ok (eq_of_increasing h.shut.tidy.pairwise_symbols
    h.shut'.tidy.pairwise_symbols fun sym => ?_)
  rw [h.shut.mem_symbols, h.shut'.mem_symbols, h.value?_eq]

end Cell.Level

namespace Chart

/-- Two charts with the same symbols present over every span, and with the same scores. -/
structure SameScores (chart chart' : Chart S C) : Prop where
  contains : ∀ sym start stop, (chart.cell start stop).map (·.contains sym) =
    (chart'.cell start stop).map (·.contains sym)
  score : ∀ sym start stop, chart.score sym start stop = chart'.score sym start stop
  symbols : ∀ start stop, chart.cell start stop >>= Cell.symbols =
    chart'.cell start stop >>= Cell.symbols
  rootScore? : chart.rootScore? = chart'.rootScore?

variable [CellConstraint C S] [JitterSource J]
  {chart filled chart₁ chart₂ filled₁ filled₂ : Chart S C} {sentence : List Symbol}
  {scorer : Scorer S}

section

variable (h₁ : chart₁.Parsed J sentence scorer filled₁)
  (h₂ : chart₂.Parsed J sentence scorer filled₂)
  (hvalues : ∀ sym start stop, filled₁.values sym start stop = filled₂.values sym start stop)

include h₁ h₂ hvalues

/-- Over every span both charts have cells that hold the same scores, or neither has a
cell. -/
theorem Parsed.cell_level (start stop : Nat) :
    Matched (fun _ => False) (fun c d : Cell S => c.Level d ∧
        filled₁.cell start stop = .ok c ∧ filled₂.cell start stop = .ok d)
      (filled₁.cell start stop) (filled₂.cell start stop) := by
  have hlength : filled₁.length = filled₂.length := h₁.length_eq.trans h₂.length_eq.symm
  by_cases hspan : start < stop ∧ stop ≤ filled₁.length
  · obtain ⟨site, hcell, hcomplete⟩ := h₁.exists_cell hspan.1 hspan.2
    obtain ⟨site', hcell', hcomplete'⟩ := h₂.exists_cell hspan.1 (hlength ▸ hspan.2)
    rw [hcell, hcell']
    refine .ok ⟨⟨fun sym => ?_, hcomplete.shut, hcomplete'.shut⟩, rfl, rfl⟩
    rw [← values_of_cell hcell, ← values_of_cell hcell']
    exact hvalues sym start stop
  · unfold Chart.cell
    rw [← hlength, if_neg hspan, if_neg hspan]
    exact .error _

/-- A question about the cell of a span that the scores answer. -/
theorem Parsed.bind_cell_eq {α : Type} {f : Cell S → Except Fault α}
    (hf : ∀ c d : Cell S, c.Level d → f c = f d) (start stop : Nat) :
    filled₁.cell start stop >>= f = filled₂.cell start stop >>= f := by
  refine ((h₁.cell_level h₂ hvalues start stop).bind fun c d hcd => ?_).eq
  rw [hf c d hcd.1]
  exact .refl _

/-- **Parsed charts with the same values give the same scores.** -/
theorem Parsed.sameScores (hroot : chart₁.grammar.root = chart₂.grammar.root) :
    filled₁.SameScores filled₂ := by
  have hcells := fun {α : Type} {f : Cell S → Except Fault α} => h₁.bind_cell_eq h₂ hvalues (f := f)
  refine ⟨fun sym start stop => ?_, fun sym start stop => ?_, fun start stop => ?_, ?_⟩
  · exact hcells (f := fun c => .ok (c.contains sym))
      (fun _ _ hcd => congrArg Except.ok (hcd.contains_eq sym)) start stop
  · exact hcells (fun _ _ hcd => congrArg Except.ok (hcd.score_eq sym)) start stop
  · exact hcells (fun _ _ hcd => hcd.symbols_eq) start stop
  · unfold Chart.rootScore?
    rw [h₁.length_eq, h₂.length_eq, h₁.grammar_eq, h₂.grammar_eq, hroot]
    split
    · rfl
    · refine hcells (fun c d hcd => ?_) 0 sentence.length
      rw [hcd.contains_eq, hcd.score_eq]

end

/-- A parsed chart can be read. -/
theorem Parsed.readable_plain (h : chart.Parsed J sentence scorer filled)
    (hg : chart.grammar.Indexed) (htype : chart.config.cellType ≠ .tieBreaking) :
    filled.Readable := by
  have hlength : filled.length = sentence.length := h.length_eq
  refine ⟨by rw [h.grammar_eq]; exact hg, fun start stop h₁ h₂ => ?_, fun sym start stop v hv => ?_⟩
  · obtain ⟨site, hcell, hcomplete⟩ := h.exists_cell h₁ h₂
    exact ⟨site.cell, hcell, hcomplete.shut⟩
  · obtain ⟨h₁, h₂⟩ := span_of_values hv
    obtain ⟨made, _, hmem, hvalues⟩ := h.values_eq_gather hg htype h₁ (hlength ▸ h₂)
    -- a score comes from an application of a rule for the symbol
    rw [hvalues, gather_score] at hv
    cases hoffers : (entering scorer filled.constraint start stop made).filter
        fun o => o.rule.parent = sym with
    | nil =>
      rw [hoffers] at hv
      cases hv
    | cons o rest =>
      have ho : o ∈ (entering scorer filled.constraint start stop made).filter
          fun o => o.rule.parent = sym := by rw [hoffers]; exact List.mem_cons_self
      obtain ⟨ho, hparent⟩ := List.mem_filter.mp ho
      obtain ⟨a, ha, rfl⟩ := List.mem_map.mp (List.mem_of_mem_filter ho)
      rw [← of_decide_eq_true hparent, h.grammar_eq]
      exact hg.parent_lt _ ((hmem a).mp ha).rule_mem

/-- In a chart of pooled scores, cells have no back pointers. -/
theorem Parsed.pooled (h : chart.Parsed J sentence scorer filled)
    (htype : chart.config.cellType ≠ .tieBreaking) (hagg : chart.config.aggregation = .inside)
    {start stop : Nat} {cell : Cell S} (hcell : filled.cell start stop = .ok cell) :
    cell.aggregation = .inside ∧
      ∀ sym e, cell.find? sym = some e → e.backPointer = .untracked := by
  obtain ⟨h₁, h₂⟩ := span_of_cell hcell
  obtain ⟨_, hcell', cell', made, rfl, hafter, _⟩ := h.exists_cell h₁ h₂
  cases hcell.symm.trans hcell'
  rw [h.config_eq, hagg] at hafter
  exact ⟨hafter.shape.2.1, fun sym e he =>
    gather_untracked ((hafter.find?_eq_gather htype sym).symm.trans he)⟩

namespace Reordered

variable (h : Reordered J sentence scorer chart₁ filled₁ chart₂ filled₂)

include h

theorem readable₁ : filled₁.Readable := h.parsed₁.readable_plain h.indexed₁ h.plain₁

theorem readable₂ : filled₂.Readable := h.parsed₂.readable_plain h.indexed₂ h.plain₂

/-- **Charts for different loop orders give the same scores.** -/
theorem sameScores : filled₁.SameScores filled₂ := by
  obtain ⟨binary, hgrammar⟩ := h.grammar_eq
  exact h.parsed₁.sameScores h.parsed₂ h.values_eq (by rw [hgrammar])

/-- Charts of pooled scores read alike. -/
theorem readAlike (hagg : chart₁.config.aggregation = .inside) : filled₁.ReadAlike filled₂ := by
  obtain ⟨binary, hgrammar⟩ := h.grammar_eq
  have hagg₂ : chart₂.config.aggregation = .inside := h.aggregation_eq.symm.trans hagg
  refine ⟨⟨binary, by rw [h.parsed₂.grammar_eq, h.parsed₁.grammar_eq, hgrammar]⟩, ?_, ?_,
    fun start stop => (h.parsed₁.cell_level h.parsed₂ h.values_eq start stop).imp
      fun c d hcd => ?_⟩
  · rw [h.parsed₁.config_eq, h.parsed₂.config_eq, h.aggregation_eq]
  · rw [h.parsed₁.sentence_eq, h.parsed₂.sentence_eq]
  obtain ⟨hlevel, hc, hd⟩ := hcd
  obtain ⟨hinside, huntracked⟩ := h.parsed₁.pooled h.plain₁ hagg hc
  obtain ⟨hinside', huntracked'⟩ := h.parsed₂.pooled h.plain₂ hagg₂ hd
  refine Cell.reading_eq (hinside.trans hinside'.symm) (fun sym => ?_) ?_
  · -- without a back pointer, an entry is its score
    have hvalue := hlevel.value?_eq sym
    unfold Cell.value? at hvalue
    cases hfc : c.find? sym with
    | none =>
      rw [hfc] at hvalue
      exact (Option.map_eq_none_iff.mp hvalue.symm).symm
    | some e =>
      rw [hfc] at hvalue
      obtain ⟨e', hfd, hscore⟩ := Option.map_eq_some_iff.mp hvalue.symm
      have hpointer := (huntracked sym e hfc).trans (huntracked' sym e' hfd).symm
      obtain ⟨v, pointer⟩ := e
      obtain ⟨v', pointer'⟩ := e'
      cases hscore
      cases hpointer
      exact hfd.symm
  · have hpresent : ∀ {cell : Cell S} {syms : List Symbol}, cell.symbols = .ok syms →
        cell.present = some syms := by
      intro cell syms hsyms
      unfold Cell.symbols at hsyms
      split at hsyms
      · cases hsyms
        assumption
      · cases hsyms
    rw [hpresent hlevel.shut.symbols_eq,
      hpresent (hlevel.symbols_eq ▸ hlevel.shut.symbols_eq)]

/-- **Charts for different loop orders have the same posterior**, and both passes
return it. -/
theorem posterior_eq [ScoreText S] [Probability P] [Sharing S P] [ScoreText P]
    (hagg : chart₁.config.aggregation = .inside) (scorer' : Scorer S) (run₁ run₂ : Run J S) :
    ∃ (post : Posterior S P) (run₁' run₂' : Run J S),
      (Posterior.ofChart filled₁ scorer').outcome run₁ = (.ok (.ok post), run₁') ∧
      (Posterior.ofChart filled₂ scorer').outcome run₂ = (.ok (.ok post), run₂') := by
  have hfree : Aggregation.inside.OrderFree S := hagg ▸ h.orderFree
  have hread := h.readAlike hagg
  have hagg' : filled₁.config.aggregation = .inside := by rw [h.parsed₁.config_eq, hagg]
  obtain ⟨result, run₁', hout₁, post, rfl⟩ :=
    (Posterior.ofChart_returns (P := P) h.readable₁ hagg' scorer' run₁).returns
  have hstep : Effect.Lockstep (.any : Run.Nearness J S) (fun _ => False)
      (Posterior.ofChart filled₁ scorer' : Effect J S (Except ChartError (Posterior S P)))
      (Posterior.ofChart filled₂ scorer') Eq :=
    Posterior.ofChart_alike hread fun _ _ _ _ _ hp h₁ h₂ h₃ =>
      Posterior.pushSplit_reordered hfree hread h.readable₁ h.readable₂ hp h₁ h₂ h₃
  have hend := hstep run₁ run₂ trivial
  rw [hout₁] at hend
  cases hout₂ : (Posterior.ofChart filled₂ scorer' :
      Effect J S (Except ChartError (Posterior S P))).outcome run₂ with
  | mk result₂ run₂' =>
    rw [hout₂] at hend
    obtain ⟨_, rfl, rfl⟩ := hend.results.1.of_ok
    exact ⟨post, run₁', run₂', hout₁, rfl⟩

end Reordered

/-! ## Parsing in different loop orders -/

/-- **The loop order makes no difference.** One sentence is parsed with two grammars made
of the same rules for any two loop orders, with cells of any types without ties. Whenever
both parses return charts, these hold the same scores, and over charts of pooled scores
both passes return the same posterior. Both parses do return if all scores are defined,
the tokens are terminals and the constraint is a test. Scores may be combined in any way
and the constraint may look at them. Only their aggregation must not depend on order. -/
theorem parse_loopOrder [ScoreText S] (P : Type) [Probability P] [Sharing S P] [ScoreText P]
    {nonterminals terminals : Alphabet} {root : Symbol} {rules : Array (Rule S)}
    (hsize : rules.size ≤ UInt32.size) {order₁ order₂ : LoopOrder} {g₁ g₂ : Grammar S}
    (hg₁ : Grammar.ofRules nonterminals terminals root rules order₁ = .ok g₁)
    (hg₂ : Grammar.ofRules nonterminals terminals root rules order₂ = .ok g₂)
    {config₁ config₂ : ChartConfig} (h₁ : chart₁.Reachable J g₁ config₁)
    (h₂ : chart₂.Reachable J g₂ config₂) (hagg : config₁.aggregation = config₂.aggregation)
    (htype₁ : config₁.cellType ≠ .tieBreaking) (htype₂ : config₂.cellType ≠ .tieBreaking)
    (hconstraint : chart₁.constraint = chart₂.constraint)
    (hfree : config₁.aggregation.OrderFree S) (sentence : List Symbol) (scorer : Scorer S)
    (run₁ run₂ : Run J S) :
    (∀ filled₁ filled₂ run₁' run₂',
      (chart₁.parse sentence scorer).outcome run₁ = (.ok (.ok filled₁), run₁') →
      (chart₂.parse sentence scorer).outcome run₂ = (.ok (.ok filled₂), run₂') →
      filled₁.SameScores filled₂ ∧
      (config₁.aggregation = .inside → ∀ (scorer' : Scorer S) (run₃ run₄ : Run J S),
        ∃ (post : Posterior S P) (run₃' run₄' : Run J S),
          (Posterior.ofChart filled₁ scorer').outcome run₃ = (.ok (.ok post), run₃') ∧
          (Posterior.ofChart filled₂ scorer').outcome run₄ = (.ok (.ok post), run₄'))) ∧
    ((∀ x : S, Score.isUndefined x = false) → (∀ token ∈ sentence, token.index < g₁.terminalCount) →
      ∀ p : CellPredicate S, Follows (chart₁.announced sentence) sentence.length p →
        ∃ filled₁ filled₂ run₁' run₂',
          (chart₁.parse sentence scorer).outcome run₁ = (.ok (.ok filled₁), run₁') ∧
          (chart₂.parse sentence scorer).outcome run₂ = (.ok (.ok filled₂), run₂')) := by
  have haccepted₁ : g₁.Accepted := ⟨_, _, _, _, _, hsize, hg₁⟩
  have haccepted₂ : g₂.Accepted := ⟨_, _, _, _, _, hsize, hg₂⟩
  have hannounced : chart₁.announced sentence = chart₂.announced sentence := by
    rw [announced, announced, hconstraint]
  obtain ⟨hshaped₁, hgrammar₁, hconfig₁⟩ := h₁.shaped haccepted₁.indexed
  obtain ⟨hshaped₂, hgrammar₂, hconfig₂⟩ := h₂.shaped haccepted₂.indexed
  refine ⟨fun filled₁ filled₂ run₁' run₂' hparse₁ hparse₂ => ?_, fun hdefined htokens p hp => ?_⟩
  · have hindexed₁ : chart₁.grammar.Indexed := hgrammar₁ ▸ haccepted₁.indexed
    have hindexed₂ : chart₂.grammar.Indexed := hgrammar₂ ▸ haccepted₂.indexed
    have hreordered : Reordered J sentence scorer chart₁ filled₁ chart₂ filled₂ := {
      parsed₁ := (parse_ends hshaped₁ hindexed₁ sentence scorer run₁).of_outcome hparse₁
      parsed₂ := (parse_ends hshaped₂ hindexed₂ sentence scorer run₂).of_outcome hparse₂
      indexed₁ := hindexed₁
      indexed₂ := hindexed₂
      grammar_eq := by
        rw [hgrammar₁, hgrammar₂]
        exact Grammar.ofRules_binary hg₁ hg₂
      aggregation_eq := by rw [hconfig₁, hconfig₂, hagg]
      plain₁ := by rw [hconfig₁]; exact htype₁
      plain₂ := by rw [hconfig₂]; exact htype₂
      constraint_eq := hannounced
      orderFree := by rw [hconfig₁]; exact hfree }
    refine ⟨hreordered.sameScores, fun hinside scorer' run₃ run₄ => ?_⟩
    exact hreordered.posterior_eq (by rw [hconfig₁, hinside]) scorer' run₃ run₄
  · have hterminals : g₂.terminalCount = g₁.terminalCount := by
      obtain ⟨binary, rfl⟩ := Grammar.ofRules_binary hg₁ hg₂
      rfl
    obtain ⟨filled₁, run₁', hparse₁, _⟩ :=
      h₁.parse_returns haccepted₁ htokens hp hdefined scorer run₁
    obtain ⟨filled₂, run₂', hparse₂, _⟩ :=
      h₂.parse_returns haccepted₂ (hterminals ▸ htokens) (hannounced ▸ hp) hdefined scorer run₂
    exact ⟨filled₁, filled₂, run₁', run₂', hparse₁, hparse₂⟩

/-- A test that depends on the score: what weighs nothing is not taken. -/
def positive : CellPredicate ℚ≥0 := ⟨fun _ _ _ _ score => score ≠ 0⟩

/-- The small grammar over `a a`, with pairs in dense cells and with right children in
maps. -/
theorem parse_loopOrder_small :
    ∃ (g₁ g₂ : Grammar ℚ≥0) (chart₁ chart₂ filled₁ filled₂ : Chart ℚ≥0 (CellPredicate ℚ≥0))
      (run₁' run₂' : Run Jitter ℚ≥0), g₁.loopOrder = .cartesianProduct ∧
      g₂.loopOrder = .rightChild ∧ chart₁.constraint = some positive ∧
      (chart₁.parse Grammar.Small.tokens .static).outcome (.start (.ofSeed 0)) =
        (.ok (.ok filled₁), run₁') ∧
      (chart₂.parse Grammar.Small.tokens .static).outcome (.start (.ofSeed 0)) =
        (.ok (.ok filled₂), run₂') ∧
      filled₁.SameScores filled₂ ∧
      ∃ (post : Posterior ℚ≥0 ℚ≥0) (run₃' run₄' : Run Jitter ℚ≥0),
        (Posterior.ofChart filled₁ .static).outcome run₁' = (.ok (.ok post), run₃') ∧
        (Posterior.ofChart filled₂ .static).outcome run₂' = (.ok (.ok post), run₄') := by
  obtain ⟨g₁, hg₁, haccepted₁, hcount, horder₁, _⟩ :=
    Grammar.Small.accepted ℚ≥0 rfl rfl .cartesianProduct
  obtain ⟨g₂, hg₂, haccepted₂, _, horder₂, _⟩ := Grammar.Small.accepted ℚ≥0 rfl rfl .rightChild
  have hnew₁ : (.vacant g₁ ⟨.inside, .full, .cartesianProduct⟩ :
      Chart ℚ≥0 (CellPredicate ℚ≥0)).Reachable Jitter g₁ ⟨.inside, .full, .cartesianProduct⟩ :=
    reachable_new rfl horder₁
  have hnew₂ : (.vacant g₂ ⟨.inside, .hashed, .rightChild⟩ :
      Chart ℚ≥0 (CellPredicate ℚ≥0)).Reachable Jitter g₂ ⟨.inside, .hashed, .rightChild⟩ :=
    reachable_new rfl horder₂
  have hfree : Aggregation.inside.OrderFree ℚ≥0 := by
    refine ⟨fun a b => ?_, fun a b c => ?_⟩
    · rw [WeightScore.pool_eq, WeightScore.pool_eq, add_comm]
    · simp only [WeightScore.pool_eq, add_assoc]
  have htokens : ∀ token ∈ Grammar.Small.tokens, token.index < g₁.terminalCount := by
    rw [hcount]
    decide
  obtain ⟨hagree, hreturn⟩ := parse_loopOrder ℚ≥0 (by simp [Grammar.Small.rules, UInt32.size])
    hg₁ hg₂ (hnew₁.constrain positive) (hnew₂.constrain positive) rfl (by decide) (by decide) rfl
    hfree Grammar.Small.tokens .static (.start (.ofSeed 0)) (.start (.ofSeed 0))
  obtain ⟨filled₁, filled₂, run₁', run₂', hparse₁, hparse₂⟩ := hreturn (fun _ => rfl) htokens
    positive (follows_of_some rfl _ _)
  obtain ⟨hscores, hposterior⟩ := hagree filled₁ filled₂ run₁' run₂' hparse₁ hparse₂
  exact ⟨g₁, g₂, _, _, filled₁, filled₂, run₁', run₂', horder₁, horder₂, rfl, hparse₁, hparse₂,
    hscores, hposterior rfl .static run₁' run₂'⟩

end Chart

end ChartParsing
