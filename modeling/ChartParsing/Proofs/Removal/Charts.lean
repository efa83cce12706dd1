import ChartParsing.Proofs.Chart.Safety
import ChartParsing.Proofs.Removal.Scores

/-!
# Impossible rules make no difference

A grammar from which the impossible rules were dropped has other rule numbers, other
indexes and another order of its unary rules. Its chart for a sentence lacks the symbols
that the chart of the whole grammar holds with impossible scores. As a symbol that is not
held counts as impossible, all scores are the same.
-/

namespace ChartParsing.Chart

variable {S C J : Type} [Score S] [CellConstraint C S] [JitterSource J]
  {chart chart' filled filled' : Chart S C} {sentence : List Symbol} {scorer : Scorer S}

/-! ## Reading the scores -/

/-- A score that is asked for is the one held, or that of what cannot be derived. -/
theorem Parsed.score_eq (h : chart.Parsed J sentence scorer filled) {start stop : Nat}
    (h₁ : start < stop) (h₂ : stop ≤ filled.length) (sym : Symbol) :
    filled.score sym start stop =
      .ok ((filled.values sym start stop).getD Score.impossible) := by
  obtain ⟨site, hcell, -⟩ := h.exists_cell h₁ h₂
  rw [values_of_cell hcell, Chart.score, hcell]
  exact congrArg Except.ok (site.cell.score_eq sym)

/-- A symbol is present if a score is held. -/
theorem Parsed.contains_eq (h : chart.Parsed J sentence scorer filled) {start stop : Nat}
    (h₁ : start < stop) (h₂ : stop ≤ filled.length) (sym : Symbol) :
    (filled.cell start stop).map (·.contains sym) = .ok (filled.values sym start stop).isSome := by
  obtain ⟨site, hcell, -⟩ := h.exists_cell h₁ h₂
  rw [values_of_cell hcell, hcell]
  refine congrArg Except.ok ?_
  rw [Bool.eq_iff_iff, Cell.contains_iff_value?, Option.isSome_iff_exists]

/-- The score of the root is the one held over the sentence. -/
theorem Parsed.rootScore?_eq_values (h : chart.Parsed J sentence scorer filled) :
    filled.rootScore? = .ok (filled.values chart.grammar.root 0 sentence.length) := by
  rcases Nat.eq_zero_or_pos filled.length with hzero | hpos
  · rw [Chart.rootScore?, if_pos hzero, values_eq_none]
    rw [← h.length_eq, hzero]
    simp
  · obtain ⟨site, hcell, -⟩ := h.exists_cell hpos (Nat.le_refl _)
    rw [rootScore?_of_cell hcell, ← h.length_eq, values_of_cell hcell, h.grammar_eq]

/-- **The score of a symbol is what its rules score, joined.** -/
theorem Parsed.values_eq_join (h : chart.Parsed J sentence .static filled)
    (hg : chart.grammar.Indexed) (htype : chart.config.cellType ≠ .tieBreaking)
    (hfree : chart.config.aggregation.OrderFree S) (hconstraint : chart.constraint = none)
    {start stop : Nat} (h₁ : start < stop) (h₂ : stop ≤ sentence.length) (sym : Symbol) :
    filled.values sym start stop =
      (scoresFor chart.grammar.rules.toList sentence filled.values sym start stop).foldl
        chart.config.aggregation.join none := by
  obtain ⟨made, hnodup, hmem, hvalues⟩ := h.values_eq_gather hg htype h₁ h₂
  have hfilled : filled.constraint = none := by
    have htold := h.constraint_eq
    rw [announced, hconstraint] at htold
    exact (Except.ok.inj htold).symm
  have hperm : made.Perm (applications chart.grammar sentence filled.values start stop) := by
    refine (List.perm_ext_iff_of_nodup hnodup
      (nodup_applications hg.nodup_rules sentence filled.values start stop)).mpr fun a => ?_
    rw [hmem, mem_applications]
  -- without a constraint all offers enter
  have hadmits : ∀ o : Offer S, admits (none : Option C) start stop o = true := fun _ => rfl
  have hoffers : ((entering .static filled.constraint start stop made).filter
      fun o => o.rule.parent = sym).map (·.score) =
        (made.filter fun a => a.rule.parent = sym).map fun a => a.score .static start stop := by
    rw [entering_filter, hfilled, entering, List.filter_eq_self.mpr fun o _ => hadmits o,
      List.map_map]
    rfl
  rw [hvalues, gather_score, hoffers, ← map_score_applications]
  exact ((hperm.filter _).map _).foldl_eq' (fun a _ b _ old => hfree.join_comm old a b) none

/-! ## Two charts -/

/-- One sentence parsed with two charts, for a list of rules and for the possible ones
among them. -/
structure Removed (J : Type) [JitterSource J] (sentence : List Symbol) (rules : Array (Rule S))
    (chart filled chart' filled' : Chart S C) : Prop where
  parsed : chart.Parsed J sentence .static filled
  parsed' : chart'.Parsed J sentence .static filled'
  indexed : chart.grammar.Indexed
  indexed' : chart'.grammar.Indexed
  rules_eq : chart.grammar.rules = Grammar.numbered rules
  rules_eq' : chart'.grammar.rules = Grammar.numbered (rules.filter fun r => isPossible r.score)
  root_eq : chart.grammar.root = chart'.grammar.root
  aggregation_eq : chart.config.aggregation = chart'.config.aggregation
  plain : chart.config.cellType ≠ .tieBreaking
  plain' : chart'.config.cellType ≠ .tieBreaking
  unconstrained : chart.constraint = none
  unconstrained' : chart'.constraint = none
  exact : chart.config.aggregation.Exact S

/-- Over the possible rules the scores are those of all rules, impossible ones left
out. -/
theorem Removed.values_eq [ExactScore S] {rules : Array (Rule S)}
    (h : Removed J sentence rules chart filled chart' filled') (sym : Symbol) (start stop : Nat) :
    filled'.values sym start stop = filled.values.possible sym start stop := by
  induction sym, start, stop using chart.grammar.span_induction with
  | step sym start stop hnarrow hlower =>
    by_cases hspan : start < stop ∧ stop ≤ sentence.length
    case neg =>
      rw [Values.possible, values_eq_none (by rwa [h.parsed'.length_eq]),
        values_eq_none (by rwa [h.parsed.length_eq])]
      rfl
    have hfree := h.exact.orderFree
    have hvalues := h.parsed.values_eq_join h.indexed h.plain hfree h.unconstrained
      hspan.1 hspan.2 sym
    have hvalues' := h.parsed'.values_eq_join h.indexed' h.plain' (h.aggregation_eq ▸ hfree)
      h.unconstrained' hspan.1 hspan.2 sym
    rw [h.rules_eq, scoresFor_numbered] at hvalues
    rw [h.rules_eq', scoresFor_numbered, ← h.aggregation_eq, Array.toList_filter] at hvalues'
    -- a unary child ranks lower in the whole grammar, for possible rules as for any
    have hunary : ∀ r ∈ rules.toList.filter fun r => isPossible r.score, r.parent = sym →
        ∀ y, r.rhs = .unary y →
          filled'.values y start stop = filled.values.possible y start stop := by
      rintro r hr rfl y hrhs
      have hedge : Grammar.UnaryEdge rules r.parent y :=
        ⟨r, Array.mem_toList_iff.mp (List.mem_filter.mp hr).1, rfl, hrhs⟩
      rw [← Grammar.unaryEdge_numbered, ← h.rules_eq] at hedge
      obtain ⟨r', hr', hparent, hrhs'⟩ := hedge
      exact hlower y (hparent ▸ h.indexed.unaryRank_lt hr' hrhs')
    calc filled'.values sym start stop
        = (scoresFor (rules.toList.filter fun r => isPossible r.score) sentence
            filled'.values sym start stop).foldl chart.config.aggregation.join none := hvalues'
      _ = (scoresFor (rules.toList.filter fun r => isPossible r.score) sentence
            filled.values.possible sym start stop).foldl chart.config.aggregation.join none := by
          rw [scoresFor_congr hunary hnarrow]
      _ = ((scoresFor rules.toList sentence filled.values sym start stop).filter
            isPossible).foldl chart.config.aggregation.join none := by
          rw [filter_scoresFor]
      _ = filled.values.possible sym start stop := by
          rw [Values.possible, hvalues, h.exact.filter_foldl_join]
          rfl

/-- What the second chart says of the first: it gives the same scores, and in its cells
are the symbols whose scores are possible. -/
structure Pruned (chart chart' : Chart S C) : Prop where
  score : ∀ sym start stop, chart'.score sym start stop = chart.score sym start stop
  contains : ∀ sym start stop,
    (chart'.cell start stop).map (·.contains sym) = (chart.score sym start stop).map isPossible
  rootScore? : chart'.rootScore? = chart.rootScore?.map fun root => root.filter isPossible

/-- **Without the impossible rules, a chart gives the same scores.** -/
theorem Removed.pruned [ExactScore S] {rules : Array (Rule S)}
    (h : Removed J sentence rules chart filled chart' filled') : filled.Pruned filled' := by
  have hlength : filled'.length = filled.length :=
    h.parsed'.length_eq.trans h.parsed.length_eq.symm
  have hvalues := h.values_eq
  refine ⟨fun sym start stop => ?_, fun sym start stop => ?_, ?_⟩
  · by_cases hspan : start < stop ∧ stop ≤ filled.length
    · rw [h.parsed.score_eq hspan.1 hspan.2, h.parsed'.score_eq hspan.1 (hlength ▸ hspan.2),
        hvalues, Values.possible, getD_filter_isPossible]
    · rw [Chart.score, Chart.score, cell_eq_error (hlength ▸ hspan), cell_eq_error hspan, hlength]
  · by_cases hspan : start < stop ∧ stop ≤ filled.length
    · rw [h.parsed.score_eq hspan.1 hspan.2, h.parsed'.contains_eq hspan.1 (hlength ▸ hspan.2),
        hvalues, Values.possible, isSome_filter_isPossible]
      rfl
    · rw [Chart.score, cell_eq_error (hlength ▸ hspan), cell_eq_error hspan, hlength]
      rfl
  · rw [h.parsed.rootScore?_eq_values, h.parsed'.rootScore?_eq_values, hvalues, h.root_eq]
    rfl

/-! ## Parsing without the impossible rules -/

section

variable [ScoreText S]

/-- The chart was made for a grammar and used in any way since. It breaks no ties and has
no constraint. -/
structure Plain (J : Type) [JitterSource J] (g : Grammar S) (aggregation : Aggregation)
    (chart : Chart S C) : Prop where
  reachable : ∃ config, chart.Reachable J g config
  aggregation_eq : chart.config.aggregation = aggregation
  cellType_ne : chart.config.cellType ≠ .tieBreaking
  unconstrained : chart.constraint = none

/-- Among exact scores, a sentence of terminals is parsed. -/
theorem Plain.parse_returns [ExactScore S] {g : Grammar S} {aggregation : Aggregation}
    (h : chart.Plain J g aggregation) (hg : g.Accepted)
    (htokens : ∀ token ∈ sentence, token.index < g.terminalCount) (run : Run J S) :
    ∃ filled run', (chart.parse sentence .static).outcome run = (.ok (.ok filled), run') ∧
      chart.Parsed J sentence .static filled := by
  obtain ⟨config, hreachable⟩ := h.reachable
  exact hreachable.parse_returns hg htokens (follows_of_none h.unconstrained _ _)
    ExactScore.isUndefined_eq .static run

/-- **Removing impossible rules changes no score.** Scores are exact and their
aggregation is. Then a draft that can be built still can be when the impossible rules
are removed, for any loop orders. With any two plain charts for the two grammars, the same
sentences are refused for the same token. Of any other, both parses return a chart, with
the same score for every symbol over every span. In the cells of the second are the
symbols whose scores in the first are possible, so the second has a score for the root
exactly if that of the first is possible. -/
theorem parse_removeImpossible (C J : Type) [CellConstraint C S] [JitterSource J] [ExactScore S]
    {d : GrammarDraft S} (hsize : d.rules.size ≤ UInt32.size) {order : LoopOrder} {g : Grammar S}
    (hbuild : d.build order = .ok g) (order' : LoopOrder) :
    ∃ g', d.removeImpossible.build order' = .ok g' ∧
      ∀ (aggregation : Aggregation) (chart chart' : Chart S C), aggregation.Exact S →
        chart.Plain J g aggregation → chart'.Plain J g' aggregation →
        ∀ (sentence : List Symbol) (run run' : Run J S),
          ((∃ token ∈ sentence, g.terminalCount ≤ token.index) ∧ ∃ e,
            (chart.parse sentence .static).outcome run = (.ok (.error e), run) ∧
            (chart'.parse sentence .static).outcome run' = (.ok (.error e), run')) ∨
          ∃ filled filled' run₁ run₁',
            (chart.parse sentence .static).outcome run = (.ok (.ok filled), run₁) ∧
            (chart'.parse sentence .static).outcome run' = (.ok (.ok filled'), run₁') ∧
            filled.Pruned filled' := by
  obtain ⟨g', hbuild'⟩ :=
    GrammarDraft.build_retain hsize hbuild (fun rule => isPossible rule.score) order'
  refine ⟨g', hbuild', fun aggregation chart chart' hexact h h' sentence run run' => ?_⟩
  have hmakes := GrammarDraft.makes_of_build hbuild
  have hmakes' := GrammarDraft.makes_of_build hbuild'
  have hg := hmakes.accepted hsize
  have hg' := hmakes'.accepted (Nat.le_trans Array.size_filter_le hsize)
  have hcount : g'.terminalCount = g.terminalCount := by
    rw [Grammar.terminalCount, Grammar.terminalCount, hmakes.terminals_eq, hmakes'.terminals_eq]
    rfl
  obtain ⟨config, hreachable⟩ := h.reachable
  obtain ⟨config', hreachable'⟩ := h'.reachable
  obtain ⟨-, hgrammar, -⟩ := hreachable.shaped hg.indexed
  obtain ⟨-, hgrammar', -⟩ := hreachable'.shaped hg'.indexed
  by_cases htokens : ∀ token ∈ sentence, token.index < g.terminalCount
  · obtain ⟨filled, run₁, hrun, hparsed⟩ := h.parse_returns hg htokens run
    obtain ⟨filled', run₁', hrun', hparsed'⟩ := h'.parse_returns hg' (hcount ▸ htokens) run'
    refine Or.inr ⟨filled, filled', run₁, run₁', hrun, hrun', ?_⟩
    have hremoved : Removed J sentence d.rules chart filled chart' filled' := {
      parsed := hparsed
      parsed' := hparsed'
      indexed := hgrammar ▸ hg.indexed
      indexed' := hgrammar' ▸ hg'.indexed
      rules_eq := by rw [hgrammar, hmakes.rules_eq]
      rules_eq' := by rw [hgrammar', hmakes'.rules_eq]; rfl
      root_eq := by
        rw [hgrammar, hgrammar']
        exact Option.some.inj (hmakes.root_eq.symm.trans hmakes'.root_eq)
      aggregation_eq := h.aggregation_eq.trans h'.aggregation_eq.symm
      plain := h.cellType_ne
      plain' := h'.cellType_ne
      unconstrained := h.unconstrained
      unconstrained' := h'.unconstrained
      exact := h.aggregation_eq ▸ hexact }
    exact hremoved.pruned
  · have hunknown : ∃ token ∈ sentence, g.terminalCount ≤ token.index := by
      simpa using htokens
    have hcount' : chart.grammar.terminalCount = chart'.grammar.terminalCount := by
      rw [hgrammar, hgrammar', hcount]
    obtain ⟨pre, token, post, rfl, hpre, htoken, hrun⟩ :=
      parse_of_unknown (hgrammar ▸ hunknown) .static run
    -- the first token from elsewhere is the same for both
    rw [hcount'] at hpre htoken hrun
    have hcall : chart'.firstUnknown? (Call.parse (pre ++ token :: post)
        (.static : Scorer S)).sentence = some (token, pre.length) := firstUnknown?_eq hpre htoken
    exact Or.inl ⟨hunknown, _, hrun, on_of_unknown hcall run'⟩

end

/-- `S ::= S S` and `S ::= 'a'`, both certain, and the impossible rule `A ::= S`. -/
def withImpossible (S : Type) [Score S] : GrammarDraft S where
  nonterminals := Grammar.Small.nonterminals
  terminals := Grammar.Small.terminals
  root := some (.ofNat 0)
  rules := #[.ofRhs (.ofNat 0) (.binary (.ofNat 0) (.ofNat 0)) Score.certain,
    .ofRhs (.ofNat 0) (.lexical (.ofNat 0)) Score.certain,
    .ofRhs (.ofNat 1) (.unary (.ofNat 0)) Score.impossible]

theorem unaryOrderOf_withImpossible (S : Type) [Score S] :
    Grammar.unaryOrderOf (Grammar.numbered (withImpossible S).rules) 2 =
      .ok #[.ofNat 0, .ofNat 1] := by
  have hchildren : Grammar.unaryChildren (Grammar.numbered (withImpossible S).rules)
      (.ofRules 2 Rule.unaryParentKey (Grammar.numbered (withImpossible S).rules)) =
        fun sym => match sym.index with | 1 => [.ofNat 0] | _ => [] := by
    funext sym
    unfold Grammar.unaryChildren
    match sym.index with
    | 0 | 1 | _ + 2 => rfl
  rw [Grammar.unaryOrderOf, hchildren]
  cbv

theorem build_withImpossible (order : LoopOrder) :
    ∃ g, (withImpossible (WithBot ℚ)).build order = .ok g := by
  have hscore : ∀ a : WithBot ℚ, Grammar.ValidScore a := fun _ => ⟨rfl, rfl⟩
  have hs : (Symbol.ofNat 0).index < 2 := by decide
  have ha : (Symbol.ofNat 1).index < 2 := by decide
  have hroot : Grammar.Small.nonterminals.contains (.ofNat 0) = true := rfl
  have hvalid : ∀ r ∈ (withImpossible (WithBot ℚ)).rules,
      Grammar.ValidRule Grammar.Small.nonterminals.size Grammar.Small.terminals.size r := by
    simp only [withImpossible, List.mem_toArray, List.forall_mem_cons]
    exact ⟨⟨hscore _, hs, hs, hs⟩, ⟨hscore _, hs, Nat.zero_lt_one⟩, ⟨hscore _, ha, hs⟩, by simp⟩
  obtain ⟨g, hg⟩ : ∃ g, Grammar.ofRules Grammar.Small.nonterminals Grammar.Small.terminals
      (.ofNat 0) (withImpossible (WithBot ℚ)).rules order = .ok g :=
    ⟨_, Grammar.ofRules_eq_ok_iff.mpr
      ⟨hroot, hvalid, _, unaryOrderOf_withImpossible (WithBot ℚ), rfl⟩⟩
  exact ⟨g, hg⟩

/-- The impossible rule is removed. Then `a a` is parsed with dense cells and the whole
grammar, and with maps of entries and the smaller grammar, for either aggregation. -/
theorem parse_removeImpossible_small :
    ∃ g g' : Grammar (WithBot ℚ),
      (withImpossible (WithBot ℚ)).build .leftChild = .ok g ∧
      (withImpossible (WithBot ℚ)).removeImpossible.build .rightChild = .ok g' ∧
      ∀ aggregation : Aggregation,
        ∃ (chart chart' filled filled' : Chart (WithBot ℚ) (CellPredicate (WithBot ℚ)))
          (run₁ run₁' : Run Jitter (WithBot ℚ)),
          chart.Plain Jitter g aggregation ∧ chart'.Plain Jitter g' aggregation ∧
          (chart.parse Grammar.Small.tokens .static).outcome (.start (.ofSeed 0)) =
            (.ok (.ok filled), run₁) ∧
          (chart'.parse Grammar.Small.tokens .static).outcome (.start (.ofSeed 0)) =
            (.ok (.ok filled'), run₁') ∧
          filled.Pruned filled' := by
  obtain ⟨g, hg⟩ := build_withImpossible .leftChild
  have hsize : (withImpossible (WithBot ℚ)).rules.size ≤ UInt32.size := by
    simp [withImpossible, UInt32.size]
  obtain ⟨g', hg', hparse⟩ :=
    parse_removeImpossible (CellPredicate (WithBot ℚ)) Jitter hsize hg .rightChild
  have hmakes := GrammarDraft.makes_of_build hg
  have hmakes' := GrammarDraft.makes_of_build hg'
  refine ⟨g, g', hg, hg', fun aggregation => ?_⟩
  have hchart : (.vacant g ⟨aggregation, .full, .leftChild⟩ :
      Chart (WithBot ℚ) (CellPredicate (WithBot ℚ))).Plain Jitter g aggregation :=
    ⟨⟨_, reachable_new (by cases aggregation <;> rfl) hmakes.loopOrder_eq⟩, rfl, nofun, rfl⟩
  have hchart' : (.vacant g' ⟨aggregation, .hashed, .rightChild⟩ :
      Chart (WithBot ℚ) (CellPredicate (WithBot ℚ))).Plain Jitter g' aggregation :=
    ⟨⟨_, reachable_new (by cases aggregation <;> rfl) hmakes'.loopOrder_eq⟩, rfl, nofun, rfl⟩
  have htokens : ¬ ∃ token ∈ Grammar.Small.tokens, g.terminalCount ≤ token.index := by
    rw [Grammar.terminalCount, hmakes.terminals_eq]
    decide
  have hexact := Aggregation.exact_withBot aggregation
  rcases hparse aggregation _ _ hexact hchart hchart' Grammar.Small.tokens (.start (.ofSeed 0))
    (.start (.ofSeed 0)) with ⟨hunknown, -⟩ | ⟨filled, filled', run₁, run₁', hruns⟩
  · exact absurd hunknown htokens
  · exact ⟨_, _, filled, filled', run₁, run₁', hchart, hchart', hruns⟩

end ChartParsing.Chart
