import ChartParsing.Chart.BestTree
import ChartParsing.Proofs.Chart.Soundness
import ChartParsing.Proofs.Derivation.Tree
import ChartParsing.Proofs.Score.Laws

/-!
# The best tree is that of a derivation with the score of the root

A back pointer is written together with a score, and both stem from one application
to scores that were final by then. So when the walk follows the pointer it finds
children that still have the scores the application was made with, whatever became
of ties. Going down a unary rule the walk counts one more step while the rank of the
symbol drops by one at least. The two together never exceed the number of ranks, so
the walk never gives up.

None of this asks anything of scores. An undefined one may end the parse itself.
-/

namespace ChartParsing.Chart

variable {S C J : Type} [Score S] [CellConstraint C S] [JitterSource J]
  {chart chart' : Chart S C} {sentence : List Symbol} {scorer : Scorer S} {p : CellPredicate S}

omit [Score S] [CellConstraint C S] in
theorem backPointer?_eq {start stop : Nat} {site : Site S}
    (h : chart.site start stop = .ok site) (hstop : stop ≤ chart.length) (sym : Symbol) :
    chart.backPointer? sym start stop = .ok ((site.cell.find? sym).map (·.backPointer)) := by
  unfold backPointer?
  rw [cell_eq h hstop]
  rfl

/-- The back pointer of a symbol that is present names the application that its score
is of. -/
theorem Parsed.exists_application (h : chart.Parsed J sentence scorer chart')
    (hagg : chart.config.aggregation = .viterbi)
    (hp : Follows (chart.announced sentence) sentence.length p) {sym : Symbol}
    {start stop : Nat} {v : S} (hv : chart'.values sym start stop = some v) :
    ∃ a, Applies chart.grammar sentence chart'.values start stop a ∧ a.rule.parent = sym ∧
      a.score scorer start stop = v ∧ p.test start stop a.mid a.rule v = true ∧
        chart'.backPointer? sym start stop = .ok (some (.derivation a.rule.id a.mid)) := by
  obtain ⟨h₁, h₂⟩ := span_of_values hv
  have hlength : chart'.length = sentence.length := h.length_eq
  obtain ⟨site, hsite, hcomplete⟩ := h.complete start stop h₁ (by omega)
  rw [values_eq hsite h₂] at hv
  obtain ⟨e, he, rfl⟩ := Option.map_eq_some_iff.mp hv
  obtain ⟨a, happlies, rfl, hadmits, rfl⟩ :=
    hcomplete.exists_application (by rw [h.config_eq]; exact hagg) he
  rw [h.grammar_eq, h.sentence_eq] at happlies
  rw [(h.answersAs hp).admits_eq h₁ (by omega)] at hadmits
  refine ⟨a, happlies, rfl, rfl, hadmits, ?_⟩
  rw [backPointer?_eq hsite h₂, he]
  rfl

/-- **The walk down from a symbol that is present finds a derivation** with the
symbol's score. -/
theorem Parsed.subtree?_ok (h : chart.Parsed J sentence scorer chart')
    (hg : chart.grammar.Indexed) (hagg : chart.config.aggregation = .viterbi)
    (hp : Follows (chart.announced sentence) sentence.length p) (sym : Symbol)
    (start stop : Nat) :
    ∀ depth v, depth + chart.grammar.unaryRank sym ≤ chart.grammar.unaryOrder.size →
      chart'.values sym start stop = some v →
      ∃ d ∈ derivations chart.grammar sentence scorer p sym start stop,
        chart'.subtree? sym start stop depth = .ok (some d.tree) ∧ d.score scorer = v := by
  induction sym, start, stop using chart.grammar.span_induction with
  | step sym start stop hnarrow hlower =>
    intro depth v hdepth hv
    obtain ⟨a, happlies, rfl, rfl, hadmits, hpointer⟩ := h.exists_application hagg hp hv
    have hrule : chart'.grammar.rule a.rule.id = .ok a.rule := by
      rw [h.grammar_eq]
      exact hg.rule_eq happlies.rule_mem
    -- depth and rank together stay within the order, and that within the alphabet
    have hguard : ¬ chart'.grammar.nonterminalCount < depth := by
      rw [h.grammar_eq]
      have := hg.size_unaryOrder_le
      omega
    rw [subtree?, dif_neg hguard, hpointer]
    simp only [bind, Except.bind, hrule]
    cases happlies with
    | @lexical r t hr hrhs hstop ht =>
      subst hstop
      refine ⟨.lexical r start, ⟨⟨hr, t, hrhs, ht⟩, ⟨hadmits, trivial⟩, rfl, rfl, rfl⟩, ?_, rfl⟩
      simp only [hrhs]
      simp [Derivation.tree, Rule.leftChild, hrhs, pure, Except.pure]
    | @unary r y w hr hrhs hw =>
      have hrank := hg.unaryRank_lt hr hrhs
      simp only at hdepth
      obtain ⟨d, ⟨hvalid, hadmitted, rfl, rfl, rfl⟩, htree, rfl⟩ :=
        hlower y hrank (depth + 1) w (by omega) hw
      refine ⟨.unary r d, ⟨⟨hr, hrhs, hvalid⟩, ⟨hadmits, hadmitted⟩, rfl, rfl, rfl⟩, ?_, rfl⟩
      simp only [hrhs, htree]
      rfl
    | @binary r y z v w mid hr hrhs hm₁ hm₂ hleft hright =>
      -- on a narrower span the count starts anew
      have hrank : ∀ x, 0 + chart.grammar.unaryRank x ≤ chart.grammar.unaryOrder.size := by
        intro x
        rw [Nat.zero_add]
        exact List.idxOf_le_length
      obtain ⟨l, ⟨hlvalid, hladmitted, rfl, rfl, rfl⟩, hltree, rfl⟩ :=
        hnarrow y start mid (by omega) 0 v (hrank y) hleft
      obtain ⟨r', ⟨hrvalid, hradmitted, rfl, hrstart, rfl⟩, hrtree, rfl⟩ :=
        hnarrow z l.stop stop (by omega) 0 w (hrank z) hright
      refine ⟨.binary r l r', ⟨⟨hr, hrhs, hrstart.symm, hlvalid, hrvalid⟩,
        ⟨hadmits, hladmitted, hradmitted⟩, rfl, rfl, rfl⟩, ?_, rfl⟩
      simp only [hrhs, hltree, hrtree]
      rw [dif_pos ⟨hm₁, hm₂⟩]
      rfl

/-- A symbol that is absent has no tree. -/
theorem Parsed.subtree?_none (h : chart.Parsed J sentence scorer chart') {sym : Symbol}
    {start stop : Nat} (h₁ : start < stop) (h₂ : stop ≤ sentence.length)
    (hv : chart'.values sym start stop = none) :
    chart'.subtree? sym start stop 0 = .ok none := by
  have hlength : chart'.length = sentence.length := h.length_eq
  obtain ⟨site, hsite, _⟩ := h.complete start stop h₁ h₂
  rw [values_eq hsite (by omega)] at hv
  rw [subtree?, dif_neg (Nat.not_lt_zero _), backPointer?_eq hsite (by omega),
    Option.map_eq_none_iff.mp hv]
  rfl

/-- The best tree and its score, for a sentence whose root has one. -/
theorem Parsed.viterbiParse?_ok (h : chart.Parsed J sentence scorer chart')
    (hg : chart.grammar.Indexed) (hagg : chart.config.aggregation = .viterbi)
    (hp : Follows (chart.announced sentence) sentence.length p) :
    ∃ best?, chart'.viterbiParse? = .ok best? ∧
      chart'.rootScore? = .ok (best?.map (·.score)) ∧
      ∀ best, best? = some best →
        ∃ d ∈ derivations chart.grammar sentence scorer p chart.grammar.root 0 sentence.length,
          d.tree = best.tree ∧ d.score scorer = best.score := by
  have hlength : chart'.length = sentence.length := h.length_eq
  unfold viterbiParse?
  rcases Nat.eq_zero_or_pos sentence.length with hzero | hpos
  · refine ⟨none, by rw [if_pos (by omega)], ?_, by simp⟩
    unfold rootScore?
    rw [if_pos (by omega)]
    rfl
  obtain ⟨site, hsite, _⟩ := h.complete 0 sentence.length hpos (Nat.le_refl _)
  rw [← hlength] at hsite
  have hvalue := values_eq hsite (Nat.le_refl _) chart'.grammar.root
  rw [if_neg (by omega), rootScore?_eq hsite]
  cases hv : site.cell.value? chart'.grammar.root with
  | none =>
    rw [hv] at hvalue
    refine ⟨none, ?_, rfl, by simp⟩
    rw [h.subtree?_none (by omega) (by omega) hvalue]
    rfl
  | some v =>
    rw [hv] at hvalue
    obtain ⟨d, hd, htree, hscore⟩ := h.subtree?_ok hg hagg hp chart'.grammar.root 0
      chart'.length 0 v (by rw [Nat.zero_add]; exact List.idxOf_le_length) hvalue
    have hcell : chart'.score chart'.grammar.root 0 chart'.length = .ok v := by
      unfold score
      rw [cell_eq hsite (Nat.le_refl _), ← Cell.score_eq_of_value? hv]
      rfl
    refine ⟨some ⟨d.tree, v⟩, ?_, rfl, ?_⟩
    · rw [htree, hcell]
      rfl
    · intro _ hx
      cases hx
      rw [h.grammar_eq, hlength] at hd
      exact ⟨d, hd, rfl, hscore⟩

/-- **The best tree is complete and faithful.** Unless the parse comes to an application
that a cell refuses, as its score, which is that of a derivation, is undefined, the chart
has a best tree exactly if the root has a score. The tree is then that of an admitted
derivation of the sentence from the root, the score of the derivation is the score
given with the tree and that of the root, and the leaves are the sentence. -/
theorem parse_bestTree [ScoreText S] {g : Grammar S} (hg : g.Accepted) {config : ChartConfig}
    (hagg : config.aggregation = .viterbi) (hchart : chart.Reachable J g config)
    (hsentence : ∀ token ∈ sentence, token.index < g.terminalCount)
    (hp : Follows (chart.announced sentence) sentence.length p) (scorer : Scorer S)
    (run : Run J S) :
    (∃ run', (chart.parse sentence scorer).outcome run = (.error .undefinedScore, run') ∧
      chart.MeetsUndefined sentence scorer run run' ∧
      ∃ d : Derivation S, d.Valid g sentence ∧ d.PartsAdmitted scorer p ∧
        Score.isUndefined (d.score scorer) = true) ∨
    ∃ chart' run', (chart.parse sentence scorer).outcome run = (.ok (.ok chart'), run') ∧
      ∃ root? best?, chart'.rootScore? = .ok root? ∧ chart'.viterbiParse? = .ok best? ∧
        (best?.isSome = true ↔ root?.isSome = true) ∧
        ∀ best, best? = some best → root? = some best.score ∧
          best.tree.symbol = g.root ∧ best.tree.start = 0 ∧ best.tree.stop = sentence.length ∧
          best.tree.fringe = sentence.zipIdx ∧ best.tree.leaves = sentence ∧
          ∃ d ∈ derivations g sentence scorer p g.root 0 sentence.length,
            d.tree = best.tree ∧ d.score scorer = best.score := by
  obtain ⟨hshaped, rfl, rfl⟩ := hchart.shaped hg.indexed
  rcases hshaped.parse_parsed hg.indexed hsentence hp scorer run with
    ⟨chart', run', hrun, hparsed⟩ | ⟨run', hrun, hmeets⟩
  · obtain ⟨best?, hbest, hroot, htree⟩ := hparsed.viterbiParse?_ok hg.indexed hagg hp
    refine Or.inr ⟨chart', run', hrun, _, best?, hroot, hbest, by simp, ?_⟩
    intro best heq
    subst heq
    obtain ⟨d, hd, hdtree, hscore⟩ := htree best rfl
    have hfringe : best.tree.fringe = sentence.zipIdx := by
      rw [← hdtree, hd.1.fringe_tree, hd.2.2.2.1, hd.2.2.2.2, tokensBetween_all]
    refine ⟨rfl, ?_, ?_, ?_, hfringe, ?_, d, hd, hdtree, hscore⟩
    · rw [← hdtree, Derivation.symbol_tree]
      exact hd.2.2.1
    · rw [← hdtree, Derivation.start_tree]
      exact hd.2.2.2.1
    · rw [← hdtree, Derivation.stop_tree]
      exact hd.2.2.2.2
    · rw [ParseTree.leaves_eq, hfringe, List.zipIdx_map_fst]
  · exact Or.inl ⟨run', hrun, hmeets, hmeets.exists_derivation hg.indexed hagg hp⟩

/-- The small grammar over `a a` in cells that break ties, where rules are free. There is
a best tree. -/
theorem parse_bestTree_small :
    ∃ (g : Grammar (WithBot ℚ)) (chart chart' : Chart (WithBot ℚ) (CellPredicate (WithBot ℚ)))
      (run' : Run Jitter (WithBot ℚ)) (best : ViterbiParse (WithBot ℚ)),
      g.Accepted ∧ chart.config.cellType = .tieBreaking ∧
      (chart.parse Grammar.Small.tokens .static).outcome (.start (.ofSeed 7)) =
        (.ok (.ok chart'), run') ∧
      chart'.rootScore? = .ok (some best.score) ∧ chart'.viterbiParse? = .ok (some best) ∧
      best.tree.symbol = g.root ∧ best.tree.start = 0 ∧ best.tree.stop = 2 ∧
      best.tree.fringe = Grammar.Small.tokens.zipIdx ∧
      best.tree.leaves = Grammar.Small.tokens ∧
      ∃ d ∈ derivations g Grammar.Small.tokens .static ⟨fun _ _ _ _ _ => true⟩ g.root 0 2,
        d.tree = best.tree ∧ d.score .static = best.score := by
  obtain ⟨g, _, hg, hcount, horder, hroot, hrules⟩ :=
    Grammar.Small.accepted (WithBot ℚ) rfl rfl .rightChild
  have hnew : (.vacant g ⟨.viterbi, .tieBreaking, .rightChild⟩ :
      Chart (WithBot ℚ) (CellPredicate (WithBot ℚ))).Reachable Jitter g
        ⟨.viterbi, .tieBreaking, .rightChild⟩ := reachable_new rfl horder
  have htokens : ∀ token ∈ Grammar.Small.tokens, token.index < g.terminalCount := by
    rw [hcount]
    decide
  have hp : Follows ((.vacant g ⟨.viterbi, .tieBreaking, .rightChild⟩ :
      Chart (WithBot ℚ) (CellPredicate (WithBot ℚ))).announced Grammar.Small.tokens) 2
        ⟨fun _ _ _ _ _ => true⟩ := follows_of_none rfl _ _
  rcases parse_bestTree hg rfl hnew htokens hp .static (.start (.ofSeed 7)) with
    ⟨_, _, _, _, _, _, hundefined⟩ | ⟨chart', run', hrun, root?, best?, hscore, hbest, hiff, h⟩
  · cases hundefined
  have hparsed : Chart.Parsed Jitter _ Grammar.Small.tokens .static chart' :=
    (parse_ends (hnew.shaped hg.indexed).1 hg.indexed _ _ _).of_outcome hrun
  obtain ⟨⟨join, hjoin, hjoinParent, hjoinRhs⟩, ⟨lift, hlift, hliftParent, hliftRhs⟩,
    leaf, hleaf, hleafParent, hleafRhs⟩ := Grammar.Small.exists_rules hrules
  -- `A` makes a token, and `S` makes the `A`
  have hword : ∀ i, Grammar.Small.tokens[i]? = some (.ofNat 0) →
      ∃ v, chart'.values (.ofNat 0) i (i + 1) = some v := by
    intro i htoken
    obtain ⟨v, hv⟩ := hparsed.exists_value hp (.lexical hleaf hleafRhs rfl htoken) rfl
    rw [hleafParent] at hv
    obtain ⟨w, hw⟩ := hparsed.exists_value hp (.unary hlift hliftRhs hv) rfl
    exact ⟨w, hliftParent ▸ hw⟩
  -- two of them make the sentence
  obtain ⟨v, hv⟩ := hword 0 rfl
  obtain ⟨w, hw⟩ := hword 1 rfl
  obtain ⟨x, hx⟩ := hparsed.exists_value hp
    (.binary hjoin hjoinRhs Nat.zero_lt_one Nat.one_lt_two hv hw) rfl
  have hpresent : chart'.rootScore? = .ok (some x) := rootScore?_of_values (by
    rw [hparsed.grammar_eq, hparsed.length_eq]
    rw [hjoinParent, ← hroot] at hx
    exact hx)
  cases hscore.symm.trans hpresent
  obtain ⟨best, rfl⟩ := Option.isSome_iff_exists.mp (hiff.mpr rfl)
  obtain ⟨hroot?, hbest'⟩ := h best rfl
  exact ⟨g, _, chart', run', best, hg, rfl, hrun, hroot? ▸ hpresent, hbest, hbest'⟩

end ChartParsing.Chart
