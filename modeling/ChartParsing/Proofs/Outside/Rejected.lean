import ChartParsing.Proofs.Outside.Posteriors
import ChartParsing.Proofs.Outside.Reached
import Mathlib.Tactic.TFAE

/-!
# Posteriors under a constraint

Filling a chart, a constraint is asked about every application. The outside pass does
not ask it again: it goes through all rules that fit the symbols present. So posteriors
speak of the admitted derivations if no rejected application is in reach, and only then,
and the outside scores of the tokens tell whether it is so.

A constraint that forbids one way to split a span, but not the span, is enough to make
them differ.
-/

namespace ChartParsing

variable {S C J : Type} [Score S] [Semifield S] [LinearOrder S] [Probability S] [Sharing S S]
  [ShareScore S] [IsStrictOrderedRing S] [CanonicallyOrderedAdd S]

namespace Posterior

variable {chart : Chart S C} {scorer : Scorer S} {p : CellPredicate S} {post : Posterior S S}
  {total : S}

omit [LinearOrder S] [Probability S] [Sharing S S] [ShareScore S] [IsStrictOrderedRing S]
  [CanonicallyOrderedAdd S] [Score S] in
/-- What is read as the outside score of a token. -/
theorem Pushed.terminalOutsideScore_eq {steps : List (Step S)}
    (h : Pushed chart scorer total steps post) {position : Nat}
    (hposition : position < chart.length) :
    post.terminalOutsideScore position = .ok (steps.map fun st => if st.reads position then
      post.outside.weight st.made * st.weight scorer chart.values.weight else 0).sum := by
  have htoken := h.tokens position hposition
  unfold terminalOutsideScore
  rw [htoken]

/-- **A pass that has gone through all steps is exact exactly if no rejected application
is in reach**, and the tokens tell. -/
theorem Pushed.exact_tfae (h : Pushed chart scorer total chart.passSteps post)
    (hchart : chart.Readable) (hV : chart.values.Total chart.grammar chart.sentence scorer p)
    (hp : p.ScoreFree) (htotal : chart.values chart.grammar.root 0 chart.length = some total)
    (hne : total ≠ 0) :
    [p.Unreached chart.grammar chart.sentence scorer,
      post.Exact chart.grammar chart.sentence scorer p total,
      ∀ position, position < chart.sentence.length →
        post.terminalOutsideScore position = .ok total].TFAE := by
  have hI : chart.values.weight = totalWeight chart.grammar chart.sentence scorer p := by
    funext sym start stop
    exact hV.weight_eq sym start stop
  have hscores := h.scores
  rw [hI] at hscores
  have hg := hchart.indexed
  have hsteps := hchart.listsSteps
  have hwhole : totalWeight chart.grammar chart.sentence scorer p chart.grammar.root 0
      chart.sentence.length = total := by
    rw [← hI, Values.weight]
    exact congrArg (Option.getD · 0) htotal
  have hidle := hscores.idle_iff hg hsteps hV hp
  tfae_have 1 → 2 := fun hunreached =>
    h.exact_of_idle hchart hV hp (hidle.mpr hunreached) htotal hne
  tfae_have 2 → 1 := by
    intro hexact
    refine hidle.mp (hscores.idle_of_sum_applications hg hsteps hV hp fun r hr => ?_)
    have hcount := (h.ruleCount_eq hr).symm.trans (hexact.ruleCount r hr)
    rw [sum_shares hg hp, hI] at hcount
    exact (div_left_inj' hne).mp (Except.ok.inj hcount)
  tfae_have 1 ↔ 3 := by
    rw [← hidle, hscores.idle_iff_sum_reads hg hsteps hV hp, hwhole]
    refine forall_congr' fun position => imp_congr_right fun hposition => ?_
    rw [h.terminalOutsideScore_eq hposition, hI, Except.ok.injEq]
  tfae_finish

end Posterior

namespace Chart

variable [CellConstraint C S] [JitterSource J] {chart chart' : Chart S C} {sentence : List Symbol}
  {scorer : Scorer S} {p : CellPredicate S}

/-- Parsing, and then both passes. -/
theorem Reachable.parse_pushed [ScoreText S] {g : Grammar S} {config : ChartConfig}
    (hchart : chart.Reachable J g config) (hg : g.Accepted) (hagg : config.aggregation = .inside)
    (hsentence : ∀ token ∈ sentence, token.index < g.terminalCount)
    (hp : Follows (chart.announced sentence) sentence.length p) (hfree : p.ScoreFree)
    (scorer : Scorer S) (run : Run J S) :
    ∃ chart' run', (chart.parse sentence scorer).outcome run = (.ok (.ok chart'), run') ∧
      chart'.grammar = g ∧ chart'.sentence = sentence ∧ chart'.Readable ∧
      chart'.values.Total g sentence scorer p ∧
      ∀ run₁ : Run J S, ∃ post run₂,
        (Posterior.ofChart chart' scorer).outcome run₁ = (.ok (.ok post), run₂) ∧
        post.logZ = chart'.values g.root 0 sentence.length ∧
        post.logZ.getD 0 =
          ∑ᶠ d ∈ derivations g sentence scorer p g.root 0 sentence.length, d.weight scorer ∧
        ∀ total, post.logZ = some total → total ≠ 0 →
          Posterior.Pushed chart' scorer total chart'.passSteps post := by
  obtain ⟨chart', run', hrun, hparsed⟩ :=
    hchart.parse_returns hg hsentence hp WeightScore.isUndefined_eq scorer run
  obtain ⟨_, rfl, rfl⟩ := hchart.shaped hg.indexed
  have hreadable := hparsed.readable hg.indexed hfree hp
  have htotals := hparsed.total hg.indexed hagg hfree hp
  refine ⟨chart', run', hrun, hparsed.grammar_eq, hparsed.sentence_eq, hreadable, htotals,
    fun run₁ => ?_⟩
  obtain ⟨_, run₂, hrun₂, post, rfl, hlogZ, hpushed⟩ :=
    (Posterior.ofChart_ends hreadable (by rw [hparsed.config_eq]; exact hagg) scorer run₁).returns
  rw [length, hparsed.grammar_eq, hparsed.sentence_eq] at hlogZ
  refine ⟨post, run₂, hrun₂, hlogZ, ?_, hpushed⟩
  rw [hlogZ, ← sum_listing (finite_derivations hg.indexed hfree _ _ _ _ _)]
  exact htotals.weight_eq _ _ _

/-- **Posteriors under a constraint.** Both passes return and the total is the weight of
the derivations of the sentence that the constraint admits. If it is not zero, then these
are equivalent: no application that the constraint rejects is in reach, the posterior says
what is true of the admitted derivations, and every token has the total as its outside
score. -/
theorem parse_posteriors_constrained [ScoreText S] {g : Grammar S} (hg : g.Accepted)
    {config : ChartConfig} (hagg : config.aggregation = .inside)
    (hchart : chart.Reachable J g config)
    (hsentence : ∀ token ∈ sentence, token.index < g.terminalCount)
    (hp : Follows (chart.announced sentence) sentence.length p) (hfree : p.ScoreFree)
    (scorer : Scorer S) (run : Run J S) :
    ∃ chart' run', (chart.parse sentence scorer).outcome run = (.ok (.ok chart'), run') ∧
      ∀ run₁ : Run J S, ∃ post run₂,
        (Posterior.ofChart chart' scorer).outcome run₁ = (.ok (.ok post), run₂) ∧
        post.logZ.getD 0 =
          ∑ᶠ d ∈ derivations g sentence scorer p g.root 0 sentence.length, d.weight scorer ∧
        ∀ total, post.logZ = some total → total ≠ 0 →
          [p.Unreached g sentence scorer, post.Exact g sentence scorer p total,
            ∀ position, position < sentence.length →
              post.terminalOutsideScore position = .ok total].TFAE := by
  obtain ⟨chart', run', hrun, rfl, rfl, hreadable, htotals, hpass⟩ :=
    hchart.parse_pushed hg hagg hsentence hp hfree scorer run
  refine ⟨chart', run', hrun, fun run₁ => ?_⟩
  obtain ⟨post, run₂, hrun₂, hlogZ, hsum, hpushed⟩ := hpass run₁
  refine ⟨post, run₂, hrun₂, hsum, fun total htotal hne => ?_⟩
  exact (hpushed total htotal hne).exact_tfae hreadable htotals hfree (hlogZ.symm.trans htotal) hne

/-! ## One way to split forbidden -/

/-- `S ::= A` and `A ::= 'a'` at a position. -/
def leaf (position : Nat) : Derivation ℚ≥0 :=
  .unary ⟨.ofNat 1, .ofNat 0, .unary (.ofNat 1), 1⟩
    (.lexical ⟨.ofNat 2, .ofNat 1, .lexical (.ofNat 0), 1⟩ position)

/-- `S ::= S S`. -/
def join (left right : Derivation ℚ≥0) : Derivation ℚ≥0 :=
  .binary ⟨.ofNat 0, .ofNat 0, .binary (.ofNat 0) (.ofNat 0), 1⟩ left right

section

variable {g : Grammar ℚ≥0} (hrules : g.rules = Grammar.numbered (Grammar.Small.rules ℚ≥0))

include hrules

theorem valid_leaf {position : Nat} (h : position < 3) : (leaf position).Valid g threeTokens := by
  have htoken : threeTokens[position]? = some (.ofNat 0) := by
    rw [threeTokens, List.getElem?_replicate, if_pos h]
  refine ⟨?_, rfl, ?_, _, rfl, htoken⟩
  · rw [hrules]
    exact Array.mem_of_getElem? (show _ = _ from rfl : (Grammar.numbered _)[1]? = _)
  · rw [hrules]
    exact Array.mem_of_getElem? (show _ = _ from rfl : (Grammar.numbered _)[2]? = _)

theorem valid_join {left right : Derivation ℚ≥0} (hl : left.Valid g threeTokens)
    (hr : right.Valid g threeTokens) (hlsym : left.symbol = .ofNat 0)
    (hrsym : right.symbol = .ofNat 0) (hmid : left.stop = right.start) :
    (join left right).Valid g threeTokens := by
  refine ⟨?_, by rw [hlsym, hrsym], hmid, hl, hr⟩
  rw [hrules]
  exact Array.mem_of_getElem? (show _ = _ from rfl : (Grammar.numbered _)[0]? = _)

end

/-- Derivations of which every step weighs a half have weight. -/
theorem weight_halves_ne_zero (d : Derivation ℚ≥0) : d.weight halves ≠ 0 := by
  refine List.prod_ne_zero fun hzero => ?_
  obtain ⟨st, _, hst⟩ := List.mem_map.mp hzero
  exact absurd (show (1 / 2 : ℚ≥0) = 0 from hst) (by simp)

/-- The first token stands alone: nothing spans the first two, and nothing from the start is
split after them. -/
def firstAlone : CellPredicate ℚ≥0 :=
  ⟨fun start stop mid _ _ => !(start == 0 && (stop == 2 || mid == 2))⟩

/-- What would be split there would have a left side over the first two tokens. -/
theorem unreached_firstAlone (g : Grammar ℚ≥0) (scorer : Scorer ℚ≥0) :
    firstAlone.Unreached g threeTokens scorer := by
  intro d hvalid hparts hrejected hreached
  have hspan : ∀ d' : Derivation ℚ≥0, d'.TopAdmitted scorer firstAlone → d'.start = 0 →
      d'.stop ≠ 2 := by
    intro d' hadmitted hstart hstop
    simp [Derivation.TopAdmitted, firstAlone, hstart, hstop] at hadmitted
  have hstop : d.start = 0 → d.stop ≠ 2 := by
    intro hstart hstop
    rcases hreached.nonempty with hroot | hne
    · have hthree : d.stop = 3 := congrArg Constituent.stop hroot
      omega
    · obtain ⟨d', _, hadmitted, _, hs, he⟩ := hne
      exact hspan d' hadmitted.1 (hs.trans hstart) (he.trans hstop)
  obtain ⟨hstart, himp⟩ : d.start = 0 ∧ (¬ d.stop = 2 → d.mid = 2) := by
    simpa [Derivation.TopAdmitted, firstAlone] using hrejected
  have hmid := himp (hstop hstart)
  cases d with
  | lexical r position => exact absurd (hstart.symm.trans hmid) (by decide)
  | unary r child => exact absurd hmid (hstop hstart)
  | binary r left right => exact absurd hmid (hspan left hparts.1.1 hstart)

/-- A chart for the small grammar with a constraint. -/
theorem exists_constrained (p : CellPredicate ℚ≥0) :
    ∃ (g : Grammar ℚ≥0) (chart : Chart ℚ≥0 (CellPredicate ℚ≥0)) (config : ChartConfig),
      g.Accepted ∧ g.root = .ofNat 0 ∧ g.rules = Grammar.numbered (Grammar.Small.rules ℚ≥0) ∧
      (∀ token ∈ threeTokens, token.index < g.terminalCount) ∧ config.aggregation = .inside ∧
      chart.constraint = some p ∧ chart.Reachable Jitter g config := by
  obtain ⟨g, _, hg, hcount, horder, hroot, hrules⟩ :=
    Grammar.Small.accepted ℚ≥0 rfl rfl .cartesianProduct
  have hnew : (.vacant g ⟨.inside, .doubleHashed, .cartesianProduct⟩ :
      Chart ℚ≥0 (CellPredicate ℚ≥0)).Reachable Jitter g
        ⟨.inside, .doubleHashed, .cartesianProduct⟩ := reachable_new rfl horder
  have htokens : ∀ token ∈ threeTokens, token.index < g.terminalCount := by
    rw [hcount]
    decide
  exact ⟨g, _, _, hg, hroot, hrules, htokens, rfl, rfl, hnew.constrain p⟩

/-- With the split after the first token admitted there is a total. -/
theorem exists_total {g : Grammar ℚ≥0} (hg : g.Indexed) (hroot : g.root = .ofNat 0)
    (hrules : g.rules = Grammar.numbered (Grammar.Small.rules ℚ≥0)) {p : CellPredicate ℚ≥0}
    (hp : p.ScoreFree) (hadmitted : (join (leaf 0) (join (leaf 1) (leaf 2))).Admitted halves p)
    {logZ : Option ℚ≥0} (hlogZ : logZ.getD 0 =
      ∑ᶠ d ∈ derivations g threeTokens halves p g.root 0 threeTokens.length, d.weight halves) :
    ∃ total, logZ = some total ∧ total ≠ 0 := by
  have hvalid : (join (leaf 0) (join (leaf 1) (leaf 2))).Valid g threeTokens :=
    valid_join hrules (valid_leaf hrules (by decide)) (valid_join hrules
      (valid_leaf hrules (by decide)) (valid_leaf hrules (by decide)) rfl rfl rfl) rfl rfl rfl
  have hweight := (pos_iff_ne_zero.mpr (weight_halves_ne_zero _)).trans_le
    (weight_le_sum hg hp ⟨hvalid, hadmitted, hroot.symm, rfl, rfl⟩)
  cases logZ with
  | none => exact absurd hlogZ hweight.ne
  | some total =>
    refine ⟨total, rfl, ?_⟩
    rw [show total = _ from hlogZ]
    exact hweight.ne'

/-- The small grammar over `a a a`, with one of the two ways to split it forbidden together
with the constituent that only this one has. -/
theorem parse_posteriors_constrained_small :
    ∃ (g : Grammar ℚ≥0) (chart chart' : Chart ℚ≥0 (CellPredicate ℚ≥0))
      (run' run₂ : Run Jitter ℚ≥0) (post : Posterior ℚ≥0 ℚ≥0) (total : ℚ≥0),
      g.Accepted ∧ chart.constraint = some firstAlone ∧ ¬ firstAlone.SpanOnly ∧
      (chart.parse threeTokens halves).outcome (.start (.ofSeed 0)) = (.ok (.ok chart'), run') ∧
      (Posterior.ofChart chart' halves).outcome run' = (.ok (.ok post), run₂) ∧
      post.logZ = some total ∧ total ≠ 0 ∧
      post.Exact g threeTokens halves firstAlone total ∧
      ∀ position, position < 3 → post.terminalOutsideScore position = .ok total := by
  obtain ⟨g, chart, config, hg, hroot, hrules, htokens, hagg, hconstraint, hchart⟩ :=
    exists_constrained firstAlone
  have hfree : firstAlone.ScoreFree := fun _ _ _ _ _ _ => rfl
  have hfollows : Follows (chart.announced threeTokens) threeTokens.length firstAlone :=
    follows_of_some hconstraint _ _
  obtain ⟨chart', run', hrun, hpass⟩ := parse_posteriors_constrained hg hagg hchart htokens
    hfollows hfree halves (.start (.ofSeed 0))
  obtain ⟨post, run₂, hrun₂, hlogZ, hexact⟩ := hpass run'
  have hsplits : ¬ firstAlone.SpanOnly := fun hspan =>
    absurd (hspan 0 3 1 2 ⟨.ofNat 0, .ofNat 0, .binary (.ofNat 0) (.ofNat 0), 1⟩
      ⟨.ofNat 0, .ofNat 0, .binary (.ofNat 0) (.ofNat 0), 1⟩ 1 1) (by decide)
  obtain ⟨total, htotal, hne⟩ := exists_total hg.indexed hroot hrules hfree
    (by simp [join, leaf, Derivation.Admitted, Derivation.TopAdmitted, Derivation.PartsAdmitted,
      firstAlone, Derivation.start, Derivation.stop, Derivation.mid]) hlogZ
  have htfae := hexact total htotal hne
  have hunreached := unreached_firstAlone g halves
  exact ⟨g, chart, chart', run', run₂, post, total, hg, hconstraint, hsplits, hrun, hrun₂, htotal,
    hne, (htfae.out 0 1).mp hunreached, (htfae.out 0 2).mp hunreached⟩

/-- Left sides are no longer than right sides. -/
def shortLeft : CellPredicate ℚ≥0 :=
  ⟨fun start stop mid rule _ => !rule.isBinary || decide (mid - start ≤ stop - mid)⟩

/-- The root is always reached, so the second way to split `a a a` is in reach. -/
theorem not_unreached_shortLeft {g : Grammar ℚ≥0} (hroot : g.root = .ofNat 0)
    (hrules : g.rules = Grammar.numbered (Grammar.Small.rules ℚ≥0)) :
    ¬ shortLeft.Unreached g threeTokens halves := by
  intro hunreached
  let d := join (join (leaf 0) (leaf 1)) (leaf 2)
  have hvalid : d.Valid g threeTokens :=
    valid_join hrules (valid_join hrules (valid_leaf hrules (by decide))
      (valid_leaf hrules (by decide)) rfl rfl rfl) (valid_leaf hrules (by decide)) rfl rfl rfl
  have hparts : d.PartsAdmitted halves shortLeft := by
    simp [d, join, leaf, Derivation.TopAdmitted, Derivation.PartsAdmitted, shortLeft,
      Derivation.start, Derivation.stop, Derivation.mid, Derivation.rule, Rule.isBinary]
  have hrejected : ¬ d.TopAdmitted halves shortLeft := by
    simp [d, join, leaf, Derivation.TopAdmitted, shortLeft, Derivation.start, Derivation.stop,
      Derivation.mid, Derivation.rule, Rule.isBinary]
  have hreached : Reached g threeTokens halves shortLeft ⟨d.symbol, d.start, d.stop⟩ := by
    have h : Reached g threeTokens halves shortLeft ⟨g.root, 0, threeTokens.length⟩ := .root
    rw [hroot] at h
    exact h
  exact weight_halves_ne_zero d (hunreached d hvalid hparts hrejected hreached)

/-- The small grammar over `a a a` again. Here only one of the two ways to split it is
forbidden, and what it would be split into is not. -/
theorem parse_posteriors_shortLeft :
    ∃ (g : Grammar ℚ≥0) (chart chart' : Chart ℚ≥0 (CellPredicate ℚ≥0))
      (run' run₂ : Run Jitter ℚ≥0) (post : Posterior ℚ≥0 ℚ≥0) (total : ℚ≥0),
      g.Accepted ∧ chart.constraint = some shortLeft ∧
      (chart.parse threeTokens halves).outcome (.start (.ofSeed 0)) = (.ok (.ok chart'), run') ∧
      (Posterior.ofChart chart' halves).outcome run' = (.ok (.ok post), run₂) ∧
      post.logZ = some total ∧ total ≠ 0 ∧
      ¬ post.Exact g threeTokens halves shortLeft total ∧
      ∃ position, position < 3 ∧ post.terminalOutsideScore position ≠ .ok total := by
  obtain ⟨g, chart, config, hg, hroot, hrules, htokens, hagg, hconstraint, hchart⟩ :=
    exists_constrained shortLeft
  have hfree : shortLeft.ScoreFree := fun _ _ _ _ _ _ => rfl
  have hfollows : Follows (chart.announced threeTokens) threeTokens.length shortLeft :=
    follows_of_some hconstraint _ _
  obtain ⟨chart', run', hrun, rfl, hsentence, hreadable, htotals, hpass⟩ :=
    hchart.parse_pushed hg hagg htokens hfollows hfree halves (.start (.ofSeed 0))
  obtain ⟨post, run₂, hrun₂, hvalue, hlogZ, hpushed⟩ := hpass run'
  obtain ⟨total, htotal, hne⟩ := exists_total hg.indexed hroot hrules hfree
    (by simp [join, leaf, Derivation.Admitted, Derivation.TopAdmitted, Derivation.PartsAdmitted,
      shortLeft, Derivation.start, Derivation.stop, Derivation.mid, Derivation.rule,
      Rule.isBinary]) hlogZ
  rw [← hsentence] at htotals hvalue
  have htfae := (hpushed total htotal hne).exact_tfae hreadable htotals hfree
    (hvalue.symm.trans htotal) hne
  rw [hsentence] at htfae
  have hreached := not_unreached_shortLeft hroot hrules
  refine ⟨_, chart, chart', run', run₂, post, total, hg, hconstraint, hrun, hrun₂, htotal, hne,
    fun hexact => hreached ((htfae.out 0 1).mpr hexact), ?_⟩
  by_contra hnone
  refine hreached ((htfae.out 0 2).mpr fun position hposition => ?_)
  by_contra hscore
  exact hnone ⟨position, hposition, hscore⟩

end Chart

end ChartParsing
