import ChartParsing.Proofs.Outside.Start

/-!
# Posteriors are shares of derivations

After an outside pass over a parsed chart, inside and outside score of a constituent
together are the weight of the derivations of the sentence that have it, and its
marginal is the share that these have of all derivations. The expected count of a rule
is the number of its applications in each derivation, averaged with the shares of the
derivations.

The scores have to be nonnegative weights, and the steps that the constraint rejects
idle, since the pass goes through them as through all others. They are if the
constraint looks at spans only. One that accepts a rule and rejects another over the
same span would keep a rule from deriving anything, but the pass would still count it.
-/

namespace ChartParsing

variable {S C J : Type} [Score S] [Semifield S] [LinearOrder S] [Probability S] [Sharing S S]
  [ShareScore S] [IsStrictOrderedRing S] [CanonicallyOrderedAdd S]

namespace Posterior

/-- What a posterior says is true of the derivations of the sentence, of which `total`
is the weight. -/
structure Exact (post : Posterior S S) (g : Grammar S) (sentence : List Symbol)
    (scorer : Scorer S) (p : CellPredicate S) (total : S) : Prop where
  /-- Inside and outside score of a constituent are the weight of the derivations that
  have it. -/
  joint : ∀ sym start stop, start < stop → stop ≤ sentence.length →
    ∃ inside outside, post.insideScore sym start stop = .ok inside ∧
      post.outsideScore sym start stop = .ok outside ∧
      inside * outside =
        ∑ᶠ d ∈ derivationsWith g sentence scorer p ⟨sym, start, stop⟩, d.weight scorer
  /-- Its marginal is their share. -/
  marginal : ∀ sym start stop, start < stop → stop ≤ sentence.length →
    ∃ share, post.marginal sym start stop = .ok share ∧
      share = (∑ᶠ d ∈ derivationsWith g sentence scorer p ⟨sym, start, stop⟩, d.weight scorer) /
        total ∧ 0 ≤ share ∧ share ≤ 1
  marginal_root : post.marginal g.root 0 sentence.length = .ok 1
  /-- The count of a rule is the expected number of its applications. -/
  ruleCount : ∀ r ∈ g.rules, post.ruleCount r.id =
    .ok (∑ᶠ d ∈ derivations g sentence scorer p g.root 0 sentence.length,
      d.weight scorer / total * (d.applications r.id : S))
  outside_root : post.outsideScore g.root 0 sentence.length = .ok 1
  /-- Sparing the root loses nothing. Only a unary rule could pass something on to the root
  over the whole sentence, and its parent has outside score zero. -/
  parent_of_root : ∀ r ∈ g.rules, r.rhs = .unary g.root →
    post.outsideScore r.parent 0 sentence.length = .ok 0

section

variable {chart : Chart S C} {scorer : Scorer S} {p : CellPredicate S} {post : Posterior S S}
  {total : S} {steps : List (Step S)}

omit [IsStrictOrderedRing S] [CanonicallyOrderedAdd S] in
/-- What is read is the weight in the table, also for symbols outside the alphabet. -/
theorem entry_ok (h : post.Frame chart) {table : SpanTable S}
    (hfull : table.Full chart.length chart.grammar.nonterminalCount) {c : Constituent}
    (h₁ : c.start < c.stop) (h₂ : c.stop ≤ chart.length) :
    post.entry table c.symbol c.start c.stop = .ok (table.weight c) := by
  unfold entry
  rw [if_pos ⟨h₁, by rw [h.tokens_eq]; exact h₂⟩, h.nonterminals_eq]
  split
  · rename_i hsym
    rw [WeightScore.impossible_eq, hfull.weight_eq_zero fun hc => Nat.not_lt.mpr hsym hc.symbol_lt]
  · rename_i hsym
    exact hfull.get_eq ⟨h₁, h₂, Nat.lt_of_not_le hsym⟩

omit [IsStrictOrderedRing S] in
theorem total?_eq_some : post.total? = some total ↔ post.logZ = some total ∧ total ≠ 0 := by
  have hexceeds : ∀ v : S, Score.exceeds v Score.impossible = true ↔ v ≠ 0 := by
    intro v
    rw [ShareScore.exceeds_iff, WeightScore.impossible_eq]
    exact pos_iff_ne_zero
  unfold total?
  cases hlogZ : post.logZ with
  | none => simp
  | some v =>
    simp only [hexceeds, Option.ite_none_right_eq_some, Option.some.injEq]
    refine ⟨?_, ?_⟩
    · intro h
      rcases h with ⟨hne, rfl⟩
      exact ⟨rfl, hne⟩
    · intro h
      rcases h with ⟨rfl, hne⟩
      exact ⟨hne, rfl⟩

omit [IsStrictOrderedRing S] [CanonicallyOrderedAdd S] in
/-- A marginal is a share, zero if the joint score is. -/
theorem marginal_eq (htotal : post.total? = some total) {sym : Symbol} {start stop : Nat}
    {inside outside : S} (hinside : post.insideScore sym start stop = .ok inside)
    (houtside : post.outsideScore sym start stop = .ok outside) :
    post.marginal sym start stop = .ok (inside * outside / total) := by
  unfold marginal
  simp only [htotal, hinside, houtside]
  show (if Score.isImpossible (Score.combine inside outside) then .ok Probability.none
    else .ok (Sharing.share (Score.combine inside outside) total) : Except Fault S) = _
  rw [WeightScore.combine_eq, ShareScore.share_eq, ShareScore.none_eq]
  split
  · rename_i hzero
    rw [(ShareScore.isImpossible_iff _).mp hzero, zero_div]
  · rfl

omit [Probability S] [Sharing S S] [ShareScore S] in
/-- Not all derivations need to have a constituent. -/
theorem sum_derivationsWith_le {g : Grammar S} (hg : g.Indexed) {sentence : List Symbol}
    (hp : p.ScoreFree) (c : Constituent) :
    ∑ᶠ d ∈ derivationsWith g sentence scorer p c, d.weight scorer ≤
      totalWeight g sentence scorer p g.root 0 sentence.length := by
  have hfinite := finite_derivations hg hp sentence scorer g.root 0 sentence.length
  have hle : ((derivationList g sentence scorer p g.root 0 sentence.length).map fun d =>
      if d.Has c then d.weight scorer else 0).sum ≤
        totalWeight g sentence scorer p g.root 0 sentence.length := by
    refine List.sum_le_sum fun d _ => ?_
    split
    · exact le_refl _
    · exact zero_le
  rw [sum_listing_ite hfinite] at hle
  exact hle

omit [LinearOrder S] [Probability S] [Sharing S S] [ShareScore S] [IsStrictOrderedRing S]
  [CanonicallyOrderedAdd S] [Score S] in
/-- What is read as the count of a rule. -/
theorem Pushed.ruleCount_eq (h : Pushed chart scorer total steps post) {r : Rule S}
    (hr : r ∈ chart.grammar.rules) : post.ruleCount r.id =
      .ok ((steps.map fun st => if st.rule.id = r.id then post.outside.weight st.made *
        st.weight scorer chart.values.weight else 0).sum / total) := by
  have hcount := h.counts r hr
  unfold ruleCount
  rw [hcount, div_eq_mul_inv, ← List.sum_map_mul_right]
  refine congrArg (fun xs : List S => Except.ok xs.sum) (List.map_congr_left fun st _ => ?_)
  rw [ite_mul, zero_mul, stepShare, div_eq_mul_inv]

omit [LinearOrder S] [Probability S] [Sharing S S] [ShareScore S] [IsStrictOrderedRing S]
  [CanonicallyOrderedAdd S] in
/-- Averaging with shares is dividing by the total in the end. -/
theorem sum_shares {g : Grammar S} (hg : g.Indexed) {sentence : List Symbol} (hp : p.ScoreFree)
    (id : RuleId) :
    ∑ᶠ d ∈ derivations g sentence scorer p g.root 0 sentence.length,
        d.weight scorer / total * (d.applications id : S) =
      (∑ᶠ d ∈ derivations g sentence scorer p g.root 0 sentence.length,
        d.weight scorer * (d.applications id : S)) / total := by
  rw [div_eq_mul_inv, finsum_mem_mul' _ _ (finite_derivations hg hp _ _ _ _ _)]
  refine finsum_mem_congr rfl fun d _ => ?_
  rw [div_eq_mul_inv, mul_right_comm]

omit [IsStrictOrderedRing S] [CanonicallyOrderedAdd S] in
/-- What is read as an inside score within the sentence. -/
theorem Pushed.insideScore_eq (h : Pushed chart scorer total steps post) {sym : Symbol}
    {start stop : Nat} (h₁ : start < stop) (h₂ : stop ≤ chart.length) :
    post.insideScore sym start stop = .ok (chart.values.weight sym start stop) := by
  rw [← h.frame.inside_eq ⟨sym, start, stop⟩]
  exact entry_ok (c := ⟨sym, start, stop⟩) h.frame h.frame.inside_full h₁ h₂

omit [IsStrictOrderedRing S] [CanonicallyOrderedAdd S] in
/-- What is read as an outside score within the sentence. -/
theorem Pushed.outsideScore_eq (h : Pushed chart scorer total steps post) {sym : Symbol}
    {start stop : Nat} (h₁ : start < stop) (h₂ : stop ≤ chart.length) :
    post.outsideScore sym start stop = .ok (post.outside.weight ⟨sym, start, stop⟩) :=
  entry_ok (c := ⟨sym, start, stop⟩) h.frame h.full h₁ h₂

omit [IsStrictOrderedRing S] in
/-- What is read as a marginal within the sentence. -/
theorem Pushed.marginal_eq (h : Pushed chart scorer total steps post)
    (htotal : chart.values chart.grammar.root 0 chart.length = some total) (hne : total ≠ 0)
    {sym : Symbol} {start stop : Nat} (h₁ : start < stop) (h₂ : stop ≤ chart.length) :
    post.marginal sym start stop = .ok (chart.values.weight sym start stop *
      post.outside.weight ⟨sym, start, stop⟩ / total) :=
  Posterior.marginal_eq (total?_eq_some.mpr ⟨h.frame.logZ_eq.trans htotal, hne⟩)
    (h.insideScore_eq h₁ h₂) (h.outsideScore_eq h₁ h₂)

/-- **A pass that has gone through all steps is exact**, if rejected ones are idle. -/
theorem Pushed.exact_of_idle (h : Pushed chart scorer total chart.passSteps post)
    (hchart : chart.Readable) (hV : chart.values.Total chart.grammar chart.sentence scorer p)
    (hp : p.ScoreFree)
    (hidle : Idle chart.grammar chart.sentence scorer p chart.passSteps post.outside.weight)
    (htotal : chart.values chart.grammar.root 0 chart.length = some total) (hne : total ≠ 0) :
    post.Exact chart.grammar chart.sentence scorer p total := by
  have hI : chart.values.weight = totalWeight chart.grammar chart.sentence scorer p := by
    funext sym start stop
    exact hV.weight_eq sym start stop
  have hscores := h.scores
  rw [hI] at hscores
  have hg := hchart.indexed
  have hsteps := hchart.listsSteps
  have hjoint := hscores.mul_totalWeight hg hsteps hV hp hidle
  have hlength : 0 < chart.sentence.length := (Chart.span_of_values htotal).1
  have hwhole : totalWeight chart.grammar chart.sentence scorer p chart.grammar.root 0
      chart.sentence.length = total := by
    rw [← hI, Values.weight]
    exact congrArg (Option.getD · 0) htotal
  refine ⟨?_, ?_, ?_, ?_, ?_, ?_⟩
  · intro sym start stop h₁ h₂
    refine ⟨_, _, h.insideScore_eq h₁ h₂, h.outsideScore_eq h₁ h₂, ?_⟩
    rw [hI, mul_comm, hjoint ⟨sym, start, stop⟩]
  · intro sym start stop h₁ h₂
    refine ⟨_, h.marginal_eq htotal hne h₁ h₂, ?_, zero_le, ?_⟩
    · rw [hI, mul_comm, hjoint ⟨sym, start, stop⟩]
    · rw [hI, mul_comm, hjoint ⟨sym, start, stop⟩, div_le_one₀ (pos_iff_ne_zero.mpr hne), ← hwhole]
      exact sum_derivationsWith_le hg hp _
  · have htop : post.outside.weight ⟨chart.grammar.root, 0, chart.sentence.length⟩ = 1 :=
      hscores.top_eq
    rw [h.marginal_eq htotal hne hlength (Nat.le_refl _), hI, hwhole, htop, mul_one, div_self hne]
  · intro r hr
    rw [h.ruleCount_eq hr, sum_shares hg hp, hI, hscores.sum_applications hg hsteps hV hp hidle]
  · rw [h.outsideScore_eq hlength (Nat.le_refl _)]
    exact congrArg Except.ok hscores.top_eq
  · intro r hr hrhs
    rw [h.outsideScore_eq hlength (Nat.le_refl _)]
    exact congrArg Except.ok (hscores.parent_of_root hg hsteps hV hr hrhs)

/-- A pass is exact under a predicate that depends on the span alone. -/
theorem Pushed.exact (h : Pushed chart scorer total chart.passSteps post) (hchart : chart.Readable)
    (hV : chart.values.Total chart.grammar chart.sentence scorer p) (hp : p.SpanOnly)
    (htotal : chart.values chart.grammar.root 0 chart.length = some total) (hne : total ≠ 0) :
    post.Exact chart.grammar chart.sentence scorer p total :=
  h.exact_of_idle hchart hV hp.scoreFree
    (hp.idle h.scores hchart.listsSteps hV (Option.isSome_iff_exists.mpr ⟨total, htotal⟩))
    htotal hne

/-- Both passes. Without a total there is nothing to pass down. -/
theorem ofChart_ends [ScoreText S] (hchart : chart.Readable)
    (hagg : chart.config.aggregation = .inside) (scorer : Scorer S) (run : Run J S) :
    (ofChart chart scorer).Ends (fun _ _ => False) run fun result _ => ∃ post, result = .ok post ∧
      post.logZ = chart.values chart.grammar.root 0 chart.length ∧
      ∀ total, post.logZ = some total → total ≠ 0 →
        Pushed chart scorer total chart.passSteps post := by
  -- an empty sentence has no cells, and so no total
  have hstart : ∃ p : Posterior S S, ofInside chart = .ok p ∧
      p.logZ = chart.values chart.grammar.root 0 chart.length ∧
      ∀ total, p.logZ = some total → Pushed chart scorer total [] p := by
    rcases Nat.eq_zero_or_pos chart.length with hzero | hpos
    · have hnone : chart.values chart.grammar.root 0 chart.length = none := by
        refine Option.eq_none_iff_forall_not_mem.mpr fun v hv => ?_
        have := (Chart.span_of_values hv).1
        omega
      refine ⟨_, ofInside_empty hzero, hnone.symm, ?_⟩
      intro total htotal
      cases htotal
    · obtain ⟨p, hp, hpushed⟩ := ofInside_ok hchart hpos
      exact ⟨p, hp, (hpushed scorer 0).frame.logZ_eq, fun total _ => hpushed scorer total⟩
  obtain ⟨p, hp, hlogZ, hpushed⟩ := hstart
  unfold ofChart
  rw [if_neg (by rw [hagg]; exact fun h => h rfl)]
  refine Effect.ends_bind_ok hp ?_
  split
  · rename_i total htotal
    obtain ⟨hsome, hne⟩ := total?_eq_some.mp htotal
    have hroot : (chart.values chart.grammar.root 0 chart.length).isSome = true := by
      rw [← hlogZ, hsome]
      rfl
    refine Effect.ends_bind (push_ends hchart hroot (hpushed total hsome) run) ?_
    intro post run₂ h
    have hpost := h.frame.logZ_eq
    refine log_ends fun _ => ⟨post, rfl, hpost, fun total' htotal' _ => ?_⟩
    rw [hpost, ← hlogZ, hsome] at htotal'
    cases htotal'
    exact h
  · rename_i hnone
    refine Effect.ends_bind (Q := fun p' _ => p' = p) (Effect.ends_pure rfl) ?_
    intro p run₂ heq
    subst heq
    refine log_ends fun _ => ⟨p, rfl, hlogZ, fun total htotal hne => ?_⟩
    cases hnone.symm.trans (total?_eq_some.mpr ⟨htotal, hne⟩)

end

end Posterior

namespace Chart

variable [CellConstraint C S] [JitterSource J] {chart chart' : Chart S C} {sentence : List Symbol}
  {scorer : Scorer S} {p : CellPredicate S}

omit [Semifield S] [LinearOrder S] [Probability S] [Sharing S S] [ShareScore S]
  [IsStrictOrderedRing S] [CanonicallyOrderedAdd S] in
/-- A parsed chart can be read. -/
theorem Parsed.readable (h : chart.Parsed J sentence scorer chart') (hg : chart.grammar.Indexed)
    (hfree : p.ScoreFree) (hp : Follows (chart.announced sentence) sentence.length p) :
    chart'.Readable := by
  have hlength : chart'.length = sentence.length := h.length_eq
  refine ⟨by rw [h.grammar_eq]; exact hg, fun start stop h₁ h₂ => ?_, fun sym start stop v hv => ?_⟩
  · obtain ⟨site, hcell, hcomplete⟩ := h.exists_cell h₁ h₂
    exact ⟨site.cell, hcell, hcomplete.shut⟩
  · obtain ⟨h₁, h₂⟩ := span_of_values hv
    obtain ⟨d, hvalid, _, rfl, _⟩ :=
      (h.contains_iff hg hfree hp sym start stop h₁ (by omega)).mp ⟨v, hv⟩
    rw [h.grammar_eq]
    exact hg.parent_lt _ hvalid.rule_mem

omit [IsStrictOrderedRing S] [CanonicallyOrderedAdd S] in
/-- What a parsed chart holds, over all spans. -/
theorem Parsed.total (h : chart.Parsed J sentence scorer chart') (hg : chart.grammar.Indexed)
    (hagg : chart.config.aggregation = .inside) (hfree : p.ScoreFree)
    (hp : Follows (chart.announced sentence) sentence.length p) :
    chart'.values.Total chart.grammar sentence scorer p := by
  have hlength : chart'.length = sentence.length := h.length_eq
  have hiff : ∀ sym start stop, (chart'.values sym start stop).isSome = true ↔
      (derivations chart.grammar sentence scorer p sym start stop).Nonempty := by
    intro sym start stop
    rw [Option.isSome_iff_exists]
    refine ⟨?_, ?_⟩
    · intro hx
      rcases hx with ⟨v, hv⟩
      obtain ⟨h₁, h₂⟩ := span_of_values hv
      exact (h.contains_iff hg hfree hp sym start stop h₁ (by omega)).mp ⟨v, hv⟩
    · intro hne
      obtain ⟨_, hvalid, _, _, rfl, rfl⟩ := id hne
      obtain ⟨h₁, h₂⟩ := hvalid.span
      exact (h.contains_iff hg hfree hp _ _ _ h₁ h₂).mpr hne
  refine ⟨fun sym start stop => ?_, hiff⟩
  by_cases hspan : start < stop ∧ stop ≤ sentence.length
  · exact h.weight_eq_totalWeight hg hagg hfree hp sym start stop hspan.1 hspan.2
  · -- over anything else there is nothing
    have hnone : chart'.values sym start stop = none := by
      refine Option.eq_none_iff_forall_not_mem.mpr fun v hv => hspan ?_
      rw [← hlength]
      exact span_of_values hv
    have hempty : derivationList chart.grammar sentence scorer p sym start stop = [] := by
      refine derivationList_eq_nil fun hne => hspan ?_
      obtain ⟨d, hvalid, _, _, rfl, rfl⟩ := hne
      exact hvalid.span
    rw [Values.weight, hnone, totalWeight, hempty]
    rfl

/-- **Posteriors are shares of derivations.** Both passes return, the total is the weight
of the derivations of the sentence, and if it is not zero the posterior says what is true
of them. -/
theorem parse_posteriors [ScoreText S] {g : Grammar S} (hg : g.Accepted) {config : ChartConfig}
    (hagg : config.aggregation = .inside) (hchart : chart.Reachable J g config)
    (hsentence : ∀ token ∈ sentence, token.index < g.terminalCount)
    (hp : Follows (chart.announced sentence) sentence.length p) (hspan : p.SpanOnly)
    (scorer : Scorer S) (run : Run J S) :
    ∃ chart' run', (chart.parse sentence scorer).outcome run = (.ok (.ok chart'), run') ∧
      ∀ run₁ : Run J S, ∃ post run₂,
        (Posterior.ofChart chart' scorer).outcome run₁ = (.ok (.ok post), run₂) ∧
        post.logZ.getD 0 =
          ∑ᶠ d ∈ derivations g sentence scorer p g.root 0 sentence.length, d.weight scorer ∧
        ∀ total, post.logZ = some total → total ≠ 0 →
          post.Exact g sentence scorer p total := by
  obtain ⟨chart', run', hrun, hparsed⟩ :=
    hchart.parse_returns hg hsentence hp WeightScore.isUndefined_eq scorer run
  obtain ⟨_, rfl, rfl⟩ := hchart.shaped hg.indexed
  have hfree := hspan.scoreFree
  have hreadable := hparsed.readable hg.indexed hfree hp
  have htotals := hparsed.total hg.indexed hagg hfree hp
  refine ⟨chart', run', hrun, fun run₁ => ?_⟩
  obtain ⟨_, run₂, hrun₂, post, rfl, hlogZ, hpushed⟩ :=
    (Posterior.ofChart_ends hreadable (by rw [hparsed.config_eq]; exact hagg) scorer run₁).returns
  refine ⟨post, run₂, hrun₂, ?_, fun total htotal hne => ?_⟩
  · have hfinite := finite_derivations hg.indexed hfree sentence scorer chart.grammar.root 0
      sentence.length
    rw [hlogZ, length, hparsed.grammar_eq, hparsed.sentence_eq, ← sum_listing hfinite]
    exact htotals.weight_eq _ _ _
  · have hexact := (hpushed total htotal hne).exact (p := p) hreadable
      (by rw [hparsed.grammar_eq, hparsed.sentence_eq]; exact htotals) hspan
      (hlogZ.symm.trans htotal) hne
    rw [hparsed.grammar_eq, hparsed.sentence_eq] at hexact
    exact hexact

omit [Probability S] [Sharing S S] [ShareScore S] in
/-- A derivation weighs no more than all of them. -/
theorem weight_le_sum {g : Grammar S} (hg : g.Indexed) (hp : p.ScoreFree) {sym : Symbol}
    {start stop : Nat} {d : Derivation S}
    (hd : d ∈ derivations g sentence scorer p sym start stop) :
    d.weight scorer ≤ ∑ᶠ d ∈ derivations g sentence scorer p sym start stop, d.weight scorer := by
  have hfinite := finite_derivations hg hp sentence scorer sym start stop
  rw [← sum_listing hfinite]
  exact List.single_le_sum (by simp) _ (List.mem_map_of_mem ((mem_listing hfinite).mpr hd))

/-- The sentence `a a a`. -/
def threeTokens : List Symbol := List.replicate 3 (.ofNat 0)

/-- Every rule weighs a half. -/
def halves : Scorer ℚ≥0 := ⟨fun _ _ _ _ => 1 / 2⟩

/-- Nothing spans the first two tokens. -/
def notFirstTwo : CellPredicate ℚ≥0 := ⟨fun start stop _ _ _ => !(start == 0 && stop == 2)⟩

/-- `S ::= S S`, `S ::= A` and `A ::= 'a'` at the first, second and third token, the
split that is not forbidden. -/
def splitAfterFirst : Derivation ℚ≥0 :=
  let leaf (position : Nat) : Derivation ℚ≥0 :=
    .unary ⟨.ofNat 1, .ofNat 0, .unary (.ofNat 1), 1⟩
      (.lexical ⟨.ofNat 2, .ofNat 1, .lexical (.ofNat 0), 1⟩ position)
  let join : Rule ℚ≥0 := ⟨.ofNat 0, .ofNat 0, .binary (.ofNat 0) (.ofNat 0), 1⟩
  .binary join (leaf 0) (.binary join (leaf 1) (leaf 2))

/-- The small grammar over `a a a`, with one of the two ways to split it forbidden. -/
theorem parse_posteriors_small :
    ∃ (g : Grammar ℚ≥0) (chart chart' : Chart ℚ≥0 (CellPredicate ℚ≥0))
      (run' run₂ : Run Jitter ℚ≥0) (post : Posterior ℚ≥0 ℚ≥0) (total : ℚ≥0),
      g.Accepted ∧ chart.constraint = some notFirstTwo ∧
      (chart.parse threeTokens halves).outcome (.start (.ofSeed 0)) = (.ok (.ok chart'), run') ∧
      (Posterior.ofChart chart' halves).outcome run' = (.ok (.ok post), run₂) ∧
      post.logZ = some total ∧ total ≠ 0 ∧
      post.Exact g threeTokens halves notFirstTwo total := by
  obtain ⟨g, _, hg, hcount, horder, hroot, hrules⟩ :=
    Grammar.Small.accepted ℚ≥0 rfl rfl .cartesianProduct
  have hnew : (.vacant g ⟨.inside, .doubleHashed, .cartesianProduct⟩ :
      Chart ℚ≥0 (CellPredicate ℚ≥0)).Reachable Jitter g
        ⟨.inside, .doubleHashed, .cartesianProduct⟩ := reachable_new rfl horder
  have htokens : ∀ token ∈ threeTokens, token.index < g.terminalCount := by
    rw [hcount]
    decide
  have hspan : notFirstTwo.SpanOnly := fun _ _ _ _ _ _ _ _ => rfl
  obtain ⟨chart', run', hrun, hpass⟩ := parse_posteriors hg rfl (hnew.constrain notFirstTwo)
    htokens (follows_of_some rfl _ _) hspan halves (.start (.ofSeed 0))
  obtain ⟨post, run₂, hrun₂, hlogZ, hexact⟩ := hpass run'
  have hrule : ∀ (i : Nat) r, (Grammar.numbered (Grammar.Small.rules ℚ≥0))[i]? = some r →
      r ∈ g.rules := by
    intro i r hi
    rw [hrules]
    exact Array.mem_of_getElem? hi
  -- a single derivation with weight makes the total positive
  have hvalid : splitAfterFirst.Valid g threeTokens := by
    have hleaf : ∀ i, threeTokens[i]? = some (.ofNat 0) →
        (Derivation.unary ⟨.ofNat 1, .ofNat 0, .unary (.ofNat 1), 1⟩
          (.lexical ⟨.ofNat 2, .ofNat 1, .lexical (.ofNat 0), 1⟩ i)).Valid g threeTokens :=
      fun i hi => ⟨hrule 1 _ rfl, rfl, hrule 2 _ rfl, _, rfl, hi⟩
    exact ⟨hrule 0 _ rfl, rfl, rfl, hleaf 0 rfl, hrule 0 _ rfl, rfl, rfl, hleaf 1 rfl, hleaf 2 rfl⟩
  have hadmitted : splitAfterFirst.Admitted halves notFirstTwo := by
    simp [splitAfterFirst, Derivation.Admitted, Derivation.TopAdmitted, Derivation.PartsAdmitted,
      notFirstTwo, Derivation.start, Derivation.stop]
  have hmem : splitAfterFirst ∈ derivations g threeTokens halves notFirstTwo g.root 0 3 :=
    ⟨hvalid, hadmitted, hroot.symm, rfl, rfl⟩
  have hweight : splitAfterFirst.weight halves ≠ 0 := by
    refine List.prod_ne_zero fun hzero => ?_
    obtain ⟨st, _, hst⟩ := List.mem_map.mp hzero
    exact absurd (show (1 / 2 : ℚ≥0) = 0 from hst) (by simp)
  have hne : post.logZ.getD 0 ≠ 0 := by
    rw [hlogZ]
    exact ((pos_iff_ne_zero.mpr hweight).trans_le
      (weight_le_sum hg.indexed hspan.scoreFree hmem)).ne'
  cases htotal : post.logZ with
  | none =>
    rw [htotal] at hne
    exact absurd rfl hne
  | some total =>
    rw [htotal] at hne
    exact ⟨g, _, chart', run', run₂, post, total, hg, rfl, hrun, hrun₂, htotal, hne,
      hexact total htotal hne⟩

end Chart

end ChartParsing
