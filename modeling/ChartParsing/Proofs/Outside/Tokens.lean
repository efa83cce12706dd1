import ChartParsing.Proofs.Outside.Rejected
import Mathlib.Algebra.BigOperators.Field

/-!
# Tokens in posteriors

Every derivation of a sentence has a lexical step for each token, and a binary step
less. So averages over derivations come to the same numbers: the expected counts of the
lexical rules add up to the length of the sentence, and those of the binary rules to
one less. Each token has all the derivations outside it.

Nothing may be constrained for this. A rejected application that is in reach of the
outside pass would be counted with the others.
-/

namespace ChartParsing

variable {S C J : Type} [Score S] [Semifield S] [LinearOrder S] [Probability S] [Sharing S S]
  [ShareScore S] [IsStrictOrderedRing S] [CanonicallyOrderedAdd S]

omit [LinearOrder S] [Probability S] [Sharing S S] [ShareScore S] [IsStrictOrderedRing S]
  [CanonicallyOrderedAdd S] in
/-- Derivations that all have as many steps of one kind have as many on average. -/
theorem sum_shares_kind {g : Grammar S} (hg : g.Indexed) {sentence : List Symbol}
    {scorer : Scorer S} {p : CellPredicate S} (hp : p.ScoreFree) {total : S}
    (htotal : ∑ᶠ d ∈ derivations g sentence scorer p g.root 0 sentence.length, d.weight scorer =
      total) (hne : total ≠ 0) {kind : Rule S → Bool} {k : ℕ}
    (hkind : ∀ d ∈ derivations g sentence scorer p g.root 0 sentence.length,
      (d.steps.countP fun st => kind st.rule) = k) :
    ((g.rules.toList.filter kind).map fun r =>
      ∑ᶠ d ∈ derivations g sentence scorer p g.root 0 sentence.length,
        d.weight scorer / total * (d.applications r.id : S)).sum = k := by
  have hfinite := finite_derivations hg hp sentence scorer g.root 0 sentence.length
  rw [finsum_mem_eq_finite_toFinset_sum _ hfinite] at htotal
  simp only [finsum_mem_eq_finite_toFinset_sum _ hfinite]
  -- derivation by derivation, the applications of the rules of the kind are its steps
  have hsteps : ∀ d ∈ hfinite.toFinset, ((g.rules.toList.filter kind).map fun r =>
      d.weight scorer / total * (d.applications r.id : S)).sum = d.weight scorer / total * k := by
    intro d hd
    have hd := hfinite.mem_toFinset.mp hd
    have hsum := sum_countP_id hg kind fun st hst => hd.1.rule_mem_of_mem_steps hst
    rw [hkind d hd] at hsum
    rw [List.sum_map_mul_left, ← hsum, Nat.cast_list_sum, List.map_map]
    rfl
  calc ((g.rules.toList.filter kind).map fun r => ∑ d ∈ hfinite.toFinset,
        d.weight scorer / total * (d.applications r.id : S)).sum
      = ∑ d ∈ hfinite.toFinset, ((g.rules.toList.filter kind).map fun r =>
          d.weight scorer / total * (d.applications r.id : S)).sum := (sum_sum_map _ _).symm
    _ = ∑ d ∈ hfinite.toFinset, d.weight scorer / total * k := Finset.sum_congr rfl hsteps
    _ = (∑ d ∈ hfinite.toFinset, d.weight scorer) / total * k := by
        rw [← Finset.sum_mul, Finset.sum_div]
    _ = k := by rw [htotal, div_self hne, one_mul]

omit [ShareScore S] [IsStrictOrderedRing S] [CanonicallyOrderedAdd S] in
/-- The counts of the rules of one kind can be read, and add up to what each derivation
has. -/
theorem Posterior.Exact.sum_ruleCounts {post : Posterior S S} {g : Grammar S}
    {sentence : List Symbol} {scorer : Scorer S} {p : CellPredicate S} {total : S}
    (h : post.Exact g sentence scorer p total) (hg : g.Indexed) (hp : p.ScoreFree)
    (htotal : ∑ᶠ d ∈ derivations g sentence scorer p g.root 0 sentence.length, d.weight scorer =
      total) (hne : total ≠ 0) {kind : Rule S → Bool} {k : ℕ}
    (hkind : ∀ d ∈ derivations g sentence scorer p g.root 0 sentence.length,
      (d.steps.countP fun st => kind st.rule) = k) :
    ∃ counts, (g.rules.toList.filter kind).mapM (fun r => post.ruleCount r.id) = .ok counts ∧
      counts.sum = k := by
  refine ⟨_, mapM_eq_ok fun r hr => ?_, sum_shares_kind hg hp htotal hne hkind⟩
  exact h.ruleCount r (Array.mem_toList_iff.mp (List.mem_of_mem_filter hr))

namespace Chart

variable [CellConstraint C S] [JitterSource J] {chart : Chart S C} {sentence : List Symbol}

/-- **Tokens and splits are counted exactly.** Over a chart of pooled scores without a
constraint both passes return. If the total weight of the derivations of the sentence is
not zero, each token has it as its outside score, the expected counts of the lexical rules
add up to the number of tokens, and those of the binary rules to one less. -/
theorem parse_tokenCounts [ScoreText S] {g : Grammar S} (hg : g.Accepted) {config : ChartConfig}
    (hagg : config.aggregation = .inside) (hchart : chart.Reachable J g config)
    (hfree : chart.constraint = none)
    (hsentence : ∀ token ∈ sentence, token.index < g.terminalCount) (scorer : Scorer S)
    (run : Run J S) :
    ∃ filled run', (chart.parse sentence scorer).outcome run = (.ok (.ok filled), run') ∧
      ∀ run₁ : Run J S, ∃ post run₂,
        (Posterior.ofChart filled scorer).outcome run₁ = (.ok (.ok post), run₂) ∧
        post.logZ.getD 0 = ∑ᶠ d ∈ derivations g sentence scorer ⟨fun _ _ _ _ _ => true⟩ g.root 0
          sentence.length, d.weight scorer ∧
        ∀ total, post.logZ = some total → total ≠ 0 →
          (∀ position, position < sentence.length →
            post.terminalOutsideScore position = .ok total) ∧
          (∃ counts, (g.rules.toList.filter Rule.isLexical).mapM
            (fun r => post.ruleCount r.id) = .ok counts ∧ counts.sum = sentence.length) ∧
          ∃ counts, (g.rules.toList.filter Rule.isBinary).mapM
            (fun r => post.ruleCount r.id) = .ok counts ∧
            counts.sum = ((sentence.length - 1 : ℕ) : S) := by
  let p : CellPredicate S := ⟨fun _ _ _ _ _ => true⟩
  have hspan : p.SpanOnly := fun _ _ _ _ _ _ _ _ => rfl
  have hp : Follows (chart.announced sentence) sentence.length p :=
    follows_of_none hfree _ _
  obtain ⟨filled, run', hrun, rfl, rfl, hreadable, htotals, hpass⟩ :=
    hchart.parse_pushed hg hagg hsentence hp hspan.scoreFree scorer run
  refine ⟨filled, run', hrun, fun run₁ => ?_⟩
  obtain ⟨post, run₂, hrun₂, hlogZ, hsum, hpushed⟩ := hpass run₁
  refine ⟨post, run₂, hrun₂, hsum, fun total htotal hne => ?_⟩
  have hroot := hlogZ.symm.trans htotal
  have hexact := (hpushed total htotal hne).exact hreadable htotals hspan hroot hne
  have htokens := ((hpushed total htotal hne).exact_tfae hreadable htotals hspan.scoreFree hroot
    hne).out 1 2
  rw [htotal] at hsum
  refine ⟨htokens.mp hexact, ?_, ?_⟩
  · refine hexact.sum_ruleCounts hg.indexed hspan.scoreFree hsum.symm hne fun d hd => ?_
    obtain ⟨hvalid, _, _, hstart, hstop⟩ := hd
    have := hvalid.countP_isLexical
    omega
  · refine hexact.sum_ruleCounts hg.indexed hspan.scoreFree hsum.symm hne fun d hd => ?_
    obtain ⟨hvalid, _, _, hstart, hstop⟩ := hd
    have := hvalid.countP_isBinary
    omega

/-- The small grammar over `a a a`, where a rule weighs a half. -/
theorem parse_tokenCounts_small :
    ∃ (g : Grammar ℚ≥0) (chart filled : Chart ℚ≥0 (CellPredicate ℚ≥0))
      (run' run₂ : Run Jitter ℚ≥0) (post : Posterior ℚ≥0 ℚ≥0) (total : ℚ≥0),
      g.Accepted ∧ chart.constraint = none ∧
      (chart.parse threeTokens halves).outcome (.start (.ofSeed 0)) = (.ok (.ok filled), run') ∧
      (Posterior.ofChart filled halves).outcome run' = (.ok (.ok post), run₂) ∧
      post.logZ = some total ∧ total ≠ 0 ∧
      (∀ position, position < 3 → post.terminalOutsideScore position = .ok total) ∧
      (∃ counts, (g.rules.toList.filter Rule.isLexical).mapM
        (fun r => post.ruleCount r.id) = .ok counts ∧ counts.sum = 3) ∧
      ∃ counts, (g.rules.toList.filter Rule.isBinary).mapM
        (fun r => post.ruleCount r.id) = .ok counts ∧ counts.sum = 2 := by
  obtain ⟨g, _, hg, hcount, horder, hroot, hrules⟩ :=
    Grammar.Small.accepted ℚ≥0 rfl rfl .cartesianProduct
  have hnew : (.vacant g ⟨.inside, .doubleHashed, .cartesianProduct⟩ :
      Chart ℚ≥0 (CellPredicate ℚ≥0)).Reachable Jitter g
        ⟨.inside, .doubleHashed, .cartesianProduct⟩ := reachable_new rfl horder
  have htokens : ∀ token ∈ threeTokens, token.index < g.terminalCount := by
    rw [hcount]
    decide
  obtain ⟨filled, run', hrun, hpass⟩ :=
    parse_tokenCounts hg rfl hnew rfl htokens halves (.start (.ofSeed 0))
  obtain ⟨post, run₂, hrun₂, hlogZ, hcounts⟩ := hpass run'
  obtain ⟨total, htotal, hne⟩ := exists_total hg.indexed hroot hrules
    (p := ⟨fun _ _ _ _ _ => true⟩) (fun _ _ _ _ _ _ => rfl)
    (by simp [join, leaf, Derivation.Admitted, Derivation.TopAdmitted, Derivation.PartsAdmitted])
    hlogZ
  obtain ⟨hscores, hlexical, hbinary⟩ := hcounts total htotal hne
  exact ⟨g, _, filled, run', run₂, post, total, hg, rfl, hrun, hrun₂, htotal, hne, hscores,
    hlexical, hbinary⟩

end Chart

end ChartParsing
