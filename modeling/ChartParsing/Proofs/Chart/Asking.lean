import ChartParsing.Proofs.Chart.Safety

/-!
# What scorers and constraints are asked

A parse asks its scorer about each application that the scores of the filled chart allow,
and about no other: once, with the rule and the place. Under a constraint the question
whether the application may enter follows at once, with the same rule and place and the
score. So the calls that are made can be read off the finished chart, whichever way binary
rules are looked for.

An application is known by the number of its rule, its span and its split: these determine
the children, and the finished chart has their scores.

None of this holds of a parse that ends early, and plus infinity may end one although
every score that is offered is defined.
-/

namespace ChartParsing

variable {S C J : Type} [Score S]

namespace Chart

/-- The rule of an application, by its number, and where it applies. -/
def Placed.place (x : Placed S) : RuleId × Nat × Nat × Nat :=
  (x.application.rule.id, x.start, x.application.mid, x.stop)

/-- What applies is known by its place. -/
theorem nodup_places {g : Grammar S} (hg : g.Indexed) {sentence : List Symbol} {V : Values S}
    {made : List (Placed S)} (hnodup : made.Nodup)
    (happlies : ∀ x ∈ made, Applies g sentence V x.start x.stop x.application) :
    (made.map Placed.place).Nodup := by
  refine List.pairwise_map.mpr (hnodup.imp_of_mem ?_)
  intro x y hx hy hne heq
  rcases x with ⟨start, stop, a⟩
  rcases y with ⟨start', stop', b⟩
  simp only [Placed.place, Prod.mk.injEq] at heq
  obtain ⟨hid, rfl, hmid, rfl⟩ := heq
  have ha : Applies g sentence V start stop a := happlies _ hx
  have hb : Applies g sentence V start stop b := happlies _ hy
  have hrule := hg.eq_of_id_eq ha.rule_mem hb.rule_mem hid
  exact hne (by rw [ha.eq_of_split hb hrule hmid])

variable [CellConstraint C S] [JitterSource J] {chart : Chart S C} {sentence : List Symbol}

/-- **Everything that applies is asked about once.** A sentence with a token from elsewhere
is refused without a call. Any other is parsed, unless the constraint is at fault or the
parse comes to an application that a cell refuses for an undefined score. After the
sentence has been announced, the calls are those for what applies to the scores of the
filled chart: no two for the same rule and place, none left out, and each followed by the
question to the constraint, where there is one, as it has become by the announcement. -/
theorem parse_asks_once [ScoreText S] {g : Grammar S} (hg : g.Accepted) {config : ChartConfig}
    (hchart : chart.Reachable J g config) (scorer : Scorer S) (run : Run J S) :
    ((∃ token ∈ sentence, g.terminalCount ≤ token.index) →
      ∃ e, (chart.parse sentence scorer).outcome run = (.ok (.error e), run)) ∧
    ((∀ token ∈ sentence, token.index < g.terminalCount) →
      (∃ fault run', (chart.parse sentence scorer).outcome run = (.error fault, run') ∧
        chart.ParseStops sentence scorer run fault run') ∨
      ∃ filled run', (chart.parse sentence scorer).outcome run = (.ok (.ok filled), run') ∧
        chart.announced sentence = .ok filled.constraint ∧
        ∃ made : List (Placed S), (made.map Placed.place).Nodup ∧
          (∀ x, x ∈ made ↔
            Applies g sentence filled.values x.start x.stop x.application) ∧
          run'.calls = run.calls ++ chart.announcement sentence ++
            made.flatMap (Placed.calls scorer filled.constraint)) := by
  obtain ⟨hshaped, rfl, rfl⟩ := hchart.shaped hg.indexed
  refine ⟨fun hunknown => ?_, fun htokens => ?_⟩
  · obtain ⟨_, _, _, _, _, _, hout⟩ := parse_of_unknown hunknown scorer run
    exact ⟨_, hout⟩
  have hends := parse_asks hshaped hg.indexed sentence scorer run
  cases hout : (chart.parse sentence scorer).outcome run with
  | mk result run' =>
  match result with
  | .error fault => exact Or.inl ⟨fault, run', rfl, hends.of_outcome_error hout⟩
  | .ok (.error e) =>
    obtain ⟨token, htoken, hle⟩ := hends.of_outcome hout
    exact absurd (htokens token htoken) (Nat.not_lt.mpr hle)
  | .ok (.ok filled) =>
    obtain ⟨hparsed, made, hnodup, hmem, hcalls⟩ := hends.of_outcome hout
    rw [hparsed.grammar_eq] at hmem
    -- nothing applies but over the spans of the sentence
    have happlies : ∀ x, x ∈ made ↔
        Applies chart.grammar filled.sentence filled.values x.start x.stop x.application := by
      intro x
      refine ⟨fun hx => ((hmem x).mp hx).2, fun h => (hmem x).mpr ⟨?_, h⟩⟩
      rw [← hparsed.length_eq]
      exact Span.mem_narrowFirst.mpr (h.span span_of_values)
    rw [hparsed.sentence_eq] at happlies
    exact Or.inr ⟨filled, run', rfl, hparsed.constraint_eq, made,
      nodup_places hg.indexed hnodup fun x => (happlies x).mp, happlies, hcalls⟩

/-- The small grammar over `a a` under a constraint, and the sentence with another token. -/
theorem parse_asks_once_small :
    ∃ (g : Grammar ℚ≥0) (chart filled : Chart ℚ≥0 (CellPredicate ℚ≥0)) (run' : Run Jitter ℚ≥0)
      (made : List (Placed ℚ≥0)), g.Accepted ∧ chart.constraint = some fromStart ∧
      (chart.parse Grammar.Small.tokens .static).outcome (.start (.ofSeed 0)) =
        (.ok (.ok filled), run') ∧
      (made.map Placed.place).Nodup ∧
      (∀ x, x ∈ made ↔
        Applies g Grammar.Small.tokens filled.values x.start x.stop x.application) ∧
      run'.calls = .announced Grammar.Small.tokens ::
        made.flatMap (Placed.calls .static (some fromStart)) ∧
      ∃ e, (chart.parse [.ofNat 1] .static).outcome (.start (.ofSeed 0)) =
        (.ok (.error e), (.start (.ofSeed 0) : Run Jitter ℚ≥0)) := by
  obtain ⟨g, _, hg, hcount, horder, _⟩ := Grammar.Small.accepted ℚ≥0 rfl rfl .rightChild
  have hnew : (.vacant g ⟨.inside, .full, .rightChild⟩ :
      Chart ℚ≥0 (CellPredicate ℚ≥0)).Reachable Jitter g ⟨.inside, .full, .rightChild⟩ :=
    reachable_new rfl horder
  have htokens : ∀ token ∈ Grammar.Small.tokens, token.index < g.terminalCount := by
    rw [hcount]
    decide
  have hunknown : ∃ token ∈ [Symbol.ofNat 1], g.terminalCount ≤ token.index := by
    rw [hcount]
    exact ⟨.ofNat 1, by decide, by decide⟩
  obtain ⟨hrefuse, -⟩ := parse_asks_once hg (hnew.constrain fromStart) .static
    (.start (.ofSeed 0) : Run Jitter ℚ≥0)
  obtain ⟨-, hparse⟩ := parse_asks_once hg (hnew.constrain fromStart) .static
    (.start (.ofSeed 0) : Run Jitter ℚ≥0)
  have hp : Follows ((Chart.constrain (.vacant g ⟨.inside, .full, .rightChild⟩) fromStart).announced
      Grammar.Small.tokens) 2 fromStart := follows_of_some rfl _ _
  rcases hparse htokens with
    ⟨_, _, _, hstops⟩ | ⟨filled, run', hrun, hfilled, made, hnodup, hmem, hcalls⟩
  · -- fractions are defined, and a predicate answers
    obtain ⟨_, hundef⟩ := (hstops.meetsUndefined hp).2.exists_undefined
    cases hundef
  · rw [← Except.ok.inj hfilled] at hcalls
    exact ⟨g, _, filled, run', made, hg, rfl, hrun, hnodup, hmem, hcalls, hrefuse hunknown⟩

end Chart

namespace WholeLog

/-- **Plus infinity leaves applications unasked.** Over `a a` both rules apply to each token,
and no application has an undefined score. The parse comes to one at the first token, and
never asks about the second. -/
theorem parse_unbounded_asks :
    grammar.Accepted ∧ chart.Reachable Jitter grammar ⟨.inside, .full, .leftChild⟩ ∧
      chart.constraint = none ∧
      (∀ token ∈ Grammar.Small.tokens, token.index < grammar.terminalCount) ∧
      (∀ V start stop a, Applies grammar Grammar.Small.tokens V start stop a →
        Score.isUndefined (a.score unbounded start stop) = false) ∧
      ∃ run', (chart.parse Grammar.Small.tokens unbounded).outcome (.start (.ofSeed 0)) =
          (.error .undefinedScore, (run' : Run Jitter WholeLog)) ∧
        run'.calls = [.scored (.ofNat 0) 0 0 1, .scored (.ofNat 1) 0 0 1] ∧
        ∀ V, ∀ r ∈ grammar.rules, Applies grammar Grammar.Small.tokens V 1 2 ⟨r, 1, none⟩ := by
  have hlt : ∀ token ∈ Grammar.Small.tokens, token.index < grammar.terminalCount := by decide
  have hlexical : ∀ r ∈ grammar.rules, r.rhs = .lexical (.ofNat 0) := by decide
  refine ⟨accepted_grammar, Chart.reachable_new rfl rfl, rfl, hlt, ?_, _, rfl, rfl, ?_⟩
  · intro V start stop a happlies
    -- both rules are lexical, so no children enter the score
    cases happlies with
    | lexical _ _ _ _ => rfl
    | unary hr hrhs _ => cases (hlexical _ hr).symm.trans hrhs
    | binary hr hrhs _ _ _ _ => cases (hlexical _ hr).symm.trans hrhs
  · intro V r hr
    exact .lexical hr (hlexical r hr) rfl rfl

end WholeLog

end ChartParsing
