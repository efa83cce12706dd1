import ChartParsing.Proofs.Outside.Splits

/-!
# Both passes return

Over a chart that can be read, none of the lookups of the two passes fails: cells hold
symbols of the grammar over spans of the sentence, and for all of these there are
places in the tables. Nothing is asked of scores for this.
-/

namespace ChartParsing.Posterior

variable {S P C J : Type} [Score S] [Probability P] [Sharing S P] {chart : Chart S C}
  {p : Posterior S P} {scorer : Scorer S} {total : S} {start mid stop : Nat} {run : Run J S}

/-! ## One rule -/

theorem pushUnaryRule_returns (hg : chart.grammar.Indexed) (hp : p.Sized chart)
    (h₁ : start < stop) (h₂ : stop ≤ chart.length) (childInside : S) {rule : Rule S}
    (hrule : rule ∈ chart.grammar.rules) {child : Symbol} (hrhs : rule.rhs = .unary child) :
    (pushUnaryRule scorer total childInside child start stop p rule).Ends (fun _ _ => False) run
      fun p' _ => p'.Sized chart := by
  obtain ⟨outside, hget, _⟩ := hp.get_ok (c := ⟨rule.parent, start, stop⟩)
    ⟨h₁, h₂, hg.parent_lt rule hrule⟩
  unfold pushUnaryRule
  refine Effect.ends_bind_ok hget ?_
  split
  · exact Effect.ends_pure hp
  refine ends_bind_ask fun run' => ?_
  have hcounted := sized_withCount hp total rule
  refine Effect.ends_bind_ok (addCount_eq (hp.id_lt hg hrule) _) ?_
  exact Effect.ends_lift_ok (addOutside_eq (hcounted _) (c := ⟨child, start, stop⟩)
    ⟨h₁, h₂, hg.unary_lt rule hrule child hrhs⟩ _) (sized_withOutside (hcounted _) _ _ _ _)

theorem pushLexicalRule_returns (hg : chart.grammar.Indexed) (hp : p.Sized chart) (cell : Cell S)
    {position : Nat} (hposition : position < chart.length) (outside : S) {rule : Rule S}
    (hrule : rule ∈ chart.grammar.rules) :
    (pushLexicalRule scorer total cell position (p, outside) rule).Ends (fun _ _ => False) run
      fun state _ => state.1.Sized chart := by
  obtain ⟨_, hget, _⟩ := hp.get_ok (c := ⟨rule.parent, position, position + 1⟩)
    ⟨Nat.lt_succ_self _, hposition, hg.parent_lt rule hrule⟩
  unfold pushLexicalRule
  dsimp only
  split
  · exact Effect.ends_pure hp
  refine Effect.ends_bind_ok hget ?_
  split
  · exact Effect.ends_pure hp
  refine ends_bind_ask fun run' => ?_
  refine Effect.ends_bind_ok (addCount_eq (hp.id_lt hg hrule) _) ?_
  exact Effect.ends_pure (sized_withCount hp _ _ _)

/-! ## The outside pass -/

omit [Score S] [Probability P] [Sharing S P] in
/-- A loop whose rounds keep the shape of the tables keeps it. -/
theorem foldlM_returns {α σ : Type} (part : σ → Posterior S P) {f : σ → α → Effect J S σ}
    {xs : List α} (hround : ∀ x ∈ xs, ∀ state run, (part state).Sized chart →
      (f state x).Ends (fun _ _ => False) run fun state' _ => (part state').Sized chart)
    {state : σ} (h : (part state).Sized chart) (run : Run J S) :
    (xs.foldlM f state).Ends (fun _ _ => False) run fun state' _ => (part state').Sized chart :=
  Effect.ends_foldlM (fun _ state _ => (part state).Sized chart) h
    fun done x rest state run hsplit hstate => hround x (by rw [hsplit]; simp) state run hstate

theorem pushUnary_returns (hread : chart.Readable) (hp : p.Sized chart) (h₁ : start < stop)
    (h₂ : stop ≤ chart.length) (run : Run J S) :
    (pushUnary chart scorer total p start stop).Ends (fun _ _ => False) run
      fun p' _ => p'.Sized chart := by
  obtain ⟨cell, hcell, _⟩ := hread.cell_ok start stop h₁ h₂
  unfold pushUnary
  refine Effect.ends_bind_ok hcell ?_
  refine foldlM_returns id (fun child _ p run hp => ?_) hp run
  unfold pushUnaryChild
  split
  · exact Effect.ends_pure hp
  refine Effect.ends_bind_ok (hread.indexed.rulesAt_unaryRulesWithChild child) ?_
  refine foldlM_returns id (fun rule hrule p run hp => ?_) hp run
  obtain ⟨hmem, hrhs⟩ := List.mem_filter.mp hrule
  exact pushUnaryRule_returns hread.indexed hp h₁ h₂ _ (Array.mem_toList_iff.mp hmem)
    (of_decide_eq_true hrhs)

theorem pushSplit_returns (hread : chart.Readable) (hp : p.Sized chart) (h₁ : start < mid)
    (h₂ : mid < stop) (h₃ : stop ≤ chart.length) (run : Run J S) :
    (pushSplit chart scorer total start stop p mid).Ends (fun _ _ => False) run
      fun p' _ => p'.Sized chart := by
  obtain ⟨left, right, found, hleft, hright, hfound, _, hlists⟩ := hread.splitSteps_eq h₁ h₂ h₃
  exact (pushSplit_ends_update hread hp h₁ h₂ h₃ hleft hright hfound (rule_mem_of_found hlists)
    run).imp fun _ _ h => h.2

theorem pushToken_returns (hread : chart.Readable) (hp : p.Sized chart) {position : Nat}
    (hposition : position < chart.length) (run : Run J S) :
    (pushToken chart scorer total p position).Ends (fun _ _ => False) run
      fun p' _ => p'.Sized chart := by
  obtain ⟨cell, hcell, _⟩ := hread.cell_ok position (position + 1) (Nat.lt_succ_self _) hposition
  obtain ⟨token, htoken⟩ : ∃ token, chart.sentence[position]? = some token :=
    ⟨_, List.getElem?_eq_getElem hposition⟩
  unfold pushToken
  refine Effect.ends_bind_ok hcell ?_
  simp only [htoken]
  refine Effect.ends_bind_ok (hread.indexed.rulesAt_lexicalRules token) ?_
  refine Effect.ends_bind (foldlM_returns Prod.fst (fun rule hrule state run hstate => ?_) hp run)
    fun state run' hstate => ?_
  · obtain ⟨p, outside⟩ := state
    exact pushLexicalRule_returns hread.indexed hstate cell hposition outside
      (Array.mem_toList_iff.mp (List.mem_filter.mp hrule).1)
  · exact Effect.ends_pure ⟨hstate.tokens_eq, hstate.outside_full, hstate.counts_size⟩

theorem push_returns (hread : chart.Readable) (hp : p.Sized chart) (run : Run J S) :
    (push chart scorer total p).Ends (fun _ _ => False) run fun p' _ => p'.Sized chart := by
  unfold push
  refine Effect.ends_bind (foldlM_returns id (fun span hspan p run hp' => ?_) hp run)
    fun p' run' hp' => ?_
  · obtain ⟨start, stop⟩ := span
    rw [hp.tokens_eq] at hspan
    obtain ⟨h₁, h₂⟩ := Span.mem_wideFirst.mp hspan
    refine Effect.ends_bind (pushUnary_returns hread hp' h₁ h₂ run) fun p run hp' => ?_
    refine foldlM_returns id (fun mid hmid p run hp' => ?_) hp' run
    obtain ⟨hm₁, hm₂⟩ := Span.mem_splits.mp hmid
    exact pushSplit_returns hread hp' hm₁ hm₂ h₂ run
  · have htokens : p'.tokens = chart.length := Sized.tokens_eq hp'
    refine foldlM_returns id (fun position hposition p run hp => ?_) hp' run'
    rw [htokens] at hposition
    exact pushToken_returns hread hp (List.mem_range.mp hposition) run

/-! ## Both passes -/

omit [Score S] [Probability P] [Sharing S P] in
/-- Writing where there is a place succeeds. -/
theorem set_returns {n width : Nat} {table : SpanTable S} (h : table.Full n width) {c : Constituent}
    (hc : SpanTable.Fits c n width) (v : S) :
    ∃ table', table.set c.symbol c.start c.stop v = .ok table' ∧ table'.Full n width :=
  ⟨_, if_pos (h.place_lt hc), h.tokens_eq, h.width_eq,
    Array.size_setIfInBounds.trans h.size_eq⟩

omit [Probability P] [Sharing S P] in
theorem readInside_returns (hread : chart.Readable) (h₁ : start < stop) (h₂ : stop ≤ chart.length)
    (hp : p.inside.Full chart.length chart.grammar.nonterminalCount) :
    ∃ p', readInside chart p (start, stop) = .ok p' ∧
      p'.inside.Full chart.length chart.grammar.nonterminalCount := by
  obtain ⟨cell, hcell, hshut⟩ := hread.cell_ok start stop h₁ h₂
  have hset : ∀ done sym rest (table : SpanTable S), cell.store.symbols = done ++ sym :: rest →
      table.Full chart.length chart.grammar.nonterminalCount →
      ∃ table', table.set sym start stop (cell.score sym) = .ok table' ∧
        table'.Full chart.length chart.grammar.nonterminalCount := by
    intro done sym rest table hsplit htable
    have hmem : sym ∈ cell.store.symbols := by
      rw [hsplit]
      simp
    obtain ⟨v, hv⟩ := hshut.mem_symbols.mp hmem
    have hsym := hread.symbol_lt sym start stop v (by rw [Chart.values_of_cell hcell]; exact hv)
    exact set_returns htable (c := ⟨sym, start, stop⟩) ⟨h₁, h₂, hsym⟩ _
  obtain ⟨inside, hfold, hfull⟩ := foldlM_eq_ok (b := p.inside)
    (fun _ (table : SpanTable S) => table.Full chart.length chart.grammar.nonterminalCount) hp hset
  refine ⟨{ p with inside }, ?_, hfull⟩
  show (chart.cell start stop >>= _ : Except Fault (Posterior S P)) = _
  rw [hcell]
  show (cell.symbols >>= _ : Except Fault (Posterior S P)) = _
  rw [hshut.symbols_eq]
  show (List.foldlM _ p.inside cell.store.symbols >>= _ : Except Fault (Posterior S P)) = _
  rw [hfold]
  rfl

omit [Sharing S P] in
theorem ofInside_returns (hread : chart.Readable) :
    ∃ p : Posterior S P, ofInside chart = .ok p := by
  rcases Nat.eq_zero_or_pos chart.length with hzero | hpos
  · exact ⟨blank chart none, by
      unfold ofInside Chart.rootScore?
      rw [if_pos hzero]
      exact if_pos hzero⟩
  obtain ⟨cell, hcell, _⟩ := hread.cell_ok 0 chart.length hpos (Nat.le_refl _)
  have hroot := Chart.rootScore?_of_cell hcell
  let blank₀ : Posterior S P := blank chart (cell.value? chart.grammar.root)
  -- only the inside scores change while they are taken over
  let untouched (p : Posterior S P) : Prop :=
    (p.tokens = chart.length ∧ p.root = chart.grammar.root ∧ p.outside = blank₀.outside) ∧
      p.inside.Full chart.length chart.grammar.nonterminalCount
  have hstep : ∀ done span rest (p : Posterior S P), Span.all chart.length = done ++ span :: rest →
      untouched p → ∃ p', readInside chart p span = .ok p' ∧ untouched p' := by
    intro done span rest p hsplit hp
    obtain ⟨start, stop⟩ := span
    have hmem : (start, stop) ∈ Span.all chart.length := by
      rw [hsplit]
      simp
    obtain ⟨h₁, h₂⟩ := Span.mem_all.mp hmem
    obtain ⟨p', hp', hfull⟩ := readInside_returns hread h₁ h₂ hp.2
    refine ⟨p', hp', ?_, hfull⟩
    obtain ⟨_, _, h⟩ := bind_eq_ok hp'
    obtain ⟨_, _, h⟩ := bind_eq_ok h
    obtain ⟨_, _, h⟩ := bind_eq_ok h
    cases h
    exact hp.1
  obtain ⟨p, hfold, hsame, _⟩ := foldlM_eq_ok (b := blank₀) (fun _ p => untouched p)
    ⟨⟨rfl, rfl, rfl⟩, SpanTable.full_replicate _ _ _⟩ hstep
  obtain ⟨outside, hset, _⟩ := set_returns
    (SpanTable.full_replicate chart.length chart.grammar.nonterminalCount (Score.impossible : S))
    (c := ⟨chart.grammar.root, 0, chart.length⟩)
    ⟨hpos, Nat.le_refl _, hread.indexed.root_lt⟩ Score.certain
  refine ⟨{ p with outside }, ?_⟩
  unfold ofInside
  rw [hroot]
  show (if chart.length = 0 then .ok blank₀ else
    (List.foldlM (readInside chart) blank₀ (Span.all chart.length) >>= _) :
      Except Fault (Posterior S P)) = _
  rw [if_neg hpos.ne', hfold]
  show (p.outside.set p.root 0 p.tokens Score.certain >>= _ : Except Fault (Posterior S P)) = _
  rw [hsame.1, hsame.2.1, hsame.2.2,
    show blank₀.outside.set chart.grammar.root 0 chart.length Score.certain = .ok outside from hset]
  rfl

/-- **Both passes return** over a chart of inside scores that can be read, with
whatever scores. -/
theorem ofChart_returns [ScoreText S] [ScoreText P] (hread : chart.Readable)
    (hagg : chart.config.aggregation = .inside) (scorer : Scorer S) (run : Run J S) :
    (ofChart chart scorer : Effect J S (Except ChartError (Posterior S P))).Ends
      (fun _ _ => False) run fun result _ => ∃ post, result = .ok post := by
  obtain ⟨p, hp⟩ := ofInside_returns (P := P) hread
  unfold ofChart
  rw [if_neg fun h => h hagg]
  refine Effect.ends_bind_ok hp ?_
  split
  · refine Effect.ends_bind (push_returns hread (sized_ofInside hp) run) fun p run _ => ?_
    exact log_ends fun _ => ⟨p, rfl⟩
  · exact log_ends fun _ => ⟨p, rfl⟩

end ChartParsing.Posterior
