import ChartParsing.Chart.BestTree
import ChartParsing.Proofs.Cell.Twin
import ChartParsing.Proofs.Chart.Taking
import ChartParsing.Proofs.Grammar.Rules

/-!
# Charts filled in step

Two charts for the same sentence whose cells are twins are filled in step: the same
rules are found to apply, in the same order, because finding them reads the cells
below alone; so the scorer and the constraint are asked the same questions, the
cells are offered the same, and are twins again when they are closed.

How many sites a chart has, and what lies outside its sentence, makes no
difference. Nor does what was in its cells before, as they are emptied first.
-/

namespace ChartParsing

variable {S C J : Type}

/-- Two constraints, or none, that give the same answers. -/
inductive AnswerAlike (S : Type) [CellConstraint C S] : Option C → Option C → Prop where
  | none : AnswerAlike S none none
  | some {c d : C} :
      (∀ (start stop mid : Nat) (rule : Rule S) (score : S),
        CellConstraint.accepts c start stop mid rule score =
          CellConstraint.accepts d start stop mid rule score) → AnswerAlike S (some c) (some d)

theorem AnswerAlike.refl [CellConstraint C S] (constraint : Option C) :
    AnswerAlike S constraint constraint := by
  cases constraint with
  | none => exact .none
  | some c => exact .some fun _ _ _ _ _ => rfl

theorem AnswerAlike.isSome_eq [CellConstraint C S] {constraint constraint' : Option C}
    (h : AnswerAlike S constraint constraint') : constraint.isSome = constraint'.isSome := by
  cases h with
  | none => rfl
  | some _ => rfl

/-! ## What is found -/

/-- Rules that are looked up are rules of the grammar. -/
theorem Grammar.mem_rules_of_rulesAt {g : Grammar S} {ids : Array RuleId} {rules : List (Rule S)}
    (h : g.rulesAt ids = .ok rules) {r : Rule S} (hr : r ∈ rules) : r ∈ g.rules := by
  rw [← Indexed.filterMap_of_rulesAt h] at hr
  obtain ⟨id, _, hid⟩ := List.mem_filterMap.mp hr
  exact Array.mem_of_getElem? hid

/-- A value read in a loop was read from something. -/
theorem exists_of_mapM_eq_ok {ε α β : Type} {f : α → Except ε β} {xs : List α} {ys : List β}
    (h : xs.mapM f = .ok ys) {y : β} (hy : y ∈ ys) : ∃ x ∈ xs, f x = .ok y := by
  induction xs generalizing ys with
  | nil =>
    cases h
    exact absurd hy List.not_mem_nil
  | cons x xs ih =>
    rw [List.mapM_cons] at h
    obtain ⟨y₀, hx, hrest⟩ := bind_eq_ok h
    obtain ⟨ys', hxs, heq⟩ := bind_eq_ok hrest
    cases heq
    rcases List.mem_cons.mp hy with rfl | hy
    · exact ⟨x, List.mem_cons_self, hx⟩
    · obtain ⟨x', hx', hfx'⟩ := ih hxs hy
      exact ⟨x', List.mem_cons_of_mem _ hx', hfx'⟩

namespace Chart

/-- The applications are of rules of the grammar. -/
def OfGrammar (g : Grammar S) (found : List (Application S)) : Prop := ∀ a ∈ found, a.rule ∈ g.rules

theorem ofGrammar_of_rulesAt {g : Grammar S} {ids : Array RuleId} {rules : List (Rule S)}
    {found : List (Application S)} (h : g.rulesAt ids = .ok rules)
    (hfound : ∀ a ∈ found, a.rule ∈ rules) : OfGrammar g found :=
  fun a ha => g.mem_rules_of_rulesAt h (hfound a ha)

theorem ofGrammar_flatten {ε α : Type} {g : Grammar S} {f : α → Except ε (List (Application S))}
    {xs : List α} {found : List (List (Application S))} (h : xs.mapM f = .ok found)
    (hf : ∀ x row, f x = .ok row → OfGrammar g row) : OfGrammar g found.flatten := by
  intro a ha
  obtain ⟨row, hrow, ha⟩ := List.mem_flatten.mp ha
  obtain ⟨x, _, hx⟩ := exists_of_mapM_eq_ok h hrow
  exact hf x row hx a ha

theorem ofGrammar_lexical {chart : Chart S C} {position : Nat} {found : List (Application S)}
    (h : chart.lexicalApplications position = .ok found) : OfGrammar chart.grammar found := by
  unfold lexicalApplications at h
  split at h
  · cases h
  · obtain ⟨rules, hrules, heq⟩ := bind_eq_ok h
    cases heq
    refine ofGrammar_of_rulesAt hrules fun a ha => ?_
    obtain ⟨r, hr, rfl⟩ := List.mem_map.mp ha
    exact hr

variable [Score S]

theorem ofGrammar_unary {g : Grammar S} {site : Site S} {child : Symbol}
    {found : List (Application S)} (h : unaryApplications g site child = .ok found) :
    OfGrammar g found := by
  unfold unaryApplications at h
  split at h
  · cases h
    exact fun a ha => absurd ha List.not_mem_nil
  · obtain ⟨rules, hrules, heq⟩ := bind_eq_ok h
    cases heq
    refine ofGrammar_of_rulesAt hrules fun a ha => ?_
    obtain ⟨r, hr, rfl⟩ := List.mem_map.mp ha
    exact hr

theorem ofGrammar_pairs {g : Grammar S} {mid : Nat} {left right : Cell S}
    {found : List (Application S)} (h : pairApplications g mid left right = .ok found) :
    OfGrammar g found := by
  obtain ⟨syms, _, h⟩ := bind_eq_ok h
  obtain ⟨rows, hrows, heq⟩ := bind_eq_ok h
  cases heq
  refine ofGrammar_flatten hrows fun leftSym row hrow => ?_
  split at hrow
  · cases hrow
    exact fun a ha => absurd ha List.not_mem_nil
  obtain ⟨syms', _, hrow⟩ := bind_eq_ok hrow
  obtain ⟨cols, hcols, heq⟩ := bind_eq_ok hrow
  cases heq
  refine ofGrammar_flatten hcols fun rightSym col hcol => ?_
  split at hcol
  · cases hcol
    exact fun a ha => absurd ha List.not_mem_nil
  obtain ⟨ids, _, hcol⟩ := bind_eq_ok hcol
  obtain ⟨rules, hrules, heq⟩ := bind_eq_ok hcol
  cases heq
  refine ofGrammar_of_rulesAt hrules fun a ha => ?_
  obtain ⟨r, hr, rfl⟩ := List.mem_map.mp ha
  exact hr

theorem ofGrammar_left {g : Grammar S} {mid : Nat} {left right : Cell S}
    {found : List (Application S)} (h : leftChildApplications g mid left right = .ok found) :
    OfGrammar g found := by
  obtain ⟨syms, _, h⟩ := bind_eq_ok h
  obtain ⟨rows, hrows, heq⟩ := bind_eq_ok h
  cases heq
  refine ofGrammar_flatten hrows fun leftSym row hrow => ?_
  obtain ⟨ids, _, hrow⟩ := bind_eq_ok hrow
  obtain ⟨rules, hrules, heq⟩ := bind_eq_ok hrow
  cases heq
  refine ofGrammar_of_rulesAt hrules fun a ha => ?_
  obtain ⟨r, hr, hra⟩ := List.mem_filterMap.mp ha
  split at hra
  · split at hra
    · cases hra
      exact hr
    · cases hra
  · cases hra

theorem ofGrammar_right {g : Grammar S} {mid : Nat} {left right : Cell S}
    {found : List (Application S)} (h : rightChildApplications g mid left right = .ok found) :
    OfGrammar g found := by
  obtain ⟨syms, _, h⟩ := bind_eq_ok h
  obtain ⟨rows, hrows, heq⟩ := bind_eq_ok h
  cases heq
  refine ofGrammar_flatten hrows fun rightSym row hrow => ?_
  obtain ⟨ids, _, hrow⟩ := bind_eq_ok hrow
  obtain ⟨rules, hrules, heq⟩ := bind_eq_ok hrow
  cases heq
  refine ofGrammar_of_rulesAt hrules fun a ha => ?_
  obtain ⟨r, hr, hra⟩ := List.mem_filterMap.mp ha
  split at hra
  · cases hra
    exact hr
  · cases hra

theorem ofGrammar_binary {g : Grammar S} {mid : Nat} {left right : Cell S} {order : LoopOrder}
    {found : List (Application S)} (h : binaryApplications g mid left right order = .ok found) :
    OfGrammar g found := by
  cases order with
  | cartesianProduct => exact ofGrammar_pairs h
  | leftChild => exact ofGrammar_left h
  | rightChild => exact ofGrammar_right h

/-- What is found for a split depends on what can be read of its two cells. -/
theorem binaryApplications_congr (g : Grammar S) (mid : Nat) {left left' right right' : Cell S}
    (hleft : left.reading = left'.reading) (hright : right.reading = right'.reading)
    (order : LoopOrder) :
    binaryApplications g mid left right order = binaryApplications g mid left' right' order := by
  have hscore₁ : left.score = left'.score := funext (Cell.score_congr hleft)
  have hscore₂ : right.score = right'.score := funext (Cell.score_congr hright)
  have hcontains₁ : left.contains = left'.contains := funext (Cell.contains_congr hleft)
  have hcontains₂ : right.contains = right'.contains := funext (Cell.contains_congr hright)
  unfold binaryApplications pairApplications leftChildApplications rightChildApplications
  rw [Cell.symbols_congr hleft, Cell.symbols_congr hright, hscore₁, hscore₂, hcontains₁,
    hcontains₂]

end Chart

/-! ## Sites in step -/

variable [Score S] [JitterSource J] {size : Nat} {stops : Fault → Prop}
  {past past' : List (Event S)}

/-- Two sites of one span, with twin cells that are filtered by one constraint each. -/
structure Site.Twins (T : Twinning S J size stops) (start stop : Nat) (filter filter' : Option Nat)
    (site site' : Site S) : Prop where
  start_eq : site.start = start
  stop_eq : site.stop = stop
  start_eq' : site'.start = start
  stop_eq' : site'.stop = stop
  filter_eq : site.filter = filter
  filter_eq' : site'.filter = filter'
  cell : T.Twins site.cell site'.cell

namespace Site.Twins

variable [CellConstraint C S] {T : Twinning S J size stops} {start stop : Nat}
  {filter filter' : Option Nat} {site site' : Site S} {constraint constraint' : Option C}
  {o : Offer S} {a : Application S} {scorer : Scorer S}

theorem consult (h : site.Twins T start stop filter filter' site')
    (hc : AnswerAlike S constraint constraint') (o : Offer S) :
    Effect.Lockstep (.since past past') stops (site.consult constraint o : Effect J S Bool)
      (site'.consult constraint' o) Eq := by
  cases hc with
  | none => exact Effect.lockstep_pure rfl
  | some hanswers =>
    unfold Site.consult
    rw [h.start_eq, h.stop_eq, h.start_eq', h.stop_eq']
    simp only [hanswers]
    refine Effect.lockstep_bind_lift (.refl _) fun accepted _ heq => ?_
    subst heq
    exact Effect.lockstep_bind_emit (Effect.lockstep_pure rfl)

theorem offer (h : site.Twins T start stop filter filter' site')
    (hc : AnswerAlike S constraint constraint') (hlt : o.rule.parent.index < size) :
    Effect.Lockstep (.since past past') stops (site.offer constraint o : Effect J S (Site S))
      (site'.offer constraint' o) (Site.Twins T start stop filter filter') := by
  refine Effect.lockstep_bind (h.consult hc o) fun accepted _ heq => ?_
  subst heq
  cases accepted with
  | true =>
    refine Effect.lockstep_bind (Effect.lockstep_offer (T.offer h.cell hlt)) fun c d hcd => ?_
    exact Effect.lockstep_pure
      ⟨h.start_eq, h.stop_eq, h.start_eq', h.stop_eq', h.filter_eq, h.filter_eq', hcd⟩
  | false =>
    have hclosed := Cell.isClosed_congr (T.reading_eq h.cell)
    show Effect.Lockstep (.since past past') stops (if site.cell.isClosed then _ else _)
      (if site'.cell.isClosed then _ else _) _
    rw [hclosed]
    split
    · exact Effect.lockstep_throw _
    · exact Effect.lockstep_pure h

theorem apply (h : site.Twins T start stop filter filter' site')
    (hc : AnswerAlike S constraint constraint') (hlt : a.rule.parent.index < size) :
    Effect.Lockstep (.since past past') stops (site.apply scorer constraint a : Effect J S (Site S))
      (site'.apply scorer constraint' a) (Site.Twins T start stop filter filter') := by
  unfold Site.apply
  rw [h.start_eq, h.stop_eq, h.start_eq', h.stop_eq']
  exact Effect.lockstep_bind_emit (h.offer hc hlt)

/-- The same applications, made at twin sites. -/
theorem applyAll (h : site.Twins T start stop filter filter' site')
    (hc : AnswerAlike S constraint constraint')
    {found : List (Application S)} (hlt : ∀ a ∈ found, a.rule.parent.index < size) :
    Effect.Lockstep (.since past past') stops
      (site.applyAll scorer constraint found : Effect J S (Site S))
      (site'.applyAll scorer constraint' found) (Site.Twins T start stop filter filter') :=
  Effect.lockstep_foldlM (fun a ha _ _ hsites => hsites.apply hc (hlt a ha)) h

end Site.Twins

/-! ## Charts in step -/

namespace Chart

variable [CellConstraint C S] {T : Twinning S J size stops} {chart chart' : Chart S C}
  {scorer : Scorer S} {start stop : Nat} {filter filter' : Option Nat} {site site' : Site S}

/-- Two charts for one sentence, with twin sites for its spans, made under the constraints
in force. -/
structure Twins (T : Twinning S J size stops) (chart chart' : Chart S C) : Prop where
  grammar_eq : chart.grammar = chart'.grammar
  aggregation_eq : chart.config.aggregation = chart'.config.aggregation
  loopOrder_eq : chart.config.loopOrder = chart'.config.loopOrder
  sentence_eq : chart.sentence = chart'.sentence
  constraint : AnswerAlike S chart.constraint chart'.constraint
  site : ∀ start stop, start < stop → stop ≤ chart.length →
    ∃ site site', chart.site start stop = .ok site ∧ chart'.site start stop = .ok site' ∧
      site.Twins T start stop chart.newFilter chart'.newFilter site'

/-- What is found to apply is applied in step. -/
theorem applyFound (hg : chart.grammar.Indexed) (hsize : chart.grammar.nonterminalCount = size)
    (hconstraint : AnswerAlike S chart.constraint chart'.constraint)
    (hsites : site.Twins T start stop filter filter' site')
    {found : Except Fault (List (Application S))}
    (hfound : ∀ l, found = .ok l → OfGrammar chart.grammar l) :
    Effect.Lockstep (.since past past') stops
      ((liftM found : Effect J S (List (Application S))) >>= fun l =>
        site.applyAll scorer chart.constraint l)
      ((liftM found : Effect J S (List (Application S))) >>= fun l =>
        site'.applyAll scorer chart'.constraint l) (Site.Twins T start stop filter filter') := by
  refine Effect.lockstep_bind_lift (.of_forall hfound) fun l _ hl => ?_
  obtain ⟨rfl, hrules⟩ := hl
  exact hsites.applyAll hconstraint fun a ha => hsize ▸ hg.parent_lt _ (hrules a ha)

namespace Twins

variable (h : chart.Twins T chart') (hg : chart.grammar.Indexed)
  (hsize : chart.grammar.nonterminalCount = size)

include h

theorem length_eq : chart.length = chart'.length := by
  rw [length, length, h.sentence_eq]

theorem matched_site {start stop : Nat} (h₁ : start < stop) (h₂ : stop ≤ chart.length) :
    Matched stops (Site.Twins T start stop chart.newFilter chart'.newFilter)
      (chart.site start stop) (chart'.site start stop) := by
  obtain ⟨site, site', hsite, hsite', hsites⟩ := h.site start stop h₁ h₂
  rw [hsite, hsite']
  exact .ok hsites

include hg hsize

theorem applyLexical (hsites : site.Twins T start stop filter filter' site') :
    Effect.Lockstep (.since past past') stops (chart.applyLexical scorer site : Effect J S (Site S))
      (chart'.applyLexical scorer site') (Site.Twins T start stop filter filter') := by
  have hfound : chart.lexicalApplications site.start = chart'.lexicalApplications site'.start := by
    unfold lexicalApplications
    rw [h.sentence_eq, h.grammar_eq, hsites.start_eq, hsites.start_eq']
  unfold Chart.applyLexical
  rw [← hfound]
  exact applyFound hg hsize h.constraint hsites fun l hl => ofGrammar_lexical hl

theorem applySplit (hsites : site.Twins T start stop filter filter' site') {mid : Nat}
    (h₁ : start < mid) (h₂ : mid < stop) (hstop : stop ≤ chart.length) :
    Effect.Lockstep (.since past past') stops
      (chart.applySplit scorer site mid : Effect J S (Site S))
      (chart'.applySplit scorer site' mid) (Site.Twins T start stop filter filter') := by
  unfold Chart.applySplit
  rw [hsites.start_eq, hsites.stop_eq, hsites.start_eq', hsites.stop_eq', ← h.grammar_eq,
    ← h.loopOrder_eq]
  refine Effect.lockstep_bind_lift (h.matched_site h₁ (by omega)) fun left left' hleft => ?_
  refine Effect.lockstep_bind_lift (h.matched_site h₂ hstop) fun right right' hright => ?_
  rw [← binaryApplications_congr chart.grammar mid (T.reading_eq hleft.cell)
    (T.reading_eq hright.cell)]
  exact applyFound hg hsize h.constraint hsites fun l hl => ofGrammar_binary hl

theorem applyUnary (hsites : site.Twins T start stop filter filter' site') (child : Symbol) :
    Effect.Lockstep (.since past past') stops
      (chart.applyUnary scorer site child : Effect J S (Site S))
      (chart'.applyUnary scorer site' child) (Site.Twins T start stop filter filter') := by
  have hreading := T.reading_eq hsites.cell
  have hfound : unaryApplications chart.grammar site child =
      unaryApplications chart'.grammar site' child := by
    unfold unaryApplications
    rw [h.grammar_eq, hsites.stop_eq, hsites.stop_eq', Cell.contains_congr hreading,
      Cell.score_congr hreading]
  unfold Chart.applyUnary
  rw [← hfound]
  exact applyFound hg hsize h.constraint hsites fun l hl => ofGrammar_unary hl

theorem sweepUnary (hsites : site.Twins T start stop filter filter' site') :
    Effect.Lockstep (.since past past') stops (chart.sweepUnary scorer site : Effect J S (Site S))
      (chart'.sweepUnary scorer site') (Site.Twins T start stop filter filter') := by
  unfold Chart.sweepUnary
  rw [← h.grammar_eq]
  exact Effect.lockstep_foldlM (fun child _ _ _ hs => h.applyUnary hg hsize hs child) hsites

/-- **Twin sites are filled in step.** -/
theorem fillSite (hsites : site.Twins T start stop filter filter' site')
    (hstop : stop ≤ chart.length) :
    Effect.Lockstep (.since past past') stops (chart.fillSite scorer site : Effect J S (Site S))
      (chart'.fillSite scorer site') (Site.Twins T start stop filter filter') := by
  have hsplits : Effect.Lockstep (.since past past') stops
      ((Span.splits start stop).foldlM (chart.applySplit scorer) site : Effect J S (Site S))
      ((Span.splits start stop).foldlM (chart'.applySplit scorer) site')
      (Site.Twins T start stop filter filter') := by
    refine Effect.lockstep_foldlM (fun mid hmid _ _ hs => ?_) hsites
    obtain ⟨h₁, h₂⟩ := Span.mem_splits.mp hmid
    exact h.applySplit hg hsize hs h₁ h₂ hstop
  unfold Chart.fillSite
  rw [hsites.start_eq, hsites.stop_eq, hsites.start_eq', hsites.stop_eq']
  have hrest : ∀ site₁ site₁', site₁.Twins T start stop filter filter' site₁' →
      Effect.Lockstep (.since past past') stops
      (chart.sweepUnary scorer site₁ >>= fun site => pure site.close : Effect J S (Site S))
      (chart'.sweepUnary scorer site₁' >>= fun site => pure site.close)
      (Site.Twins T start stop filter filter') := by
    intro site₁ site₁' hsites₁
    refine Effect.lockstep_bind (h.sweepUnary hg hsize hsites₁) fun site₂ site₂' hsites₂ => ?_
    exact Effect.lockstep_pure ⟨hsites₂.start_eq, hsites₂.stop_eq, hsites₂.start_eq',
      hsites₂.stop_eq', hsites₂.filter_eq, hsites₂.filter_eq', T.close hsites₂.cell⟩
  by_cases hone : stop = start + 1
  · rw [if_pos hone, if_pos hone]
    exact Effect.lockstep_bind (h.applyLexical hg hsize hsites) hrest
  · rw [if_neg hone, if_neg hone]
    exact Effect.lockstep_bind hsplits hrest

omit hg hsize in
/-- Twin sites written in twin charts. Of the first chart nothing else changes. -/
theorem withSite (hsites : site.Twins T start stop chart.newFilter chart'.newFilter site')
    (h₁ : start < stop) (h₂ : stop ≤ chart.length) :
    Matched stops (fun c c' => c.Twins T c' ∧ ∃ sites, c = { chart with sites })
      (chart.withSite start stop site) (chart'.withSite start stop site') := by
  obtain ⟨old, old', hold, hold', _⟩ := h.site start stop h₁ h₂
  obtain ⟨sites, hwith, hself, hother⟩ := withSite_ok hold site
  obtain ⟨sites', hwith', hself', hother'⟩ := withSite_ok hold' site'
  rw [hwith, hwith']
  refine .ok ⟨⟨h.grammar_eq, h.aggregation_eq, h.loopOrder_eq, h.sentence_eq, h.constraint, ?_⟩,
    sites, rfl⟩
  intro s e hse he
  by_cases heq : (s, e) = (start, stop)
  · cases heq
    exact ⟨site, site', hself, hself', hsites⟩
  · rw [hother s e heq, hother' s e heq]
    exact h.site s e hse he

theorem fill {span : Nat × Nat} (hspan : span ∈ Span.narrowFirst chart.length) :
    Effect.Lockstep (.since past past') stops
      (Chart.fill scorer chart span : Effect J S (Chart S C))
      (Chart.fill scorer chart' span) fun c c' =>
        c.Twins T c' ∧ ∃ sites, c = { chart with sites } := by
  obtain ⟨start, stop⟩ := span
  obtain ⟨h₁, h₂⟩ := Span.mem_narrowFirst.mp hspan
  obtain ⟨old, old', hold, hold', holds⟩ := h.site start stop h₁ h₂
  rw [fill_eq hold holds.start_eq holds.stop_eq holds.filter_eq,
    fill_eq hold' holds.start_eq' holds.stop_eq' holds.filter_eq']
  unfold fillInPlace
  refine Effect.lockstep_bind_lift (h.matched_site h₁ h₂) fun site site' hsites => ?_
  refine Effect.lockstep_bind (h.fillSite hg hsize hsites h₂) fun closed closed' hclosed => ?_
  rw [← Cell.symbols_congr (T.reading_eq hclosed.cell)]
  refine Effect.lockstep_bind_lift (.refl _) fun present _ heq => ?_
  subst heq
  exact Effect.lockstep_bind_emit (Effect.lockstep_lift (h.withSite hclosed h₁ h₂))

/-- **Twin charts are filled in step.** -/
theorem fillAll :
    Effect.Lockstep (.since past past') stops (chart.fillAll scorer : Effect J S (Chart S C))
      (chart'.fillAll scorer) (Chart.Twins T) := by
  unfold Chart.fillAll
  rw [← h.length_eq]
  -- the loop changes sites alone, so its spans are those of the chart at hand all along
  refine Effect.Lockstep.imp (Effect.lockstep_foldlM
    (R := fun c c' => c.Twins T c' ∧ ∃ sites, c = { chart with sites })
    (fun span hspan c c' hx => ?_) ⟨h, chart.sites, rfl⟩) fun _ _ hx => hx.1
  obtain ⟨hc, sites, rfl⟩ := hx
  exact hc.fill hg hsize hspan

omit hg hsize

/-- Cells of twin charts read alike, and are there for the same spans. -/
theorem matched_cell (start stop : Nat) :
    Matched (fun _ => False) (fun c d : Cell S => c.reading = d.reading) (chart.cell start stop)
      (chart'.cell start stop) := by
  by_cases hspan : start < stop ∧ stop ≤ chart.length
  · obtain ⟨site, site', hsite, hsite', hsites⟩ := h.site start stop hspan.1 hspan.2
    rw [cell_eq hsite hspan.2, cell_eq hsite' (h.length_eq ▸ hspan.2)]
    exact .ok (T.reading_eq hsites.cell)
  · unfold cell
    rw [← h.length_eq, if_neg hspan, if_neg hspan]
    exact .error _

end Twins

end Chart

end ChartParsing
