import ChartParsing.Proofs.Chart.OneCell
import ChartParsing.Proofs.Chart.Taking
import Mathlib.Data.List.Basic

/-!
# The whole chart filled

Spans have their turns narrow ones first, so all that is narrower is closed when a
span's turn comes, and what a cell has taken in still applies when the chart is
done: later cells are over spans that are not within its own. Afterwards every
cell is complete with respect to the scores of the chart itself. This fixed point
is all that later modules know of a parse, along with the calls that were made:
each turn adds those for what applies over its span. A parse that ends at a fault has
come to some span, with all turns before it done, and ends in the midst of filling the
cell.

A chart that is reachable has been made for a grammar and then used in any way:
constrained, reset and filled any number of times.
-/

namespace ChartParsing

variable {S C J : Type} [Score S]

/-- What applies over a span is read off the scores within it. -/
theorem applications_congr {g : Grammar S} {sentence : List Symbol} {V W : Values S}
    {start stop : Nat} (hV : ∀ sym s e, start ≤ s → e ≤ stop → V sym s e = W sym s e) :
    applications g sentence V start stop = applications g sentence W start stop := by
  refine List.filterMap_congr ?_
  intro st hst
  obtain ⟨_, hs, he, hmid⟩ := Grammar.mem_steps.mp hst
  unfold Step.application?
  rw [hs, he]
  cases hrhs : st.rule.rhs with
  | lexical t => rfl
  | unary y => simp only [hV y start stop (Nat.le_refl _) (Nat.le_refl _)]
  | binary y z =>
    rw [hrhs] at hmid
    obtain ⟨h₁, h₂⟩ := Span.mem_splits.mp hmid
    simp only [hV y start st.mid (Nat.le_refl _) (by omega),
      hV z st.mid stop (by omega) (Nat.le_refl _)]

namespace Chart

/-- The score of the root is what its cell holds of it. -/
theorem rootScore?_of_cell {chart : Chart S C} {cell : Cell S}
    (h : chart.cell 0 chart.length = .ok cell) :
    chart.rootScore? = .ok (cell.value? chart.grammar.root) := by
  have hlength : chart.length ≠ 0 := by
    intro hzero
    rw [hzero] at h
    cases h
  unfold rootScore?
  rw [if_neg hlength, h]
  show (if cell.contains chart.grammar.root then
    .ok (some (cell.score chart.grammar.root)) else .ok none : Except Fault (Option S)) = _
  -- a symbol counts as present if it has a score
  cases hv : cell.value? chart.grammar.root with
  | none =>
    rw [if_neg]
    · intro hc
      obtain ⟨v, hv'⟩ := Cell.contains_iff_value?.mp hc
      cases hv.symm.trans hv'
  | some v =>
    rw [if_pos (Cell.contains_iff_value?.mpr ⟨v, hv⟩), Cell.score_eq_of_value? hv]

theorem rootScore?_eq {chart : Chart S C} {site : Site S}
    (h : chart.site 0 chart.length = .ok site) :
    chart.rootScore? = .ok (site.cell.value? chart.grammar.root) :=
  rootScore?_of_cell (cell_eq h (Nat.le_refl _))

theorem rootScore?_of_values {chart : Chart S C} {v : S}
    (h : chart.values chart.grammar.root 0 chart.length = some v) :
    chart.rootScore? = .ok (some v) := by
  obtain ⟨cell, hcell, hv⟩ := cell_of_values h
  rw [rootScore?_of_cell hcell, hv]

omit [Score S] in
/-- A chart with another cell over one span of its sentence holds its scores. -/
theorem values_withSite {chart : Chart S C} {sites : Array (Option (Site S))} {start stop : Nat}
    {site : Site S} (hself : ({ chart with sites } : Chart S C).site start stop = .ok site)
    (hstop : stop ≤ chart.length)
    (hother : ∀ start' stop', (start', stop') ≠ (start, stop) →
      ({ chart with sites } : Chart S C).site start' stop' = chart.site start' stop') :
    ({ chart with sites } : Chart S C).values = chart.values.set start stop site.cell := by
  funext sym s e
  by_cases hspan : s = start ∧ e = stop
  · obtain ⟨rfl, rfl⟩ := hspan
    rw [Values.set_self, values_eq hself hstop]
  · rw [Values.set_of_ne _ _ _ hspan]
    have hcell : ({ chart with sites } : Chart S C).cell s e = chart.cell s e := by
      unfold cell
      rw [hother s e fun heq => hspan (Prod.mk.inj heq)]
      rfl
    unfold values
    rw [hcell]

variable [CellConstraint C S] [JitterSource J] {chart : Chart S C} {scorer : Scorer S}

theorem Complete.shut {V : Values S} {start stop : Nat} {site : Site S}
    (h : chart.Complete J scorer V start stop site) : site.cell.Shut := by
  obtain ⟨cell, made, rfl, hafter, _⟩ := h
  exact ⟨rfl, hafter.shape.2.2.1⟩

theorem Complete.reset {V : Values S} {start stop : Nat} {site : Site S}
    (h : chart.Complete J scorer V start stop site) : site.reset = chart.newSite start stop := by
  obtain ⟨cell, made, rfl, hafter, _⟩ := h
  show Site.mk start stop cell.reset chart.newFilter = _
  rw [hafter.reset_eq]
  rfl

theorem Complete.congr {V W : Values S} {start stop : Nat} {site : Site S}
    (h : chart.Complete J scorer V start stop site)
    (hV : ∀ sym s e, start ≤ s → e ≤ stop → V sym s e = W sym s e) :
    chart.Complete J scorer W start stop site := by
  obtain ⟨cell, made, hsite, hafter, hperm⟩ := h
  exact ⟨cell, made, hsite, hafter, by rw [← applications_congr hV]; exact hperm⟩

/-- A chart that has been filled for some spans of its sentence, and is blank over
the others. -/
structure Filling (J : Type) [JitterSource J] (chart : Chart S C) (scorer : Scorer S)
    (done : List (Nat × Nat)) : Prop where
  shaped : chart.Shaped
  room : chart.length ≤ chart.capacity
  complete : ∀ start stop, (start, stop) ∈ done →
    ∃ site, chart.site start stop = .ok site ∧
      chart.Complete J scorer chart.values start stop site
  blank : ∀ start stop, start < stop → stop ≤ chart.length → (start, stop) ∉ done →
    chart.site start stop = .ok (chart.newSite start stop)

omit [Score S] [CellConstraint C S] in
theorem value?_newSite (chart : Chart S C) (start stop : Nat) (sym : Symbol) :
    (chart.newSite start stop).cell.value? sym = none := by
  simp [newSite, Cell.value?, Cell.find?, Cell.empty, CellStore.find?_empty]

theorem Blank.filling (h : chart.Blank chart.length) (hshaped : chart.Shaped) :
    chart.Filling J scorer [] :=
  ⟨hshaped, h.room, by simp, fun start stop h₁ h₂ _ => h.site start stop h₁ h₂⟩

theorem Filling.due {done rest : List (Nat × Nat)} {start stop : Nat}
    (h : chart.Filling J scorer done) (hg : chart.grammar.Indexed)
    (hsplit : Span.narrowFirst chart.length = done ++ (start, stop) :: rest) :
    chart.Due start stop := by
  have hmem : (start, stop) ∈ Span.narrowFirst chart.length := by rw [hsplit]; simp
  obtain ⟨h₁, h₂⟩ := Span.mem_narrowFirst.mp hmem
  refine ⟨hg, h.shaped.loopOrder_eq, h₁, h₂, ?_, ?_⟩
  · intro s e _ hse he hnarrow
    obtain ⟨site, hsite, hcomplete⟩ :=
      h.complete s e (Span.mem_done_of_narrower hsplit hse (by omega) hnarrow)
    exact ⟨site, hsite, hcomplete.shut⟩
  · intro sym
    rw [values_eq (h.blank start stop h₁ h₂ (Span.notMem_done hsplit)) h₂, value?_newSite]

omit [Score S] in
/-- The span whose turn it is lies within none that had its turn before. -/
theorem set_within_done {length : Nat} {done rest : List (Nat × Nat)} {start stop : Nat}
    (hsplit : Span.narrowFirst length = done ++ (start, stop) :: rest) {s e : Nat}
    (hdone : (s, e) ∈ done) (V : Values S) (cell : Cell S) :
    ∀ sym s' e', s ≤ s' → e' ≤ e → V sym s' e' = V.set start stop cell sym s' e' := by
  have hmem : (start, stop) ∈ Span.narrowFirst length := by rw [hsplit]; simp
  obtain ⟨hlt, _⟩ := Span.mem_narrowFirst.mp hmem
  have hpair := Span.pairwise_narrowFirst length
  rw [hsplit] at hpair
  obtain ⟨hwidth, hne⟩ :=
    (List.pairwise_append.mp hpair).2.2 (s, e) hdone (start, stop) List.mem_cons_self
  intro sym s' e' hs he
  refine (Values.set_of_ne _ _ _ ?_).symm
  intro hx
  rcases hx with ⟨rfl, rfl⟩
  simp only at hwidth
  exact hne (by rw [Prod.mk.injEq]; omega)

/-- One more cell, in its turn. -/
theorem Filling.withSite {done rest : List (Nat × Nat)} {start stop : Nat} {site : Site S}
    {sites : Array (Option (Site S))} (h : chart.Filling J scorer done)
    (hsplit : Span.narrowFirst chart.length = done ++ (start, stop) :: rest)
    (hself : ({ chart with sites } : Chart S C).site start stop = .ok site)
    (hother : ∀ start' stop', (start', stop') ≠ (start, stop) →
      ({ chart with sites } : Chart S C).site start' stop' = chart.site start' stop')
    (hcomplete : chart.Complete J scorer (chart.values.set start stop site.cell) start stop site) :
    ({ chart with sites } : Chart S C).Filling J scorer (done ++ [(start, stop)]) := by
  have hmem : (start, stop) ∈ Span.narrowFirst chart.length := by rw [hsplit]; simp
  obtain ⟨h₁, h₂⟩ := Span.mem_narrowFirst.mp hmem
  have hvalues := values_withSite hself h₂ hother
  refine ⟨h.shaped.withSite hself hother hcomplete.reset, h.room, ?_, ?_⟩
  · intro s e hdone
    rw [hvalues]
    rcases List.mem_append.mp hdone with hdone | hdone
    · have hne : (s, e) ≠ (start, stop) := fun heq => Span.notMem_done hsplit (heq ▸ hdone)
      obtain ⟨old, hold, hcomp⟩ := h.complete s e hdone
      refine ⟨old, by rw [hother s e hne]; exact hold, hcomp.congr ?_⟩
      exact set_within_done hsplit hdone chart.values site.cell
    · rw [List.mem_singleton] at hdone
      cases hdone
      exact ⟨site, hself, hcomplete⟩
  · intro s e hse he hnot
    rw [hother s e fun heq => hnot (by rw [heq]; simp)]
    exact h.blank s e hse he fun hdone => hnot (List.mem_append_left _ hdone)

/-! ## What is asked -/

/-- An application and the span that it is made over. -/
structure Placed (S : Type) where
  start : Nat
  stop : Nat
  application : Application S

/-- The calls made for it. -/
def Placed.calls (scorer : Scorer S) (constraint : Option C) (x : Placed S) : List (Event S) :=
  x.application.calls scorer constraint x.start x.stop

/-- After those in the `past`, the calls are those made for what applies over some spans,
each of it once. -/
def AskedOver (chart : Chart S C) (scorer : Scorer S) (done : List (Nat × Nat))
    (past : List (Event S)) (run : Run J S) : Prop :=
  ∃ made : List (Placed S), made.Nodup ∧
    (∀ x, x ∈ made ↔ (x.start, x.stop) ∈ done ∧
      Applies chart.grammar chart.sentence chart.values x.start x.stop x.application) ∧
    run.calls = past ++ made.flatMap (Placed.calls scorer chart.constraint)

omit [JitterSource J] in
/-- The calls for one more span, in its turn. -/
theorem AskedOver.withSite {done rest : List (Nat × Nat)} {start stop : Nat}
    {past : List (Event S)} {run run' : Run J S} (h : chart.AskedOver scorer done past run)
    (hg : chart.grammar.Indexed)
    (hsplit : Span.narrowFirst chart.length = done ++ (start, stop) :: rest) {cell : Cell S}
    {sites : Array (Option (Site S))}
    (hvalues : ({ chart with sites } : Chart S C).values = chart.values.set start stop cell)
    (hasked : chart.Asked scorer (chart.values.set start stop cell) start stop run.calls run') :
    ({ chart with sites } : Chart S C).AskedOver scorer (done ++ [(start, stop)]) past run' := by
  obtain ⟨made, hnodup, hmem, hcalls⟩ := h
  obtain ⟨new, hperm, hcalls'⟩ := hasked
  have hold := Span.notMem_done hsplit
  -- what applied over the other spans still does
  have hkept : ∀ x : Placed S, (x.start, x.stop) ∈ done →
      (Applies chart.grammar chart.sentence chart.values x.start x.stop x.application ↔
        Applies chart.grammar chart.sentence (chart.values.set start stop cell) x.start x.stop
          x.application) := by
    intro x hx
    have hsame := set_within_done hsplit hx chart.values cell
    exact ⟨fun h => h.congr hsame,
      fun h => h.congr fun sym s e hs he => (hsame sym s e hs he).symm⟩
  refine ⟨made ++ new.map (Placed.mk start stop), ?_, fun x => ?_, ?_⟩
  · refine List.nodup_append.mpr ⟨hnodup, ?_, ?_⟩
    · exact nodup_map_of_key Placed.application
        (hperm.nodup_iff.mpr (nodup_applications hg.nodup_rules _ _ _ _)) fun _ => rfl
    · intro x hx _ hnew heq
      obtain ⟨a, _, rfl⟩ := List.mem_map.mp hnew
      rw [heq] at hx
      exact hold ((hmem _).mp hx).1
  · rw [hvalues]
    simp only [List.mem_append, hmem, List.mem_map, hperm.mem_iff, mem_applications,
      List.mem_singleton, Prod.mk.injEq]
    refine ⟨?_, ?_⟩
    · rintro (⟨hdone, happlies⟩ | ⟨a, happlies, rfl⟩)
      · exact ⟨Or.inl hdone, (hkept x hdone).mp happlies⟩
      · exact ⟨Or.inr ⟨rfl, rfl⟩, happlies⟩
    · rintro ⟨hdone | ⟨rfl, rfl⟩, happlies⟩
      · exact Or.inl ⟨hdone, (hkept x hdone).mpr happlies⟩
      · exact Or.inr ⟨x.application, happlies, rfl⟩
  · rw [hcalls', hcalls, List.append_assoc, List.flatMap_append, List.flatMap_map]
    rfl

/-! ## The loop over all spans -/

theorem fill_ends {done rest : List (Nat × Nat)} {span : Nat × Nat}
    (h : chart.Filling J scorer done) (hg : chart.grammar.Indexed)
    (hsplit : Span.narrowFirst chart.length = done ++ span :: rest) {past : List (Event S)}
    {run : Run J S} (hasked : chart.AskedOver scorer done past run) :
    (Chart.fill scorer chart span).Ends (chart.Stops scorer span.1 span.2 run.calls) run
      fun chart' run' => ∃ sites, chart' = { chart with sites } ∧
        chart'.Filling J scorer (done ++ [span]) ∧
        chart'.AskedOver scorer (done ++ [span]) past run' := by
  obtain ⟨start, stop⟩ := span
  have hdue := h.due hg hsplit
  have hblank := h.blank start stop hdue.start_lt hdue.stop_le (Span.notMem_done hsplit)
  rw [fill_eq hblank rfl rfl rfl]
  unfold fillInPlace
  refine Effect.ends_bind_ok hblank ?_
  refine Effect.ends_bind (fillSite_ends hdue run) ?_
  intro site run₂ hfilled
  obtain ⟨hcomplete, new, hperm, hcalls⟩ := hfilled
  refine Effect.ends_bind_ok hcomplete.shut.symbols_eq ?_
  refine Effect.ends_bind_push ?_
  obtain ⟨sites, hwith, hself, hother⟩ := withSite_ok hblank site
  refine Effect.ends_lift_ok hwith ⟨sites, rfl, h.withSite hsplit hself hother hcomplete, ?_⟩
  refine hasked.withSite hg hsplit (values_withSite hself hdue.stop_le hother) ⟨new, hperm, ?_⟩
  exact (Run.quiet_logged _ _).2.trans hcalls

/-- Filling all cells may end at the turn of some span. -/
theorem fillAll_ends (scorer : Scorer S) (h : chart.Blank chart.length) (hshaped : chart.Shaped)
    (hg : chart.grammar.Indexed) (run : Run J S) :
    (chart.fillAll scorer).Ends
      (fun fault run' => ∃ done span rest sites run₁,
        Span.narrowFirst chart.length = done ++ span :: rest ∧
        (done.foldlM (Chart.fill scorer) chart).outcome run =
          (.ok { chart with sites }, run₁) ∧
        ({ chart with sites } : Chart S C).Filling J scorer done ∧
        ({ chart with sites } : Chart S C).Stops scorer span.1 span.2 run₁.calls fault run') run
      fun chart' run' => ∃ sites, chart' = { chart with sites } ∧
        chart'.Filling J scorer (Span.narrowFirst chart.length) ∧
        chart'.AskedOver scorer (Span.narrowFirst chart.length) run.calls run' := by
  refine Effect.ends_foldlM_reached (fun done (chart' : Chart S C) run' =>
    ∃ sites, chart' = { chart with sites } ∧ chart'.Filling J scorer done ∧
      chart'.AskedOver scorer done run.calls run')
    ⟨chart.sites, rfl, h.filling hshaped, [], List.nodup_nil, by simp,
      (List.append_nil _).symm⟩ ?_
  intro done span rest _ run₁ hsplit hreached hx
  rcases hx with ⟨sites, rfl, hfilling, hasked⟩
  refine ((fill_ends hfilling hg hsplit hasked).allow fun fault run' hstops =>
    ⟨done, span, rest, sites, run₁, hsplit, hreached, hfilling, hstops⟩).imp ?_
  intro _ _ hx
  rcases hx with ⟨sites', rfl, hfilling', hasked'⟩
  exact ⟨sites', rfl, hfilling', hasked'⟩

/-! ## Parsing -/

omit [Score S] [JitterSource J] in
/-- A chart without a constraint follows the predicate that is always true. -/
theorem follows_of_none (h : chart.constraint = none) (sentence : List Symbol) (length : Nat) :
    Follows (chart.announced sentence) length (⟨fun _ _ _ _ _ => true⟩ : CellPredicate S) :=
  ⟨none, by rw [announced, h], fun _ _ _ _ _ _ _ => rfl⟩

omit [Score S] [CellConstraint C S] [JitterSource J] in
/-- A chart constrained by a predicate follows it. -/
theorem follows_of_some {chart : Chart S (CellPredicate S)} {p : CellPredicate S}
    (h : chart.constraint = some p) (sentence : List Symbol) (length : Nat) :
    Follows (chart.announced sentence) length p :=
  ⟨some p, by rw [announced, h]; rfl, fun _ _ _ _ _ _ _ => rfl⟩

/-- What parsing a sentence leads to: a chart for the sentence, each of its cells
complete with respect to the scores of the chart. -/
structure Parsed (J : Type) [JitterSource J] (chart : Chart S C) (sentence : List Symbol)
    (scorer : Scorer S) (chart' : Chart S C) : Prop where
  grammar_eq : chart'.grammar = chart.grammar
  config_eq : chart'.config = chart.config
  constraint_eq : chart.announced sentence = .ok chart'.constraint
  sentence_eq : chart'.sentence = sentence
  shaped : chart'.Shaped
  complete : ∀ start stop, start < stop → stop ≤ sentence.length →
    ∃ site, chart'.site start stop = .ok site ∧
      chart'.Complete J scorer chart'.values start stop site

theorem Parsed.length_eq {chart' : Chart S C} {sentence : List Symbol}
    (h : chart.Parsed J sentence scorer chart') : chart'.length = sentence.length := by
  rw [length, h.sentence_eq]

/-- The constraint of a parsed chart answers like the predicate that was followed. -/
theorem Parsed.answersAs {chart' : Chart S C} {sentence : List Symbol} {p : CellPredicate S}
    (h : chart.Parsed J sentence scorer chart')
    (hp : Follows (chart.announced sentence) sentence.length p) :
    AnswersAs chart'.constraint sentence.length p :=
  hp.answersAs h.constraint_eq

/-- A parsed chart has a complete cell over every span. -/
theorem Parsed.exists_cell {chart' : Chart S C} {sentence : List Symbol} {start stop : Nat}
    (h : chart.Parsed J sentence scorer chart') (h₁ : start < stop) (h₂ : stop ≤ chart'.length) :
    ∃ site, chart'.cell start stop = .ok site.cell ∧
      chart'.Complete J scorer chart'.values start stop site := by
  obtain ⟨site, hsite, hcomplete⟩ := h.complete start stop h₁ (h.length_eq ▸ h₂)
  exact ⟨site, cell_eq hsite h₂, hcomplete⟩

theorem Parsed.rootScore?_ok {chart' : Chart S C} {sentence : List Symbol}
    (h : chart.Parsed J sentence scorer chart') : ∃ root, chart'.rootScore? = .ok root := by
  have hlength : chart'.length = sentence.length := h.length_eq
  rcases Nat.eq_zero_or_pos chart'.length with hzero | hpos
  · exact ⟨none, if_pos hzero⟩
  · obtain ⟨site, hsite, _⟩ := h.complete 0 chart'.length hpos (by omega)
    exact ⟨_, rootScore?_eq hsite⟩

/-- Parsing a sentence comes to a span: the chart has been reset to the sentence, and all
spans before this one have had their turns. -/
structure ComesTo (chart : Chart S C) (sentence : List Symbol) (scorer : Scorer S)
    (run : Run J S) (span : Nat × Nat) (held : Chart S C) (run₁ : Run J S) : Prop where
  grammar_eq : held.grammar = chart.grammar
  config_eq : held.config = chart.config
  constraint_eq : chart.announced sentence = .ok held.constraint
  sentence_eq : held.sentence = sentence
  reached : ∃ opened run₀ done rest,
    (chart.reset sentence).outcome run = (.ok (.ok opened), run₀) ∧
    Span.narrowFirst sentence.length = done ++ span :: rest ∧
    (done.foldlM (Chart.fill scorer) opened).outcome run₀ = (.ok held, run₁) ∧
    held.Filling J scorer done

theorem ComesTo.span_mem {sentence : List Symbol} {run run₁ : Run J S} {span : Nat × Nat}
    {held : Chart S C} (h : chart.ComesTo sentence scorer run span held run₁) :
    span.1 < span.2 ∧ span.2 ≤ sentence.length := by
  obtain ⟨_, _, done, rest, _, hsplit, _⟩ := h.reached
  exact Span.mem_narrowFirst.mp (by rw [hsplit]; simp)

/-- The fault at which parsing a sentence ends, and the run it ends in. -/
inductive ParseStops (chart : Chart S C) (sentence : List Symbol) (scorer : Scorer S)
    (run : Run J S) (fault : Fault) (run' : Run J S) : Prop where
  /-- The constraint is at fault for the sentence. -/
  | unannounced : chart.Unannounced sentence run fault run' →
      ParseStops chart sentence scorer run fault run'
  /-- Filling the cell of some span ends at the fault. -/
  | filling {span : Nat × Nat} {held : Chart S C} {run₁ : Run J S} :
      chart.ComesTo sentence scorer run span held run₁ →
      held.Stops scorer span.1 span.2 run₁.calls fault run' →
      ParseStops chart sentence scorer run fault run'

/-- Parsing a sentence meets an undefined score: when it has come to some span, the cell
refuses the application whose turn it is. -/
def MeetsUndefined (chart : Chart S C) (sentence : List Symbol) (scorer : Scorer S)
    (run run' : Run J S) : Prop :=
  ∃ span held run₁, chart.ComesTo sentence scorer run span held run₁ ∧
    held.Refuses scorer span.1 span.2 run₁.calls run'

/-- A constraint that takes note of the sentence and answers leaves an undefined score to
be met. -/
theorem ParseStops.meetsUndefined {sentence : List Symbol} {run run' : Run J S} {fault : Fault}
    (h : chart.ParseStops sentence scorer run fault run') {p : CellPredicate S}
    (hp : Follows (chart.announced sentence) sentence.length p) :
    fault = .undefinedScore ∧ chart.MeetsUndefined sentence scorer run run' := by
  cases h with
  | unannounced h =>
    obtain ⟨_, hok, _⟩ := hp
    cases hok.symm.trans h.1
  | @filling span held run₁ hcomes hstops =>
    obtain ⟨h₁, h₂⟩ := hcomes.span_mem
    obtain ⟨hfault, hrefuses⟩ := hstops.refuses (hp.answersAs hcomes.constraint_eq) h₁ h₂
    exact ⟨hfault, span, held, run₁, hcomes, hrefuses⟩

theorem MeetsUndefined.exists_undefined {sentence : List Symbol} {run run' : Run J S}
    (h : chart.MeetsUndefined sentence scorer run run') : ∃ x : S, Score.isUndefined x = true := by
  obtain ⟨_, _, _, _, hrefuses⟩ := h
  exact hrefuses.exists_undefined

/-- **Parsing fills the chart**, unless a token is none of the grammar's or the parse ends
at a span. It makes the calls for what applies over the spans of the sentence. -/
theorem parse_asks [ScoreText S] (hshaped : chart.Shaped) (hg : chart.grammar.Indexed)
    (sentence : List Symbol) (scorer : Scorer S) (run : Run J S) :
    (chart.parse sentence scorer).Ends (chart.ParseStops sentence scorer run) run
      fun result run' => match result with
        | .error _ => ∃ token ∈ sentence, chart.grammar.terminalCount ≤ token.index
        | .ok chart' => chart.Parsed J sentence scorer chart' ∧
            chart'.AskedOver scorer (Span.narrowFirst sentence.length)
              (run.calls ++ chart.announcement sentence) run' := by
  unfold parse
  refine Effect.ends_bind_reached
    ((reset_ends hshaped sentence run).allow fun _ _ hf => .unannounced hf) ?_
  intro result run₁ hreached hopened
  rcases result with e | chart₁
  · exact Effect.ends_pure hopened
  obtain ⟨⟨hgrammar, hconfig, hconstraint, hsentence, hshaped₁, hblank⟩, hannounced⟩ := hopened
  have hlength : chart₁.length = sentence.length := by rw [length, hsentence]
  rw [← hlength] at hblank
  have hfill := fillAll_ends scorer hblank hshaped₁ (by rw [hgrammar]; exact hg) run₁
  refine Effect.ends_bind (hfill.allow fun fault run' hfault => ?_) ?_
  · obtain ⟨done, span, rest, sites, run₂, hsplit, hdone, hfilling, hstops⟩ := hfault
    rw [hlength] at hsplit
    have hcomes : chart.ComesTo sentence scorer run span { chart₁ with sites } run₂ :=
      ⟨hgrammar, hconfig, hconstraint, hsentence, chart₁, run₁, done, rest, hreached, hsplit,
        hdone, hfilling⟩
    exact .filling hcomes hstops
  intro _ run₂ h
  rcases h with ⟨sites, rfl, hfilling, hasked⟩
  rw [hannounced, hlength] at hasked
  have hparsed : chart.Parsed J sentence scorer { chart₁ with sites } := by
    refine ⟨hgrammar, hconfig, hconstraint, hsentence, hfilling.shaped, ?_⟩
    intro start stop h₁ h₂
    exact hfilling.complete start stop (Span.mem_narrowFirst.mpr ⟨h₁, by omega⟩)
  -- all that is left is a log line, for which the score of the root is read
  obtain ⟨root, hroot⟩ := hparsed.rootScore?_ok
  refine Effect.ends_bind_ok hroot (Effect.ends_bind_push (Effect.ends_pure ⟨hparsed, ?_⟩))
  obtain ⟨made, hnodup, hmem, hcalls⟩ := hasked
  exact ⟨made, hnodup, hmem, (Run.quiet_logged _ _).2.trans hcalls⟩

theorem parse_ends [ScoreText S] (hshaped : chart.Shaped) (hg : chart.grammar.Indexed)
    (sentence : List Symbol) (scorer : Scorer S) (run : Run J S) :
    (chart.parse sentence scorer).Ends (chart.ParseStops sentence scorer run) run
      fun result _ => match result with
        | .error _ => ∃ token ∈ sentence, chart.grammar.terminalCount ≤ token.index
        | .ok chart' => chart.Parsed J sentence scorer chart' := by
  refine (parse_asks hshaped hg sentence scorer run).imp fun result run' h => ?_
  cases result with
  | error _ => exact h
  | ok chart' => exact h.1

/-! ## Charts in use -/

/-- A chart made for a grammar and used in any way since. -/
inductive Reachable (J : Type) [JitterSource J] [ScoreText S] (g : Grammar S)
    (config : ChartConfig) : Chart S C → Prop where
  | create {j : Bool} {chart : Chart S C} : Chart.create g config j = .ok chart →
      Reachable J g config chart
  | constrain {chart : Chart S C} (constraint : C) : Reachable J g config chart →
      Reachable J g config (chart.constrain constraint)
  | reset {chart chart' : Chart S C} {sentence : List Symbol} {run run' : Run J S} :
      Reachable J g config chart →
      (chart.reset sentence).outcome run = (.ok (.ok chart'), run') → Reachable J g config chart'
  | parse {chart chart' : Chart S C} {sentence : List Symbol} {scorer : Scorer S}
      {run run' : Run J S} : Reachable J g config chart →
      (chart.parse sentence scorer).outcome run = (.ok (.ok chart'), run') →
      Reachable J g config chart'

/-- A chart that has not been used is reachable, if it can be made at all. -/
theorem reachable_new [ScoreText S] {g : Grammar S} {config : ChartConfig}
    (hsupports : config.cellType.supports config.aggregation = true)
    (horder : g.loopOrder = config.loopOrder) :
    (vacant g config : Chart S C).Reachable J g config :=
  .create (j := true) (by simp [Chart.create, hsupports, horder])

/-- **A chart in use is in shape.** -/
theorem Reachable.shaped [ScoreText S] {g : Grammar S} {config : ChartConfig}
    (h : chart.Reachable J g config) (hg : g.Indexed) :
    chart.Shaped ∧ chart.grammar = g ∧ chart.config = config := by
  induction h with
  | create hcreate => exact shaped_create hcreate
  | constrain constraint _ ih => exact ⟨ih.1.constrain constraint, ih.2⟩
  | reset _ hreset ih =>
    obtain ⟨hshaped, rfl, rfl⟩ := ih
    obtain ⟨hopened, -⟩ := (reset_ends hshaped _ _).of_outcome hreset
    exact ⟨hopened.shaped, hopened.grammar_eq, hopened.config_eq⟩
  | parse _ hparse ih =>
    obtain ⟨hshaped, rfl, rfl⟩ := ih
    have hparsed := (parse_ends hshaped hg _ _ _).of_outcome hparse
    exact ⟨hparsed.shaped, hparsed.grammar_eq, hparsed.config_eq⟩

end Chart

end ChartParsing
