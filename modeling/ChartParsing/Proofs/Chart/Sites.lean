import ChartParsing.Chart
import ChartParsing.Proofs.Cell.Store
import ChartParsing.Proofs.Outcome
import ChartParsing.Proofs.Span

/-!
# Sites in a chart

The sites of a chart lie in a row, and a span is found by its index. Since no two
spans share an index, writing the site of one span leaves all others as they are, and so
does taking it out.

A chart is in shape if it has a site for every span it has room for, in the right
place, and each is as new once it is reset. Every operation on charts keeps it so.
Resetting to a sentence opens a site for every span of it.
-/

namespace ChartParsing.Chart

variable {S C J : Type}

/-! ## Reading and writing -/

/-- The site of a span, read off the row of sites. -/
theorem site_eq (chart : Chart S C) (start stop : Nat) :
    chart.site start stop =
      if start < stop ∧ stop ≤ chart.capacity then
        match chart.sites[Span.index chart.capacity start stop]? with
        | some (some site) => .ok site
        | some none => .error .cellBeingFilled
        | none => .error .noSlot
      else .error .spanOutsideChart := by
  unfold Chart.site index
  split
  · rfl
  · rfl

/-- A span that has a site lies within the room of the chart. -/
theorem index_of_site_ok {chart : Chart S C} {start stop : Nat} {site : Site S}
    (h : chart.site start stop = .ok site) :
    start < stop ∧ stop ≤ chart.capacity ∧
      chart.sites[Span.index chart.capacity start stop]? = some (some site) := by
  rw [site_eq] at h
  split at h
  · rename_i hspan
    split at h
    · cases h
      exact ⟨hspan.1, hspan.2, by assumption⟩
    · cases h
    · cases h
  · cases h

/-- A place in the row is that of one span, so what is put there leaves the sites of all
others. -/
theorem site_setIfInBounds_of_ne (chart : Chart S C) {start stop start' stop' : Nat}
    (h₁ : start < stop) (h₂ : stop ≤ chart.capacity) (hne : (start', stop') ≠ (start, stop))
    (slot : Option (Site S)) :
    ({ chart with sites := chart.sites.setIfInBounds (Span.index chart.capacity start stop) slot } :
      Chart S C).site start' stop' = chart.site start' stop' := by
  rw [site_eq, site_eq]
  by_cases hspan : start' < stop' ∧ stop' ≤ chart.capacity
  case neg => exact (if_neg hspan).trans (if_neg hspan).symm
  have hindex : Span.index chart.capacity start stop ≠ Span.index chart.capacity start' stop' := by
    intro heq
    obtain ⟨rfl, rfl⟩ := Span.index_inj h₁ h₂ hspan.1 hspan.2 heq
    exact hne rfl
  simp only [Array.getElem?_setIfInBounds_ne hindex]

/-- **Writing the site of a span leaves all others as they are.** -/
theorem withSite_ok {chart : Chart S C} {start stop : Nat} {old : Site S}
    (h : chart.site start stop = .ok old) (site : Site S) :
    ∃ sites, chart.withSite start stop site = .ok { chart with sites } ∧
      ({ chart with sites } : Chart S C).site start stop = .ok site ∧
      ∀ start' stop', (start', stop') ≠ (start, stop) →
        ({ chart with sites } : Chart S C).site start' stop' = chart.site start' stop' := by
  obtain ⟨h₁, h₂, hold⟩ := index_of_site_ok h
  obtain ⟨hlt, _⟩ := Array.getElem?_eq_some_iff.mp hold
  refine ⟨chart.sites.setIfInBounds (Span.index chart.capacity start stop) (some site), ?_, ?_, ?_⟩
  · unfold withSite index
    rw [if_pos ⟨h₁, h₂⟩]
    rfl
  · rw [site_eq]
    simp only [Array.getElem?_setIfInBounds_self_of_lt hlt]
    exact if_pos ⟨h₁, h₂⟩
  · exact fun start' stop' hne => chart.site_setIfInBounds_of_ne h₁ h₂ hne (some site)

/-- **A site that is taken out leaves a hole**, and all others as they are. -/
theorem take_ok {chart : Chart S C} {start stop : Nat} {site : Site S}
    (h : chart.site start stop = .ok site) :
    ∃ sites, chart.take start stop = .ok (site, { chart with sites }) ∧
      (∀ filled, ({ chart with sites } : Chart S C).withSite start stop filled =
        chart.withSite start stop filled) ∧
      ∀ start' stop', (start', stop') ≠ (start, stop) →
        ({ chart with sites } : Chart S C).site start' stop' = chart.site start' stop' := by
  obtain ⟨h₁, h₂, hold⟩ := index_of_site_ok h
  refine ⟨chart.sites.setIfInBounds (Span.index chart.capacity start stop) none, ?_,
    fun filled => ?_, fun start' stop' hne => chart.site_setIfInBounds_of_ne h₁ h₂ hne none⟩
  · unfold take index
    rw [h, if_pos ⟨h₁, h₂⟩]
    rfl
  · unfold withSite index
    simp only [if_pos (And.intro h₁ h₂), bind, Except.bind, pure, Except.pure,
      Array.setIfInBounds_setIfInBounds]

/-- The cell of a span of the sentence is that of its site. -/
theorem cell_eq {chart : Chart S C} {start stop : Nat} {site : Site S}
    (h : chart.site start stop = .ok site) (hstop : stop ≤ chart.length) :
    chart.cell start stop = .ok site.cell := by
  unfold cell
  rw [if_pos ⟨(index_of_site_ok h).1, hstop⟩, h]
  rfl

/-- A span that has a cell is one of the sentence. -/
theorem span_of_cell {chart : Chart S C} {start stop : Nat} {cell : Cell S}
    (h : chart.cell start stop = .ok cell) : start < stop ∧ stop ≤ chart.length := by
  unfold Chart.cell at h
  split at h
  · assumption
  · cases h

/-- A span that is none of the sentence has no cell. -/
theorem cell_eq_error {chart : Chart S C} {start stop : Nat}
    (h : ¬ (start < stop ∧ stop ≤ chart.length)) :
    chart.cell start stop = .error (.spanOutsideSentence start stop chart.length) := if_neg h

/-! ## Shape -/

/-- The chart has the sites it has room for, each in its place and, once reset, as
new. It was made for its grammar. -/
structure Shaped (chart : Chart S C) : Prop where
  loopOrder_eq : chart.grammar.loopOrder = chart.config.loopOrder
  supports : chart.config.cellType.supports chart.config.aggregation = true
  site : ∀ start stop, start < stop → stop ≤ chart.capacity →
    ∃ site, chart.site start stop = .ok site ∧ site.reset = chart.newSite start stop

/-- What making a chart comes to. -/
theorem create_eq_ok {grammar : Grammar S} {config : ChartConfig} {hasJitter : Bool}
    {chart : Chart S C} (h : create grammar config hasJitter = .ok chart) :
    grammar.loopOrder = config.loopOrder ∧ config.cellType.supports config.aggregation = true ∧
      chart = vacant grammar config := by
  unfold create at h
  split at h
  · cases h
  · rename_i hsupports
    split at h
    · cases h
    · rename_i horder
      split at h
      · cases h
      · cases h
        exact ⟨not_not.mp horder, by simpa using hsupports, rfl⟩

theorem shaped_create {grammar : Grammar S} {config : ChartConfig} {hasJitter : Bool}
    {chart : Chart S C} (h : create grammar config hasJitter = .ok chart) :
    chart.Shaped ∧ chart.grammar = grammar ∧ chart.config = config := by
  obtain ⟨horder, hsupports, rfl⟩ := create_eq_ok h
  refine ⟨⟨horder, hsupports, ?_⟩, rfl, rfl⟩
  intro start stop h₁ h₂
  simp only [vacant] at h₂
  omega

theorem Shaped.constrain {chart : Chart S C} (h : chart.Shaped) (constraint : C) :
    (chart.constrain constraint).Shaped := by
  refine ⟨h.loopOrder_eq, h.supports, ?_⟩
  intro start stop h₁ h₂
  simp only [Chart.constrain] at h₂
  -- nothing filled under another constraint is kept, so there are no sites to speak of
  omega

/-- Writing a site that resets to a new one keeps the shape. -/
theorem Shaped.withSite {chart : Chart S C} (h : chart.Shaped) {start stop : Nat} {site : Site S}
    {sites : Array (Option (Site S))}
    (hself : ({ chart with sites } : Chart S C).site start stop = .ok site)
    (hother : ∀ start' stop', (start', stop') ≠ (start, stop) →
      ({ chart with sites } : Chart S C).site start' stop' = chart.site start' stop')
    (hreset : site.reset = chart.newSite start stop) :
    ({ chart with sites } : Chart S C).Shaped := by
  refine ⟨h.loopOrder_eq, h.supports, ?_⟩
  intro start' stop' h₁ h₂
  by_cases heq : (start', stop') = (start, stop)
  · cases heq
    exact ⟨site, hself, hreset⟩
  · obtain ⟨old, hold, hnew⟩ := h.site start' stop' h₁ h₂
    exact ⟨old, by rw [hother _ _ heq]; exact hold, hnew⟩

/-! ## Resetting -/

/-- A chart that is open for a sentence: all its spans have sites, and these are
new. -/
structure Blank (chart : Chart S C) (length : Nat) : Prop where
  room : length ≤ chart.capacity
  site : ∀ start stop, start < stop → stop ≤ length →
    chart.site start stop = .ok (chart.newSite start stop)

/-- A new site is as new. -/
theorem reset_newSite (chart : Chart S C) (start stop : Nat) :
    (chart.newSite start stop).reset = chart.newSite start stop := by
  simp only [newSite, Site.reset, Cell.reset, Cell.empty, CellStore.clear_empty]

theorem allocate_site (chart : Chart S C) (length : Nat) {start stop : Nat} (h₁ : start < stop)
    (h₂ : stop ≤ length) :
    (chart.allocate length).site start stop = .ok (chart.newSite start stop) := by
  rw [site_eq]
  refine (if_pos ⟨h₁, h₂⟩).trans ?_
  simp only [allocate, List.getElem?_toArray, List.getElem?_map, Span.getElem?_all h₁ h₂,
    Option.map_some]

theorem shaped_allocate {chart : Chart S C} (h : chart.Shaped) (length : Nat) :
    (chart.allocate length).Shaped :=
  ⟨h.loopOrder_eq, h.supports, fun start stop h₁ h₂ =>
    ⟨_, chart.allocate_site length h₁ h₂, chart.reset_newSite start stop⟩⟩

/-- Some sites of a chart have been reset. -/
def Reopened (chart : Chart S C) (done : List (Nat × Nat)) (chart' : Chart S C) : Prop :=
  ∃ sites, chart' = { chart with sites } ∧ chart'.Shaped ∧
    ∀ span ∈ done, chart'.site span.1 span.2 = .ok (chart.newSite span.1 span.2)

theorem reopen_ok {chart : Chart S C} (h : chart.Shaped) {length : Nat}
    (hroom : length ≤ chart.capacity) :
    ∃ sites, chart.reopen length = .ok { chart with sites } ∧
      ({ chart with sites } : Chart S C).Shaped ∧
      ({ chart with sites } : Chart S C).Blank length := by
  -- resetting a site asks for the shape alone, and keeps it
  have hstep : ∀ (done : List (Nat × Nat)) span rest (chart₁ : Chart S C),
      Span.all length = done ++ span :: rest → chart.Reopened done chart₁ →
        ∃ chart₂, (do chart₁.withSite span.1 span.2 (← chart₁.site span.1 span.2).reset) =
          .ok chart₂ ∧ chart.Reopened (done ++ [span]) chart₂ := by
    intro done span rest chart₁ hsplit hreopened
    rcases span with ⟨start, stop⟩
    rcases hreopened with ⟨sites, rfl, hshaped, hnew⟩
    have hmem : (start, stop) ∈ Span.all length := by rw [hsplit]; simp
    obtain ⟨h₁, h₂⟩ := Span.mem_all.mp hmem
    obtain ⟨old, hold, hreset⟩ := hshaped.site start stop h₁ (Nat.le_trans h₂ hroom)
    obtain ⟨sites', hwith, hself, hother⟩ := withSite_ok hold old.reset
    refine ⟨{ chart with sites := sites' }, ?_, sites', rfl, ?_, ?_⟩
    · simp only [hold]
      exact hwith
    · exact hshaped.withSite hself hother (by rw [hreset]; exact reset_newSite _ _ _)
    · intro span hspan
      rcases span with ⟨start', stop'⟩
      by_cases heq : (start', stop') = (start, stop)
      · cases heq
        rw [hself, hreset]
        rfl
      · rcases List.mem_append.mp hspan with hspan | hspan
        · rw [hother _ _ heq]
          exact hnew _ hspan
        · rw [List.mem_singleton] at hspan
          exact absurd hspan heq
  obtain ⟨chart', hfold, sites, rfl, hshaped, hnew⟩ :=
    foldlM_eq_ok chart.Reopened ⟨chart.sites, rfl, h, by simp⟩ hstep
  refine ⟨sites, hfold, hshaped, hroom, ?_⟩
  intro start stop h₁ h₂
  exact hnew (start, stop) (Span.mem_all.mpr ⟨h₁, h₂⟩)

/-- The constraint of a chart, if there is one, once it has been told a sentence. It may be
at fault for the sentence. -/
def announced [CellConstraint C S] (chart : Chart S C) (sentence : List Symbol) :
    Except Fault (Option C) :=
  match chart.constraint with
  | none => .ok none
  | some c => do return some (← CellConstraint.announce S c sentence)

/-- A constraint stays one when it is told a sentence. -/
theorem isSome_of_announced [CellConstraint C S] {chart : Chart S C} {sentence : List Symbol}
    {constraint : Option C} (h : chart.announced sentence = .ok constraint) :
    constraint.isSome = chart.constraint.isSome := by
  unfold announced at h
  cases hc : chart.constraint with
  | none =>
    rw [hc] at h
    cases h
    rfl
  | some c =>
    rw [hc] at h
    obtain ⟨told, _, heq⟩ := bind_eq_ok h
    cases heq
    rfl

/-- Without a constraint there is nothing to tell. -/
theorem announce_of_none [CellConstraint C S] {chart : Chart S C} (h : chart.constraint = none)
    (sentence : List Symbol) : (chart.announce sentence : Effect J S (Chart S C)) = pure chart := by
  unfold announce
  rw [h]

/-- A constraint is told the sentence and is then what it has become. -/
theorem announce_of_some [CellConstraint C S] {chart : Chart S C} {c : C}
    (h : chart.constraint = some c) (sentence : List Symbol) :
    (chart.announce sentence : Effect J S (Chart S C)) = do
      Effect.emit (.announced sentence)
      let constraint ← (chart.announced sentence : Except Fault (Option C))
      return { chart with constraint } := by
  unfold announce announced
  simp only [h]
  refine congrArg (Effect.emit (.announced sentence) >>= ·) (funext fun _ => ?_)
  cases CellConstraint.announce S c sentence <;> rfl

/-- What resetting a chart to a sentence leads to: the sentence is in place and
announced, and all its spans are open. -/
structure Opened (chart : Chart S C) [CellConstraint C S] (sentence : List Symbol)
    (chart' : Chart S C) : Prop where
  grammar_eq : chart'.grammar = chart.grammar
  config_eq : chart'.config = chart.config
  constraint_eq : chart.announced sentence = .ok chart'.constraint
  sentence_eq : chart'.sentence = sentence
  shaped : chart'.Shaped
  blank : chart'.Blank sentence.length

/-- Making room changes the sites alone. -/
theorem makeRoom_ends {chart : Chart S C} (h : chart.Shaped) (length : Nat) (run : Run J S) :
    (chart.makeRoom length).Ends (fun _ _ => False) run fun chart' _ =>
      ∃ sites capacity, chart' = { chart with sites, capacity } ∧ chart'.Shaped ∧
        chart'.Blank length := by
  unfold makeRoom
  split
  · refine Effect.ends_bind_emit fun run' =>
      Effect.ends_pure ⟨_, _, rfl, shaped_allocate h length, Nat.le_refl _, ?_⟩
    intro start stop h₁ h₂
    exact chart.allocate_site length h₁ h₂
  · rename_i hroom
    obtain ⟨sites, hreopen, hshaped, hblank⟩ := reopen_ok h (Nat.le_of_not_lt hroom)
    exact Effect.ends_lift_ok hreopen ⟨sites, chart.capacity, rfl, hshaped, hblank⟩

/-- Making room calls neither scorer nor constraint, and draws nothing. -/
theorem makeRoom_quiet (chart : Chart S C) (length : Nat) (run : Run J S) :
    (chart.makeRoom length).Ends (fun _ _ => True) run fun _ run' => run.Quiet run' := by
  unfold makeRoom
  split
  · refine Effect.ends_bind (Q := fun _ run' => run.Quiet run')
      (Effect.ends_emit (run.quiet_logged _)) fun _ run' hrun => ?_
    exact Effect.ends_pure hrun
  · exact Effect.ends_lift (fun _ _ => ⟨rfl, rfl⟩) fun _ _ => trivial

/-- The call that tells the constraint a sentence, where there is one. -/
def announcement (chart : Chart S C) (sentence : List Symbol) : List (Event S) :=
  match chart.constraint with
  | none => []
  | some _ => [.announced sentence]

/-- The constraint is at fault for a sentence, which it has been told. -/
def Unannounced [CellConstraint C S] (chart : Chart S C) (sentence : List Symbol) (run : Run J S)
    (fault : Fault) (run' : Run J S) : Prop :=
  chart.announced sentence = .error fault ∧ run'.calls = run.calls ++ chart.announcement sentence

theorem announce_ends [CellConstraint C S] (chart : Chart S C) (sentence : List Symbol)
    (run : Run J S) :
    (chart.announce sentence).Ends (chart.Unannounced sentence run) run fun chart' run' =>
      ∃ constraint, chart.announced sentence = .ok constraint ∧ chart' = { chart with constraint } ∧
        run'.calls = run.calls ++ chart.announcement sentence := by
  cases hc : chart.constraint with
  | none =>
    rw [announce_of_none hc]
    refine Effect.ends_pure ⟨none, by rw [announced, hc], by rw [← hc], ?_⟩
    rw [announcement, hc, List.append_nil]
  | some c =>
    have hcalls : (run.push (.announced sentence)).calls =
        run.calls ++ chart.announcement sentence := by
      rw [announcement, hc]
      exact run.calls_push _
    rw [announce_of_some hc]
    refine Effect.ends_bind_push ?_
    refine Effect.ends_bind (Q := fun constraint run' =>
      chart.announced sentence = .ok constraint ∧ run' = run.push (.announced sentence))
      (Effect.ends_lift (fun _ h => ⟨h, rfl⟩) fun _ h => ⟨h, hcalls⟩) ?_
    rintro constraint _ ⟨h, rfl⟩
    exact Effect.ends_pure ⟨constraint, h, rfl, hcalls⟩

/-- A constraint in place of another is numbered alike. -/
theorem newFilter_congr (chart : Chart S C) {constraint : Option C}
    (h : constraint.isSome = chart.constraint.isSome) :
    ({ chart with constraint } : Chart S C).newFilter = chart.newFilter := by
  unfold newFilter
  cases hc : chart.constraint with
  | none =>
    rw [hc] at h
    obtain rfl : constraint = none := by simpa using h
    rfl
  | some c =>
    rw [hc] at h
    obtain ⟨c', rfl⟩ := Option.isSome_iff_exists.mp h
    rfl

/-- **Resetting opens the chart for a sentence** and announces it, unless a token is none
of the grammar's or the constraint is at fault. -/
theorem reset_ends [CellConstraint C S] {chart : Chart S C} (h : chart.Shaped)
    (sentence : List Symbol) (run : Run J S) :
    (chart.reset sentence).Ends (chart.Unannounced sentence run) run fun result run' =>
      match result with
      | .error _ => ∃ token ∈ sentence, chart.grammar.terminalCount ≤ token.index
      | .ok chart' => chart.Opened sentence chart' ∧
          run'.calls = run.calls ++ chart.announcement sentence := by
  unfold reset
  cases hfirst : chart.firstUnknown? sentence with
  | some found =>
    obtain ⟨token, position⟩ := found
    refine Effect.ends_pure ⟨token, ?_, ?_⟩
    · exact (List.mem_zipIdx' (List.mem_of_find?_eq_some hfirst)).2 ▸ List.getElem_mem _
    · simpa using List.find?_some hfirst
  | none =>
    refine Effect.ends_bind (((makeRoom_ends h sentence.length run).and
      (makeRoom_quiet _ _ run)).allow fun _ _ hf => hf.elim) ?_
    intro chart₁ run₁ hx
    rcases hx with ⟨⟨sites, capacity, rfl, hshaped, hblank⟩, hquiet⟩
    have hends := announce_ends ({ chart with sites, capacity } : Chart S C) sentence run₁
    refine Effect.ends_bind (hends.allow fun fault run' hf => ⟨hf.1, ?_⟩) ?_
    · rw [hf.2, hquiet.2]
      rfl
    intro chart₂ run₂ hx
    rcases hx with ⟨constraint, hannounced, rfl, hcalls⟩
    have hkind := isSome_of_announced hannounced
    rw [hquiet.2] at hcalls
    -- the cells at hand are filtered by the constraint that has been told
    have hnew : ∀ start stop, ({ chart with sites, capacity, constraint, sentence } :
        Chart S C).newSite start stop = chart.newSite start stop := by
      intro start stop
      unfold newSite
      rw [← chart.newFilter_congr hkind]
      rfl
    refine Effect.ends_pure ⟨⟨rfl, rfl, hannounced, rfl, ?_, ?_⟩, hcalls⟩
    · refine ⟨hshaped.loopOrder_eq, hshaped.supports, fun start stop h₁ h₂ => ?_⟩
      obtain ⟨site, hsite, hreset⟩ := hshaped.site start stop h₁ h₂
      exact ⟨site, hsite, hreset.trans (hnew start stop).symm⟩
    · refine ⟨hblank.room, fun start stop h₁ h₂ => ?_⟩
      rw [hnew]
      exact hblank.site start stop h₁ h₂

end ChartParsing.Chart
