import ChartParsing.Chart.BestTree
import ChartParsing.Proofs.Chart.Soundness
import ChartParsing.Proofs.Lockstep
import ChartParsing.Proofs.Score.Laws

/-!
# The state of a chart between calls

The sites of a chart, the room they make and the sentence are changed by different
calls. Between calls there are exactly as many sites as the room asks for, and each
is in its place. After resetting and parsing there is room for the sentence, its
spans have cells, and back pointers lead down to narrower spans, so every question
about the sentence has an answer.

Setting a constraint is the one call after which room and sentence do not fit: it
takes the sites and leaves the sentence. A chart that has just been constrained, with
a sentence from before, has no cell to answer from, and every question about its
sentence is at fault.
-/

namespace ChartParsing

variable {S C J : Type} [Score S]

/-! ## Where back pointers come from -/

/-- A merged entry has the back pointer of the offer, or the one before it, or
none that could be followed. -/
theorem Offer.backPointer_merge (o : Offer S) (aggregation : Aggregation) (e? : Option (Entry S)) :
    (o.merge aggregation e?).backPointer = .untracked ∨
      (o.merge aggregation e?).backPointer = .derivation o.rule.id o.mid ∨
      ∃ e, e? = some e ∧ (o.merge aggregation e?).backPointer = e.backPointer := by
  cases aggregation with
  | viterbi =>
    rcases o.merge_viterbi e? with hmerge | ⟨e, he, hmerge⟩
    · rw [hmerge]
      exact Or.inr (Or.inl rfl)
    · rw [hmerge]
      exact Or.inr (Or.inr ⟨e, he, rfl⟩)
  | inside =>
    cases e? with
    | none => exact Or.inl rfl
    | some e => exact Or.inr (Or.inr ⟨e, rfl, rfl⟩)

/-- **A back pointer that can be followed was offered.** -/
theorem Cell.After.exists_backPointer [JitterSource J] {type : CellType}
    {aggregation : Aggregation} {size : Nat} {offers : List (Offer S)} {c : Cell S}
    (h : c.After J type aggregation size offers) {sym : Symbol} {e : Entry S}
    (he : c.find? sym = some e) :
    e.backPointer = .untracked ∨ ∃ o ∈ offers, e.backPointer = .derivation o.rule.id o.mid := by
  induction h generalizing e with
  | empty => simp [find?, Cell.empty] at he
  | @offer offers c c' o source source' hafter hoff ih =>
    have hold : ∀ e, c.find? sym = some e → e.backPointer = .untracked ∨
        ∃ o' ∈ offers ++ [o], e.backPointer = .derivation o'.rule.id o'.mid := by
      intro e hc
      refine (ih hc).imp_right ?_
      rintro ⟨o', ho', hpointer⟩
      exact ⟨o', List.mem_append_left _ ho', hpointer⟩
    have hnew : e.backPointer = .derivation o.rule.id o.mid → e.backPointer = .untracked ∨
        ∃ o' ∈ offers ++ [o], e.backPointer = .derivation o'.rule.id o'.mid :=
      fun hpointer => Or.inr ⟨o, by simp, hpointer⟩
    by_cases hp : o.rule.parent = sym
    case neg => exact hold e (by rw [← (hafter.find?_offer hoff).2 sym hp]; exact he)
    subst hp
    obtain ⟨_, _, _, hstore⟩ := offer_ok hoff
    obtain ⟨_, _, hexact, _, hties⟩ := CellStore.offer_ok hstore hafter.shape.2.2.1
    by_cases hb : c.store.BreaksTies
    · -- with ties the entry is the offer's or the one before
      rcases hties hb with hself | ⟨e', hc, hself⟩
      · rw [find?, hself] at he
        cases he
        exact hnew rfl
      · rw [find?, hself] at he
        cases he
        exact hold _ hc
    · rw [find?, hexact hb, if_pos rfl] at he
      cases he
      rcases o.backPointer_merge c.aggregation (c.store.find? o.rule.parent) with
        hpointer | hpointer | ⟨e', hc, hpointer⟩
      · exact Or.inl hpointer
      · exact hnew hpointer
      · rw [hpointer]
        exact hold e' hc

namespace Chart

/-! ## Questions about the sentence -/

/-- Every span of the sentence has a cell, and its back pointers lead to rules of
the grammar, those of binary rules to narrower spans. -/
structure Answering (chart : Chart S C) : Prop where
  cell : ∀ start stop, start < stop → stop ≤ chart.length → ∃ cell, chart.cell start stop = .ok cell
  pointer : ∀ start stop cell sym id mid, chart.cell start stop = .ok cell →
    cell.backPointer? sym = some (.derivation id mid) →
    ∃ rule, chart.grammar.rule id = .ok rule ∧
      ∀ y z, rule.rhs = .binary y z → start < mid ∧ mid < stop

/-- Every question about the sentence returns. -/
structure Answers (chart : Chart S C) : Prop where
  rootScore : ∃ root?, chart.rootScore? = .ok root?
  viterbiParse : ∃ best?, chart.viterbiParse? = .ok best?
  cell : ∀ start stop, start < stop → stop ≤ chart.length → ∃ cell, chart.cell start stop = .ok cell
  score : ∀ sym start stop, start < stop → stop ≤ chart.length →
    ∃ score, chart.score sym start stop = .ok score
  backPointer : ∀ sym start stop, start < stop → stop ≤ chart.length →
    ∃ pointer?, chart.backPointer? sym start stop = .ok pointer?

variable {chart chart' : Chart S C}

omit [Score S] in
theorem backPointer?_of_cell {start stop : Nat} {cell : Cell S}
    (h : chart.cell start stop = .ok cell) (sym : Symbol) :
    chart.backPointer? sym start stop = .ok (cell.backPointer? sym) := by
  rw [Chart.backPointer?, h]
  rfl

theorem score_of_cell {start stop : Nat} {cell : Cell S} (h : chart.cell start stop = .ok cell)
    (sym : Symbol) : chart.score sym start stop = .ok (cell.score sym) := by
  rw [Chart.score, h]
  rfl

omit [Score S] in
/-- **The walk along back pointers returns**, from any symbol over any span of the
sentence. -/
theorem Answering.subtree?_returns (h : chart.Answering) (sym : Symbol) (start stop depth : Nat) :
    start < stop → stop ≤ chart.length →
      ∃ tree?, chart.subtree? sym start stop depth = .ok tree? := by
  induction sym, start, stop, depth using subtree?.induct chart with
  | case1 sym start stop depth hdeep =>
    intro _ _
    exact ⟨none, by rw [subtree?, dif_pos hdeep]⟩
  | case2 sym start stop depth hdepth hunary hleft hright =>
    intro h₁ h₂
    obtain ⟨cell, hcell⟩ := h.cell start stop h₁ h₂
    rw [subtree?, dif_neg hdepth, backPointer?_of_cell hcell]
    cases hpointer : cell.backPointer? sym with
    | none => exact ⟨none, rfl⟩
    | some pointer =>
    cases pointer with
    | untracked => exact ⟨none, rfl⟩
    | derivation id mid =>
      obtain ⟨rule, hrule, hmid⟩ := h.pointer start stop cell sym id mid hcell hpointer
      simp only [bind, Except.bind, hrule]
      cases hrhs : rule.rhs with
      | lexical t => exact ⟨_, rfl⟩
      | unary y =>
        obtain ⟨tree?, htree⟩ := hunary y h₁ h₂
        simp only [htree]
        cases tree? <;> exact ⟨_, rfl⟩
      | binary y z =>
        obtain ⟨hm₁, hm₂⟩ := hmid y z hrhs
        obtain ⟨left?, hleft?⟩ := hleft mid y ⟨hm₁, hm₂⟩ hm₁ (by omega)
        obtain ⟨right?, hright?⟩ := hright mid z ⟨hm₁, hm₂⟩ hm₂ h₂
        simp only [hleft?, hright?]
        rw [dif_pos ⟨hm₁, hm₂⟩]
        cases left? with
        | none => exact ⟨_, rfl⟩
        | some _ => cases right? <;> exact ⟨_, rfl⟩

/-- **With its cells in place a chart answers every question.** -/
theorem Answering.answers (h : chart.Answering) : chart.Answers := by
  have hcell := h.cell
  refine ⟨?_, ?_, hcell, ?_, ?_⟩
  · rcases Nat.eq_zero_or_pos chart.length with hzero | hpos
    · exact ⟨none, if_pos hzero⟩
    · obtain ⟨cell, hroot⟩ := hcell 0 chart.length hpos (Nat.le_refl _)
      exact ⟨_, rootScore?_of_cell hroot⟩
  · unfold viterbiParse?
    split
    · exact ⟨none, rfl⟩
    · have hpos : 0 < chart.length := by omega
      obtain ⟨tree?, htree⟩ :=
        h.subtree?_returns chart.grammar.root 0 chart.length 0 hpos (Nat.le_refl _)
      obtain ⟨cell, hroot⟩ := hcell 0 chart.length hpos (Nat.le_refl _)
      rw [htree, score_of_cell hroot]
      cases tree? <;> exact ⟨_, rfl⟩
  · intro sym start stop h₁ h₂
    obtain ⟨cell, hspan⟩ := hcell start stop h₁ h₂
    exact ⟨_, score_of_cell hspan sym⟩
  · intro sym start stop h₁ h₂
    obtain ⟨cell, hspan⟩ := hcell start stop h₁ h₂
    exact ⟨_, backPointer?_of_cell hspan sym⟩

omit [Score S] in
/-- Blank cells have no back pointers. -/
theorem Blank.answering (h : chart.Blank chart.length) : chart.Answering := by
  have hcell : ∀ start stop, start < stop → stop ≤ chart.length →
      chart.cell start stop = .ok (chart.newSite start stop).cell :=
    fun start stop h₁ h₂ => cell_eq (h.site start stop h₁ h₂) h₂
  refine ⟨fun start stop h₁ h₂ => ⟨_, hcell start stop h₁ h₂⟩, ?_⟩
  intro start stop cell sym id mid hspan hpointer
  obtain ⟨h₁, h₂⟩ := span_of_cell hspan
  cases hspan.symm.trans (hcell start stop h₁ h₂)
  simp [newSite, Cell.backPointer?, Cell.find?, Cell.empty] at hpointer

variable [CellConstraint C S] [JitterSource J] {sentence : List Symbol} {scorer : Scorer S}

/-- The back pointers of a complete cell are those of applications. -/
theorem Complete.pointer {V : Values S} {start stop : Nat} {site : Site S}
    (h : chart.Complete J scorer V start stop site) (hg : chart.grammar.Indexed) {sym : Symbol}
    {id : RuleId} {mid : Nat} (hpointer : site.cell.backPointer? sym = some (.derivation id mid)) :
    ∃ rule, chart.grammar.rule id = .ok rule ∧
      ∀ y z, rule.rhs = .binary y z → start < mid ∧ mid < stop := by
  obtain ⟨cell, made, rfl, hafter, hperm⟩ := h
  obtain ⟨e, he, hpointer⟩ := Option.map_eq_some_iff.mp hpointer
  rcases hafter.exists_backPointer he with huntracked | ⟨o, ho, hoffered⟩
  · cases huntracked.symm.trans hpointer
  · cases hoffered.symm.trans hpointer
    obtain ⟨a, ha, -, rfl⟩ := mem_entering.mp ho
    have happlies := mem_applications.mp (hperm.mem_iff.mp ha)
    refine ⟨a.rule, hg.rule_eq happlies.rule_mem, ?_⟩
    intro y z hrhs
    cases happlies with
    | lexical _ hlexical _ _ => cases hlexical.symm.trans hrhs
    | unary _ hunary _ => cases hunary.symm.trans hrhs
    | binary _ _ h₁ h₂ _ _ => exact ⟨h₁, h₂⟩

/-- A parsed chart answers. -/
theorem Parsed.answering (h : chart.Parsed J sentence scorer chart') (hg : chart.grammar.Indexed) :
    chart'.Answering := by
  refine ⟨?_, ?_⟩
  · intro start stop h₁ h₂
    obtain ⟨site, hcell, -⟩ := h.exists_cell h₁ h₂
    exact ⟨site.cell, hcell⟩
  · intro start stop cell sym id mid hspan hpointer
    obtain ⟨h₁, h₂⟩ := span_of_cell hspan
    obtain ⟨site, hcell, hcomplete⟩ := h.exists_cell h₁ h₂
    cases hspan.symm.trans hcell
    exact hcomplete.pointer (by rw [h.grammar_eq]; exact hg) hpointer

/-! ## Sites and room -/

section

omit [Score S] [CellConstraint C S] [JitterSource J]

/-- There are as many sites as the chart has room for. -/
def Stocked (chart : Chart S C) : Prop := chart.sites.size = Span.count chart.capacity

theorem Stocked.withSite (h : chart.Stocked) {start stop : Nat} {site : Site S}
    (hwith : chart.withSite start stop site = .ok chart') : chart'.Stocked := by
  obtain ⟨i, -, heq⟩ := bind_eq_ok hwith
  cases heq
  exact Array.size_setIfInBounds.trans h

theorem Stocked.take (h : chart.Stocked) {start stop : Nat} {taken : Site S × Chart S C}
    (htake : chart.take start stop = .ok taken) : taken.2.Stocked := by
  obtain ⟨site, -, hrest⟩ := bind_eq_ok htake
  obtain ⟨i, -, heq⟩ := bind_eq_ok hrest
  cases heq
  exact Array.size_setIfInBounds.trans h

theorem stocked_allocate (chart : Chart S C) (length : Nat) : (chart.allocate length).Stocked := by
  simp [Stocked, allocate, Span.length_all]

theorem Stocked.reopen (h : chart.Stocked) {length : Nat}
    (hreopen : chart.reopen length = .ok chart') : chart'.Stocked := by
  refine of_foldlM_eq_ok (fun _ (chart : Chart S C) => chart.Stocked) hreopen h ?_
  intro _ span _ chart₁ chart₂ _ hstocked hstep
  obtain ⟨site, -, hwith⟩ := bind_eq_ok hstep
  exact hstocked.withSite hwith

theorem Stocked.reset_ends [CellConstraint C S] (h : chart.Stocked) (sentence : List Symbol)
    (run : Run J S) :
    (chart.reset sentence).Ends (fun _ _ => True) run fun result _ =>
      ∀ chart', result = .ok chart' → chart'.Stocked := by
  unfold reset
  split
  · exact Effect.ends_pure fun _ h => by cases h
  refine Effect.ends_bind (Q := fun (chart' : Chart S C) _ => chart'.Stocked) ?_ ?_
  · unfold makeRoom
    split
    · exact Effect.ends_bind_emit fun _ => Effect.ends_pure (stocked_allocate chart _)
    · exact Effect.ends_lift (fun _ hreopen => h.reopen hreopen) fun _ _ => trivial
  · intro chart₁ run₁ hstocked
    refine Effect.ends_bind ((announce_ends chart₁ sentence run₁).allow fun _ _ _ => trivial) ?_
    intro _ run₂ hx
    rcases hx with ⟨constraint, -, rfl, -⟩
    refine Effect.ends_pure fun chart' heq => ?_
    cases heq
    exact hstocked

end

theorem Stocked.parse_ends [ScoreText S] (h : chart.Stocked) (sentence : List Symbol)
    (scorer : Scorer S) (run : Run J S) :
    (chart.parse sentence scorer).Ends (fun _ _ => True) run fun result _ =>
      ∀ chart', result = .ok chart' → chart'.Stocked := by
  unfold parse
  refine Effect.ends_bind (h.reset_ends sentence run) fun result run₁ hreset => ?_
  cases result with
  | error e => exact Effect.ends_pure fun _ h => by cases h
  | ok chart₁ =>
    -- filling a span takes out its site and puts it back, and changes nothing else
    have hfill : (chart₁.fillAll scorer).Ends (fun _ _ => True) run₁ fun chart' _ =>
        chart'.Stocked := by
      refine Effect.ends_foldlM (fun _ (chart : Chart S C) (_ : Run J S) => chart.Stocked)
        (hreset chart₁ rfl) ?_
      intro _ span _ chart₂ run₂ _ hstocked
      refine Effect.ends_bind (Q := fun taken _ => taken.2.Stocked)
        (Effect.ends_lift (fun _ htake => hstocked.take htake) fun _ _ => trivial) ?_
      intro taken _ htaken
      refine Effect.ends_bind (Effect.ends_trivial _ _) fun _ _ _ => ?_
      refine Effect.ends_bind (Effect.ends_trivial _ _) fun _ _ _ => ?_
      refine Effect.ends_bind_emit fun _ => ?_
      exact Effect.ends_lift (fun _ hwith => htaken.withSite hwith) fun _ _ => trivial
    refine Effect.ends_bind hfill fun chart₂ run₂ hstocked => ?_
    refine Effect.ends_bind (Effect.ends_trivial _ _) fun _ _ _ => ?_
    refine Effect.ends_bind_emit fun _ => Effect.ends_pure fun chart' heq => ?_
    cases heq
    exact hstocked

/-! ## Charts in use -/

/-- The chart was constrained last, and it holds a sentence from before. -/
def Stale [ScoreText S] (J : Type) [JitterSource J] (g : Grammar S) (config : ChartConfig)
    (chart : Chart S C) : Prop :=
  ∃ (before : Chart S C) (constraint : C), before.Reachable J g config ∧ 0 < before.length ∧
    chart = before.constrain constraint

section

variable [ScoreText S] {g : Grammar S} {config : ChartConfig}

theorem Reachable.stocked (h : chart.Reachable J g config) : chart.Stocked := by
  induction h with
  | create hcreate =>
    obtain ⟨-, -, rfl⟩ := create_eq_ok hcreate
    simp [Stocked, vacant, Span.count]
  | constrain constraint _ _ => simp [Stocked, Chart.constrain, Span.count]
  | reset _ hreset ih => exact (ih.reset_ends _ _).of_outcome hreset _ rfl
  | parse _ hparse ih => exact (ih.parse_ends _ _ _).of_outcome hparse _ rfl

/-- **A chart in use has room for its sentence, and answers, or is stale.** -/
theorem Reachable.answering_or_stale (h : chart.Reachable J g config) (hg : g.Indexed) :
    (chart.length ≤ chart.capacity ∧ chart.Answering) ∨ chart.Stale J g config := by
  -- with no sentence there is nothing to answer
  have hempty : ∀ {chart : Chart S C}, chart.length = 0 → chart.Answering := by
    intro chart hzero
    refine ⟨fun start stop h₁ h₂ => by omega, fun start stop cell _ _ _ hspan => ?_⟩
    have := span_of_cell hspan
    omega
  cases h with
  | create hcreate =>
    obtain ⟨-, -, rfl⟩ := create_eq_ok hcreate
    exact Or.inl ⟨Nat.le_refl _, hempty rfl⟩
  | constrain constraint hbefore =>
    rename_i before
    rcases Nat.eq_zero_or_pos before.length with hzero | hpos
    · exact Or.inl ⟨Nat.le_of_eq hzero, hempty hzero⟩
    · exact Or.inr ⟨before, constraint, hbefore, hpos, rfl⟩
  | reset hbefore hreset =>
    obtain ⟨hopened, -⟩ := (reset_ends (hbefore.shaped hg).1 _ _).of_outcome hreset
    have hblank : chart.Blank chart.length := by
      rw [length, hopened.sentence_eq]
      exact hopened.blank
    exact Or.inl ⟨hblank.room, hblank.answering⟩
  | parse hbefore hparse =>
    obtain ⟨hshaped, rfl, rfl⟩ := hbefore.shaped hg
    have hparsed := (parse_ends hshaped hg _ _ _).of_outcome hparse
    have hanswering := hparsed.answering hg
    refine Or.inl ⟨?_, hanswering⟩
    -- the span of the whole sentence has a site
    rcases Nat.eq_zero_or_pos chart.length with hzero | hpos
    · omega
    · obtain ⟨site, hsite, -⟩ :=
        hparsed.complete 0 chart.length hpos (Nat.le_of_eq hparsed.length_eq)
      exact (index_of_site_ok hsite).2.1

end

omit [Score S] [CellConstraint C S] [JitterSource J] in
/-- Without room no cell of the sentence is found. -/
theorem cell_of_no_room (hroom : chart.capacity = 0) {start stop : Nat} (h₁ : start < stop)
    (h₂ : stop ≤ chart.length) : chart.cell start stop = .error .spanOutsideChart := by
  have hsite : chart.site start stop = .error .spanOutsideChart := by
    rw [site_eq, if_neg]
    omega
  unfold Chart.cell
  rw [if_pos ⟨h₁, h₂⟩, hsite]
  rfl

/-- A question that needs a cell is at fault where there is none. -/
structure Unanswered (chart : Chart S C) : Prop where
  rootScore : chart.rootScore? = .error .spanOutsideChart
  viterbiParse : chart.viterbiParse? = .error .spanOutsideChart
  cell : ∀ start stop, start < stop → stop ≤ chart.length →
    chart.cell start stop = .error .spanOutsideChart
  score : ∀ sym start stop, start < stop → stop ≤ chart.length →
    chart.score sym start stop = .error .spanOutsideChart
  backPointer : ∀ sym start stop, start < stop → stop ≤ chart.length →
    chart.backPointer? sym start stop = .error .spanOutsideChart

omit [CellConstraint C S] [JitterSource J] in
theorem unanswered_of_no_room (hroom : chart.capacity = 0) (hlength : 0 < chart.length) :
    chart.Unanswered := by
  have hcell : ∀ start stop, start < stop → stop ≤ chart.length →
      chart.cell start stop = .error .spanOutsideChart :=
    fun _ _ h₁ h₂ => cell_of_no_room hroom h₁ h₂
  have hpointer : ∀ sym start stop, start < stop → stop ≤ chart.length →
      chart.backPointer? sym start stop = .error .spanOutsideChart := by
    intro sym start stop h₁ h₂
    rw [Chart.backPointer?, hcell start stop h₁ h₂]
    rfl
  have hroot := hcell 0 chart.length hlength (Nat.le_refl _)
  refine ⟨?_, ?_, hcell, ?_, hpointer⟩
  · rw [rootScore?, if_neg (by omega), hroot]
    rfl
  · rw [viterbiParse?, if_neg (by omega), subtree?, dif_neg (Nat.not_lt_zero _),
      hpointer _ _ _ hlength (Nat.le_refl _)]
    rfl
  · intro sym start stop h₁ h₂
    rw [Chart.score, hcell start stop h₁ h₂]
    rfl

/-- **The state of a chart between calls.** However a chart was used, it has as many
sites as it has room for, each in its place, with a cell that is filtered by the
constraint in force. There is room for its sentence, and every question about the
sentence is answered, unless the chart was constrained last and holds a sentence from
before: then there is no room at all, and every question about the sentence is at
fault. -/
theorem reachable_state [ScoreText S] {g : Grammar S} {config : ChartConfig} (hg : g.Accepted)
    (h : chart.Reachable J g config) :
    chart.sites.size = Span.count chart.capacity ∧
      (∀ start stop, start < stop → stop ≤ chart.capacity →
        ∃ site, chart.site start stop = .ok site ∧ site.start = start ∧ site.stop = stop ∧
          chart.filterOf site = chart.constraint) ∧
      (chart.capacity < chart.length ↔ chart.Stale J g config) ∧
      (chart.length ≤ chart.capacity → chart.Answers) ∧
      (chart.capacity < chart.length → chart.capacity = 0 ∧ chart.Unanswered) := by
  obtain ⟨hshaped, -, -⟩ := h.shaped hg.indexed
  have hstale : chart.Stale J g config → chart.capacity = 0 ∧ 0 < chart.length := by
    rintro ⟨before, constraint, -, hpos, rfl⟩
    exact ⟨rfl, hpos⟩
  have hcases := h.answering_or_stale hg.indexed
  refine ⟨h.stocked, ?_, ⟨?_, ?_⟩, ?_, ?_⟩
  · intro start stop h₁ h₂
    obtain ⟨site, hsite, hreset⟩ := hshaped.site start stop h₁ h₂
    exact ⟨site, hsite, congrArg Site.start hreset, congrArg Site.stop hreset,
      filterOf_eq (congrArg Site.filter hreset)⟩
  · intro hlt
    rcases hcases with ⟨hle, -⟩ | hstale
    · omega
    · exact hstale
  · intro hs
    obtain ⟨hzero, hpos⟩ := hstale hs
    omega
  · intro hle
    rcases hcases with ⟨-, hanswering⟩ | hs
    · exact hanswering.answers
    · obtain ⟨hzero, hpos⟩ := hstale hs
      omega
  · intro hlt
    rcases hcases with ⟨hle, -⟩ | hs
    · omega
    · obtain ⟨hzero, hpos⟩ := hstale hs
      exact ⟨hzero, unanswered_of_no_room hzero hpos⟩

/-- The small grammar over `a a`, constrained after the parse: there is a sentence, and
no cell is left to answer from. -/
theorem reachable_state_small :
    ∃ (g : Grammar ℚ≥0) (filled : Chart ℚ≥0 (CellPredicate ℚ≥0)),
      g.Accepted ∧ filled.Reachable Jitter g ⟨.viterbi, .full, .leftChild⟩ ∧
      filled.length = 2 ∧ filled.Answers ∧
      (filled.constrain ⟨fun _ _ _ _ _ => true⟩).length = 2 ∧
      (filled.constrain ⟨fun _ _ _ _ _ => true⟩).capacity = 0 ∧
      (filled.constrain ⟨fun _ _ _ _ _ => true⟩).Unanswered := by
  obtain ⟨g, _, hg, hcount, horder, _⟩ := Grammar.Small.accepted ℚ≥0 rfl rfl .leftChild
  have hnew : (.vacant g ⟨.viterbi, .full, .leftChild⟩ :
      Chart ℚ≥0 (CellPredicate ℚ≥0)).Reachable Jitter g ⟨.viterbi, .full, .leftChild⟩ :=
    reachable_new rfl horder
  have htokens : ∀ token ∈ Grammar.Small.tokens, token.index < g.terminalCount := by
    rw [hcount]
    decide
  obtain ⟨filled, run, hparse, hparsed⟩ := hnew.parse_returns hg htokens
    (follows_of_none rfl _ _) (fun _ => rfl) .static (.start (.ofSeed 0))
  have hreach := hnew.parse hparse
  have hlength : filled.length = 2 := congrArg List.length hparsed.sentence_eq
  obtain ⟨-, -, hstale, hanswers, -⟩ := reachable_state hg hreach
  -- the chart was parsed last, so it has room for its sentence
  have hroom : filled.length ≤ filled.capacity := by
    obtain ⟨site, hsite, -⟩ := hparsed.complete 0 2 (by decide) (by decide)
    rw [hlength]
    exact (index_of_site_ok hsite).2.1
  have hconstrained := hreach.constrain (⟨fun _ _ _ _ _ => true⟩ : CellPredicate ℚ≥0)
  obtain ⟨-, -, -, -, hunanswered⟩ := reachable_state hg hconstrained
  have hlost : (filled.constrain ⟨fun _ _ _ _ _ => true⟩).capacity <
      (filled.constrain ⟨fun _ _ _ _ _ => true⟩).length := by
    show 0 < filled.length
    omega
  exact ⟨g, filled, hg, hreach, hlength, hanswers hroom, hlength, rfl, (hunanswered hlost).2⟩

end Chart

end ChartParsing
