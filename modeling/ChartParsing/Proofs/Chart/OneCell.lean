import ChartParsing.Proofs.Chart.Supported

/-!
# Filling one cell

When a span's turn comes, all narrower spans within it are closed. Then a cell
takes in each application over the span exactly once: those of lexical or binary
rules first, as the cells below are final, and those of unary rules in the course
of the sweep. The sweep comes to a child only when no rule with the child's symbol
as its parent is still to come, so the score read is the final one. That is the
invariant, `Swept`: the applications made are those that apply to what the cell
holds *now*, of the unary rules whose child has been visited.

Scorers and constraints are asked about these applications, in the order in which they
are made. If filling the cell ends early, it ends at the application whose turn it is:
the cell refuses it, or the constraint has no answer.
-/

namespace ChartParsing.Chart

variable {S C J : Type} [Score S] [CellConstraint C S] [JitterSource J]

/-- The turn of a span: it is within the sentence, what is narrower is closed, and
it has no scores itself. -/
structure Due (chart : Chart S C) (start stop : Nat) : Prop where
  indexed : chart.grammar.Indexed
  loopOrder_eq : chart.grammar.loopOrder = chart.config.loopOrder
  start_lt : start < stop
  stop_le : stop ≤ chart.length
  closed : ∀ s e, start ≤ s → s < e → e ≤ stop → e - s < stop - start →
    ∃ site, chart.site s e = .ok site ∧ site.cell.Shut
  none : ∀ sym, chart.values sym start stop = none

/-- The site of a span after applications, none of them made twice. After those in the
`past` the calls are those made for the applications. -/
structure Holding (chart : Chart S C) (scorer : Scorer S) (start stop : Nat)
    (past : List (Event S)) (made : List (Application S)) (site : Site S) (run : Run J S) :
    Prop where
  start_eq : site.start = start
  stop_eq : site.stop = stop
  filter_eq : site.filter = chart.newFilter
  after : site.Made J chart.config.cellType chart.config.aggregation
    chart.grammar.nonterminalCount scorer chart.constraint made
  nodup : made.Nodup
  calls_eq : run.calls =
    past ++ made.flatMap (Application.calls scorer chart.constraint start stop)

/-- The turn of an application: like those made so far, it applies to what the cell of the
span holds by now, and it is none of them. -/
structure Turn (chart : Chart S C) (scorer : Scorer S) (start stop : Nat) (past : List (Event S))
    (made : List (Application S)) (site : Site S) (run : Run J S) (a : Application S) : Prop where
  holding : chart.Holding scorer start stop past made site run
  applies : ∀ b ∈ made ++ [a], Applies chart.grammar chart.sentence
    (chart.values.set start stop site.cell) start stop b
  notMem : a ∉ made

/-- Filling the cell of a span ends at a fault: the application whose turn it is ends at
it. -/
def Stops (chart : Chart S C) (scorer : Scorer S) (start stop : Nat) (past : List (Event S))
    (fault : Fault) (run' : Run J S) : Prop :=
  ∃ made site a, ∃ run : Run J S, chart.Turn scorer start stop past made site run a ∧
    site.Stops chart.config.cellType chart.config.aggregation scorer chart.constraint a run fault
      run'

/-- Filling the cell of a span ends as the cell refuses the application whose turn it
is. -/
def Refuses (chart : Chart S C) (scorer : Scorer S) (start stop : Nat) (past : List (Event S))
    (run' : Run J S) : Prop :=
  ∃ made site a, ∃ run : Run J S, chart.Turn scorer start stop past made site run a ∧
    site.Refuses chart.config.cellType chart.config.aggregation scorer chart.constraint a ∧
    run'.calls = run.calls ++ a.calls scorer chart.constraint start stop

variable {chart : Chart S C} {scorer : Scorer S} {start stop : Nat} {past : List (Event S)}
  {site : Site S} {run : Run J S} {made more : List (Application S)}

/-- If the constraint answers, it is a refusal that ends the filling of a cell. -/
theorem Stops.refuses {fault : Fault} {run' : Run J S} {length : Nat} {p : CellPredicate S}
    (h : chart.Stops scorer start stop past fault run')
    (hp : AnswersAs chart.constraint length p) (h₁ : start < stop) (h₂ : stop ≤ length) :
    fault = .undefinedScore ∧ chart.Refuses scorer start stop past run' := by
  obtain ⟨made, site, a, run, hturn, hstops⟩ := h
  have hstart := hturn.holding.start_eq
  have hstop := hturn.holding.stop_eq
  cases hstops with
  | refused hrefuses hcalls =>
    rw [hstart, hstop] at hcalls
    exact ⟨rfl, made, site, a, run, hturn, hrefuses, hcalls⟩
  | unanswered hc haccepts _ =>
    rw [hstart, hstop] at haccepts
    have hanswer := hp start stop h₁ h₂ a.mid a.rule (a.score scorer start stop)
    rw [hc] at hanswer
    cases haccepts.symm.trans hanswer

/-- A cell refuses an application for an undefined score. -/
theorem Refuses.exists_undefined {run' : Run J S}
    (h : chart.Refuses scorer start stop past run') : ∃ x : S, Score.isUndefined x = true := by
  obtain ⟨_, _, _, _, _, hrefuses, _⟩ := h
  rcases hrefuses.spoils with hundef | ⟨_, _, _, hundef⟩
  · exact ⟨_, hundef⟩
  · exact ⟨_, hundef⟩

/-- New applications, made at a site in order. They apply to what the site holds, and none
makes a symbol whose score has been read. -/
theorem Holding.applyAll (h : chart.Holding scorer start stop past made site run)
    (hdue : chart.Due start stop) (hmore : more.Nodup) (hnew : ∀ a ∈ more, a ∉ made)
    (happlies : ∀ a ∈ made ++ more, Applies chart.grammar chart.sentence
      (chart.values.set start stop site.cell) start stop a)
    (hread : ∀ a ∈ made ++ more, ∀ y, a.rule.rhs = .unary y → ∀ b ∈ more, b.rule.parent ≠ y) :
    (site.applyAll scorer chart.constraint more).Ends (chart.Stops scorer start stop past) run
      fun site' run' =>
        chart.Holding scorer start stop past (made ++ more) site' run' ∧
          ∀ sym, (∀ a ∈ more, a.rule.parent ≠ sym) →
            site'.cell.value? sym = site.cell.value? sym := by
  have hlt : ∀ a ∈ more, a.rule.parent.index < chart.grammar.nonterminalCount := fun a ha =>
    hdue.indexed.parent_lt _ (happlies a (List.mem_append_right _ ha)).rule_mem
  have hnodup : (made ++ more).Nodup :=
    List.nodup_append.mpr ⟨h.nodup, hmore, fun a ha b hb heq => hnew b hb (heq ▸ ha)⟩
  have hholding : ∀ {done : List (Application S)} {site' : Site S} {run' : Run J S},
      (made ++ done).Nodup →
      site.Grown J chart.config.cellType chart.config.aggregation
        chart.grammar.nonterminalCount scorer chart.constraint made done site' →
      run'.calls = run.calls ++
        done.flatMap (Application.calls scorer chart.constraint start stop) →
      chart.Holding scorer start stop past (made ++ done) site' run' ∧
        ∀ sym, (∀ a ∈ done, a.rule.parent ≠ sym) →
          site'.cell.value? sym = site.cell.value? sym := by
    intro done site' run' hnodup hgrown hcalls
    refine ⟨⟨hgrown.start_eq.trans h.start_eq, hgrown.stop_eq.trans h.stop_eq,
      hgrown.filter_eq.trans h.filter_eq, hgrown.made, hnodup, ?_⟩, fun sym hsym => ?_⟩
    · rw [hcalls, h.calls_eq, List.append_assoc, List.flatMap_append]
    · rw [Cell.value?, Cell.value?, hgrown.find?_eq sym hsym]
  have hends := Site.applyAll_ends h.after hlt run
  rw [h.start_eq, h.stop_eq] at hends
  refine (hends.allow ?_).imp fun site' run' hinv => hholding hnodup hinv.1 hinv.2
  -- the applications made before the fault have left all scores that were read
  rintro fault run' ⟨done, a, rest, site₁, run₁, rfl, hgrown, hcalls, hstops⟩
  have hbefore : ∀ b ∈ made ++ done ++ [a], b ∈ made ++ (done ++ a :: rest) := by
    intro b hb
    simp only [List.mem_append, List.mem_cons] at hb ⊢
    tauto
  rw [← List.append_assoc, List.nodup_append] at hnodup
  obtain ⟨hholding₁, hvalue⟩ := hholding hnodup.1 hgrown hcalls
  refine ⟨made ++ done, site₁, a, run₁, ⟨hholding₁, fun b hb => ?_, fun ha => ?_⟩, hstops⟩
  · refine (happlies b (hbefore b hb)).of_set fun y hy => hvalue y fun b' hb' => ?_
    exact hread b (hbefore b hb) y hy b' (List.mem_append_left _ hb')
  · exact hnodup.2.2 a ha a List.mem_cons_self rfl

/-- The applications made over a span are those that apply to what its cell holds,
of all rules but the unary ones whose child is still to be visited. -/
def Swept (chart : Chart S C) (scorer : Scorer S) (start stop : Nat) (past : List (Event S))
    (done : List Symbol) (site : Site S) (run : Run J S) : Prop :=
  ∃ made, chart.Holding scorer start stop past made site run ∧
    ∀ a, a ∈ made ↔ Applies chart.grammar chart.sentence
      (chart.values.set start stop site.cell) start stop a ∧
        ∀ y, a.rule.rhs = .unary y → y ∈ done

/-! ## Lexical rules -/

theorem applyLexical_ends (h : chart.Holding scorer start stop past [] site run)
    (hdue : chart.Due start stop) (hstop : stop = start + 1) :
    (chart.applyLexical scorer site).Ends (chart.Stops scorer start stop past) run
      fun site' run' => chart.Swept scorer start stop past [] site' run' := by
  have htoken : ∃ token, chart.sentence[start]? = some token :=
    ⟨_, List.getElem?_eq_getElem (by have := hdue.stop_le; unfold Chart.length at this; omega)⟩
  obtain ⟨token, htoken⟩ := htoken
  unfold applyLexical
  rw [h.start_eq]
  refine Effect.ends_bind_ok (lexicalApplications_eq hdue.indexed htoken) ?_
  have hmem : ∀ (V : Values S) a, a ∈ ((chart.grammar.rules.toList.filter fun r =>
      r.rhs = .lexical token).map fun r => (⟨r, start, none⟩ : Application S)) ↔
        Applies chart.grammar chart.sentence V start stop a ∧
          ∀ y, a.rule.rhs = .unary y → y ∈ ([] : List Symbol) := by
    intro V a
    simp only [List.mem_map, List.mem_filter, Array.mem_toList_iff, decide_eq_true_eq]
    refine ⟨?_, ?_⟩
    · intro hx
      rcases hx with ⟨r, ⟨hr, hrhs⟩, rfl⟩
      refine ⟨.lexical hr hrhs hstop htoken, ?_⟩
      intro y hy
      rw [hrhs] at hy
      cases hy
    · intro hx
      rcases hx with ⟨ha, hunary⟩
      cases ha with
      | lexical hr hrhs _ ht =>
        rw [htoken] at ht
        cases ht
        exact ⟨_, ⟨hr, hrhs⟩, rfl⟩
      | unary _ hrhs _ => exact absurd (hunary _ hrhs) (by simp)
      | binary _ _ h₁ h₂ _ _ => omega
  refine (h.applyAll hdue ?_ (by simp) ?_ ?_).imp ?_
  · exact nodup_map_of_key (·.rule) (hdue.indexed.nodup_rules.filter _) fun _ => rfl
  · intro a ha
    exact ((hmem _ a).mp ha).1
  · -- lexical rules read no score
    intro a ha y hy
    exact absurd (((hmem chart.values a).mp ha).2 y hy) List.not_mem_nil
  · intro site' _ hx
    rcases hx with ⟨hholding, _⟩
    exact ⟨_, hholding, hmem _⟩

/-! ## Binary rules -/

/-- The applications made over a span are those that combine the two sides of a
split, for the splits visited. -/
def Combined (chart : Chart S C) (scorer : Scorer S) (start stop : Nat) (past : List (Event S))
    (done : List Nat) (site : Site S) (run : Run J S) : Prop :=
  ∃ made, chart.Holding scorer start stop past made site run ∧
    ∀ a, a ∈ made ↔ ∃ mid ∈ done, Combines chart.grammar mid (chart.values · start mid)
      (chart.values · mid stop) a

omit [CellConstraint C S] in
/-- What combines two sides of a split applies over the span. -/
theorem Combines.applies {mid : Nat} {a : Application S} {c : Cell S}
    (h : Combines chart.grammar mid (chart.values · start mid) (chart.values · mid stop) a)
    (h₁ : start < mid) (h₂ : mid < stop) :
    Applies chart.grammar chart.sentence (chart.values.set start stop c) start stop a := by
  obtain ⟨r, hr, y, z, v, w, hrhs, hv, hw, rfl⟩ := h
  exact .binary hr hrhs h₁ h₂ (by rw [Values.set_of_ne _ _ _ (by omega)]; exact hv)
    (by rw [Values.set_of_ne _ _ _ (by omega)]; exact hw)

omit [CellConstraint C S] [JitterSource J] in
/-- What combines two sides is not of a unary rule. -/
theorem Combines.rhs_ne_unary {g : Grammar S} {mid : Nat} {left right : Symbol → Option S}
    {a : Application S} (h : Combines g mid left right a) (y : Symbol) : a.rule.rhs ≠ .unary y := by
  obtain ⟨r, _, _, _, _, _, hrhs, _, _, rfl⟩ := h
  intro hy
  cases hrhs.symm.trans hy

theorem applySplit_ends {done : List Nat} {mid : Nat}
    (h : chart.Combined scorer start stop past done site run) (hdue : chart.Due start stop)
    (hdone : ∀ m ∈ done, start < m ∧ m < stop) (h₁ : start < mid) (h₂ : mid < stop)
    (hmid : mid ∉ done) :
    (chart.applySplit scorer site mid).Ends (chart.Stops scorer start stop past) run
      fun site' run' => chart.Combined scorer start stop past (done ++ [mid]) site' run' := by
  obtain ⟨made, hholding, hmade⟩ := h
  have hstop := hdue.stop_le
  obtain ⟨left, hleft, hlshut⟩ := hdue.closed start mid (Nat.le_refl _) h₁ (by omega) (by omega)
  obtain ⟨right, hright, hrshut⟩ := hdue.closed mid stop (by omega) h₂ (Nat.le_refl _) (by omega)
  obtain ⟨found, hfound, hlists⟩ := binaryApplications_ok mid hdue.indexed hlshut hrshut
  have hlvals : left.cell.value? = (chart.values · start mid) :=
    funext fun sym => (values_eq hleft (by omega) sym).symm
  have hrvals : right.cell.value? = (chart.values · mid stop) :=
    funext fun sym => (values_eq hright (by omega) sym).symm
  rw [hlvals, hrvals] at hlists
  -- an application tells where it splits, so one split does not repeat another
  have hkey : ∀ {m : Nat} {left right : Symbol → Option S} {a : Application S},
      Combines chart.grammar m left right a → a.mid = m := by
    intro m left right a hcomb
    rcases hcomb with ⟨r, _, y, z, v, w, _, _, _, rfl⟩
    rfl
  unfold applySplit
  rw [hholding.start_eq, hholding.stop_eq]
  refine Effect.ends_bind_ok hleft ?_
  refine Effect.ends_bind_ok hright ?_
  rw [← hdue.loopOrder_eq]
  refine Effect.ends_bind_ok hfound ?_
  refine (hholding.applyAll hdue hlists.nodup ?_ ?_ ?_).imp ?_
  · intro a ha hold
    obtain ⟨m, hm, hcomb⟩ := (hmade a).mp hold
    rw [← hkey hcomb, hkey ((hlists.mem_iff a).mp ha)] at hm
    exact hmid hm
  · intro a ha
    rcases List.mem_append.mp ha with ha | ha
    · obtain ⟨m, hm, hcomb⟩ := (hmade a).mp ha
      exact hcomb.applies (hdone m hm).1 (hdone m hm).2
    · exact ((hlists.mem_iff a).mp ha).applies h₁ h₂
  · intro a ha y hy
    rcases List.mem_append.mp ha with ha | ha
    · obtain ⟨m, _, hcomb⟩ := (hmade a).mp ha
      exact absurd hy (hcomb.rhs_ne_unary y)
    · exact absurd hy (((hlists.mem_iff a).mp ha).rhs_ne_unary y)
  · intro site' _ hx
    rcases hx with ⟨hholding', _⟩
    refine ⟨_, hholding', fun a => ?_⟩
    rw [List.mem_append, hmade, hlists.mem_iff]
    simp only [List.mem_append, List.mem_singleton, or_and_right, exists_or, exists_eq_left]

theorem applySplits_ends (h : chart.Holding scorer start stop past [] site run)
    (hdue : chart.Due start stop) (hstop : stop ≠ start + 1) :
    ((Span.splits start stop).foldlM (chart.applySplit scorer) site).Ends
      (chart.Stops scorer start stop past) run
      fun site' run' => chart.Swept scorer start stop past [] site' run' := by
  refine (Effect.ends_foldlM
    (fun done site' run' => chart.Combined scorer start stop past done site' run')
    ⟨[], h, by simp⟩ ?_).imp ?_
  rotate_left
  · intro site' _ hparts
    rcases hparts with ⟨made, hholding, hmade⟩
    refine ⟨made, hholding, fun a => ?_⟩
    rw [hmade]
    refine ⟨?_, ?_⟩
    · intro hparts
      rcases hparts with ⟨mid, hmid, hcomb⟩
      obtain ⟨h₁, h₂⟩ := Span.mem_splits.mp hmid
      exact ⟨hcomb.applies h₁ h₂, fun y hy => absurd hy (hcomb.rhs_ne_unary y)⟩
    · intro hparts
      rcases hparts with ⟨ha, hunary⟩
      cases ha with
      | lexical _ _ hone _ => exact absurd hone hstop
      | unary _ hrhs _ => exact absurd (hunary _ hrhs) (by simp)
      | binary hr hrhs h₁ h₂ hv hw =>
        rw [Values.set_of_ne _ _ _ (by omega)] at hv hw
        exact ⟨_, Span.mem_splits.mpr ⟨h₁, h₂⟩, _, hr, _, _, _, _, hrhs, hv, hw, rfl⟩
  · intro done mid rest site₁ run₁ hsplit hcomb
    have hnodup := Span.nodup_splits start stop
    rw [hsplit] at hnodup
    have hmem : ∀ m ∈ done ++ mid :: rest, start < m ∧ m < stop := fun m hm =>
      Span.mem_splits.mp (by rw [hsplit]; exact hm)
    obtain ⟨h₁, h₂⟩ := hmem mid (by simp)
    refine applySplit_ends hcomb hdue (fun m hm => hmem m (by simp [hm])) h₁ h₂ ?_
    intro hm
    exact (List.nodup_append.mp hnodup).2.2 mid hm mid List.mem_cons_self rfl

/-! ## Unary rules -/

omit [CellConstraint C S] in
/-- The row of a child is what its rules give over the span. -/
theorem mem_unaryRow_iff_applies (hstop : site.stop = stop) {child : Symbol} {a : Application S} :
    a ∈ unaryRow chart.grammar site child ↔
      Applies chart.grammar chart.sentence (chart.values.set start stop site.cell) start stop a ∧
        a.rule.rhs = .unary child := by
  rw [mem_unaryRow, hstop]
  refine ⟨?_, ?_⟩
  · intro hx
    rcases hx with ⟨r, hr, v, hrhs, hv, rfl⟩
    exact ⟨.unary hr hrhs (by rw [Values.set_self]; exact hv), hrhs⟩
  · intro hx
    rcases hx with ⟨ha, hrhs⟩
    cases ha with
    | lexical _ h _ _ => cases h.symm.trans hrhs
    | binary _ h _ _ _ _ => cases h.symm.trans hrhs
    | unary hr h hv =>
      rw [Values.set_self] at hv
      cases h.symm.trans hrhs
      exact ⟨_, hr, _, hrhs, hv, rfl⟩

/-- A rule that reads visited children alone reads those visited before, or the child just
visited. -/
theorem unary_mem_append_iff {rhs : Rhs} {done : List Symbol} {child : Symbol} :
    (∀ y, rhs = .unary y → y ∈ done ++ [child]) ↔
      (∀ y, rhs = .unary y → y ∈ done) ∨ rhs = .unary child := by
  refine ⟨?_, ?_⟩
  · intro h
    by_cases hrhs : rhs = .unary child
    · exact Or.inr hrhs
    refine Or.inl fun y hy => ?_
    rcases List.mem_append.mp (h y hy) with hmem | hmem
    · exact hmem
    · rw [List.mem_singleton.mp hmem] at hy
      exact absurd hy hrhs
  · intro h y hy
    rcases h with h | h
    · exact List.mem_append_left _ (h y hy)
    · cases h.symm.trans hy
      exact List.mem_append_right _ (List.mem_singleton_self _)

/-- One step of the sweep: the rules with one child. None of the children visited
so far, nor this one, is the parent of a rule applied here. -/
theorem applyUnary_ends {done rest : List Symbol} {child : Symbol}
    (h : chart.Swept scorer start stop past done site run) (hdue : chart.Due start stop)
    (hsplit : chart.grammar.unaryOrder.toList = done ++ child :: rest) :
    (chart.applyUnary scorer site child).Ends (chart.Stops scorer start stop past) run
      fun site' run' => chart.Swept scorer start stop past (done ++ [child]) site' run' := by
  obtain ⟨made, hholding, hmade⟩ := h
  have hnodup := hdue.indexed.nodup_unaryOrder
  have hpair := hdue.indexed.pairwise_unaryOrder
  rw [hsplit, List.nodup_append] at hnodup
  rw [hsplit, List.pairwise_append] at hpair
  have hchild : child ∉ done := fun hmem => hnodup.2.2 child hmem child List.mem_cons_self rfl
  have hrow : ∀ a, a ∈ unaryRow chart.grammar site child ↔
      Applies chart.grammar chart.sentence (chart.values.set start stop site.cell) start stop a ∧
        a.rule.rhs = .unary child := fun a =>
    mem_unaryRow_iff_applies hholding.stop_eq
  have hnow : ∀ a, a ∈ made ++ unaryRow chart.grammar site child ↔
      Applies chart.grammar chart.sentence (chart.values.set start stop site.cell) start stop a ∧
        ∀ y, a.rule.rhs = .unary y → y ∈ done ++ [child] := by
    intro a
    rw [List.mem_append, hmade, hrow, ← and_or_left, unary_mem_append_iff]
  -- children come first, so no symbol visited so far is made by what is applied now
  have hparent : ∀ a ∈ unaryRow chart.grammar site child, ∀ y ∈ done ++ [child],
      a.rule.parent ≠ y := by
    intro a ha y hy
    obtain ⟨happlies, hrhs⟩ := (hrow a).mp ha
    rcases List.mem_append.mp hy with hy | hy
    · exact hpair.2.2 y hy child List.mem_cons_self a.rule happlies.rule_mem hrhs
    · rw [List.mem_singleton.mp hy]
      exact hdue.indexed.parent_ne_child happlies.rule_mem hrhs
  unfold applyUnary
  refine Effect.ends_bind_ok (unaryApplications_eq hdue.indexed site child) ?_
  refine (hholding.applyAll hdue (nodup_unaryRow hdue.indexed site child) ?_ ?_ ?_).imp ?_
  · intro a ha hold
    exact hchild (((hmade a).mp hold).2 child ((hrow a).mp ha).2)
  · exact fun a ha => ((hnow a).mp ha).1
  · exact fun a ha y hy b hb => hparent b hb y (((hnow a).mp ha).2 y hy)
  · intro site' _ hx
    rcases hx with ⟨hholding', hvalue⟩
    -- the scores read so far are therefore still those of the cell
    have hsame : ∀ y ∈ done ++ [child], site'.cell.value? y = site.cell.value? y := fun y hy =>
      hvalue y fun a ha => hparent a ha y hy
    refine ⟨_, hholding', fun a => ?_⟩
    rw [hnow]
    refine and_congr_left fun hread => ⟨?_, ?_⟩
    · exact fun ha => ha.of_set fun y hy => hsame y (hread y hy)
    · exact fun ha => ha.of_set fun y hy => (hsame y (hread y hy)).symm

/-- After the sweep no unary rule is still to be applied. -/
theorem sweepUnary_ends (h : chart.Swept scorer start stop past [] site run)
    (hdue : chart.Due start stop) :
    (chart.sweepUnary scorer site).Ends (chart.Stops scorer start stop past) run
      fun site' run' =>
        chart.Swept scorer start stop past chart.grammar.unaryOrder.toList site' run' :=
  Effect.ends_foldlM (fun done site' run' => chart.Swept scorer start stop past done site' run') h
    fun _ _ _ _ _ hsplit hswept => applyUnary_ends hswept hdue hsplit

/-! ## The whole cell -/

/-- A closed site that has taken in each application over its span once. -/
def Complete (J : Type) [JitterSource J] (chart : Chart S C) (scorer : Scorer S) (V : Values S)
    (start stop : Nat) (site : Site S) : Prop :=
  ∃ (cell : Cell S) (made : List (Application S)),
    site = ⟨start, stop, cell.close, chart.newFilter⟩ ∧
    cell.After J chart.config.cellType chart.config.aggregation chart.grammar.nonterminalCount
      (entering scorer chart.constraint start stop made) ∧
    made.Perm (applications chart.grammar chart.sentence V start stop)

/-- After those in the `past`, the calls are those made for each application over the
span, in some order. -/
def Asked (chart : Chart S C) (scorer : Scorer S) (V : Values S) (start stop : Nat)
    (past : List (Event S)) (run : Run J S) : Prop :=
  ∃ made : List (Application S),
    made.Perm (applications chart.grammar chart.sentence V start stop) ∧
      run.calls = past ++ made.flatMap (Application.calls scorer chart.constraint start stop)

/-- **A cell takes in each application over its span once**, in some order, and asks
about each of them once. -/
theorem fillSite_ends (hdue : chart.Due start stop) (run : Run J S) :
    (chart.fillSite scorer (chart.newSite start stop)).Ends
      (chart.Stops scorer start stop run.calls) run
      fun site' run' =>
        chart.Complete J scorer (chart.values.set start stop site'.cell) start stop site' ∧
          chart.Asked scorer (chart.values.set start stop site'.cell) start stop
            run.calls run' := by
  have hnew : chart.Holding scorer start stop run.calls [] (chart.newSite start stop) run :=
    ⟨rfl, rfl, rfl, Cell.After.empty, List.nodup_nil, (List.append_nil _).symm⟩
  have hrest : ∀ site₁ (run₁ : Run J S),
      chart.Swept scorer start stop run.calls [] site₁ run₁ →
      (do return (← chart.sweepUnary scorer site₁).close).Ends
        (chart.Stops scorer start stop run.calls) run₁
        fun site' run' =>
          chart.Complete J scorer (chart.values.set start stop site'.cell) start stop site' ∧
            chart.Asked scorer (chart.values.set start stop site'.cell) start stop run.calls
              run' := by
    intro site₁ run₁ hswept
    refine Effect.ends_bind (sweepUnary_ends hswept hdue) ?_
    intro swept run₂ hswept
    rcases swept with ⟨s, e, cell, filter⟩
    rcases hswept with ⟨made, ⟨rfl, rfl, rfl, hafter, hnodup, hcalls⟩, hmade⟩
    -- the order has all children of unary rules, so nothing that applies is left out
    have hperm : made.Perm (applications chart.grammar chart.sentence
        (chart.values.set s e cell) s e) := by
      refine (List.perm_ext_iff_of_nodup hnodup
        (nodup_applications hdue.indexed.nodup_rules _ _ _ _)).mpr fun a => ?_
      rw [hmade, mem_applications]
      refine ⟨fun h => h.1, fun h => ⟨h, fun y hy => ?_⟩⟩
      exact Array.mem_toList_iff.mpr (hdue.indexed.child_mem_unaryOrder h.rule_mem hy)
    exact Effect.ends_pure ⟨⟨cell, made, rfl, hafter, hperm⟩, made, hperm, hcalls⟩
  unfold fillSite
  split
  · rename_i hstop
    exact Effect.ends_bind (applyLexical_ends hnew hdue hstop) hrest
  · rename_i hstop
    exact Effect.ends_bind (applySplits_ends hnew hdue hstop) hrest

end ChartParsing.Chart
