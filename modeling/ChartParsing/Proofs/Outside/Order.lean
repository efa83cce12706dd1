import ChartParsing.Posterior.OutsidePass
import ChartParsing.Proofs.Chart.Finding
import ChartParsing.Proofs.Chart.Supported
import ChartParsing.Proofs.Outside.Duality
import ChartParsing.Proofs.Outside.Table

/-!
# The order of the outside pass

`Chart.passSteps` lists the steps that an outside pass goes through, in its order.
Two things make the pass right. The list has every step that applies, once. And no
step makes something that it or a later step is made from: wide spans come before
narrow ones, and on one span unary rules come parents before children, so the
outside score of what a step makes is complete by the time the step passes it on.
-/

namespace ChartParsing.Chart

variable {S C : Type}

theorem values_of_cell {chart : Chart S C} {start stop : Nat} {cell : Cell S}
    (h : chart.cell start stop = .ok cell) (sym : Symbol) :
    chart.values sym start stop = cell.value? sym := by
  rw [values, h]

/-- A chart that can be read: all cells of its sentence are there and closed, and hold
symbols of the grammar. -/
structure Readable [Score S] (chart : Chart S C) : Prop where
  indexed : chart.grammar.Indexed
  cell_ok : ∀ start stop, start < stop → stop ≤ chart.length →
    ∃ cell, chart.cell start stop = .ok cell ∧ cell.Shut
  symbol_lt : ∀ sym start stop v, chart.values sym start stop = some v →
    sym.index < chart.grammar.nonterminalCount

/-! ## The steps in order -/

/-- The steps of the unary rules with one child, if the child is present. -/
def unarySteps (chart : Chart S C) (start stop : Nat) (child : Symbol) : List (Step S) :=
  if (chart.values child start stop).isSome then
    (chart.grammar.rules.toList.filter fun r => r.rhs = .unary child).map fun r =>
      ⟨r, start, stop, stop⟩
  else []

/-- The steps for one split of a span, in the order in which they are found. -/
def splitSteps [Score S] (chart : Chart S C) (start stop mid : Nat) : List (Step S) :=
  let found : Except Fault (List (Application S)) := do
    let left ← chart.cell start mid
    let right ← chart.cell mid stop
    binaryApplications chart.grammar mid left right chart.grammar.loopOrder
  match found with
  | .ok found => found.map fun a => ⟨a.rule, start, mid, stop⟩
  | .error _ => []

/-- The steps over a span that are not lexical, parents before children. -/
def spanSteps [Score S] (chart : Chart S C) (span : Nat × Nat) : List (Step S) :=
  chart.grammar.unaryOrder.toList.reverse.flatMap (chart.unarySteps span.1 span.2) ++
    (Span.splits span.1 span.2).flatMap (chart.splitSteps span.1 span.2)

/-- The steps of the lexical rules for one token. -/
def tokenSteps (chart : Chart S C) (position : Nat) : List (Step S) :=
  match chart.sentence[position]? with
  | none => []
  | some token =>
    (chart.grammar.rules.toList.filter fun r => r.rhs = .lexical token).map fun r =>
      ⟨r, position, position, position + 1⟩

/-- The steps of the whole pass. -/
def passSteps [Score S] (chart : Chart S C) : List (Step S) :=
  (Span.wideFirst chart.length).flatMap chart.spanSteps ++
    (List.range chart.length).flatMap chart.tokenSteps

/-! ## What the parts list -/

section

variable {chart : Chart S C} {start stop mid : Nat} {st : Step S}

theorem mk_eq (hs : st.start = start) (hm : st.mid = mid) (he : st.stop = stop) :
    (⟨st.rule, start, mid, stop⟩ : Step S) = st := by
  rw [← hs, ← hm, ← he]

theorem mem_unarySteps {child : Symbol} :
    st ∈ chart.unarySteps start stop child ↔
      st.rule ∈ chart.grammar.rules ∧ st.rule.rhs = .unary child ∧
        st.start = start ∧ st.mid = stop ∧ st.stop = stop ∧
        (chart.values child start stop).isSome = true := by
  unfold unarySteps
  split
  · rename_i hsome
    simp only [List.mem_map, List.mem_filter, Array.mem_toList_iff, decide_eq_true_eq]
    refine ⟨?_, ?_⟩
    · intro h
      rcases h with ⟨r, ⟨hr, hrhs⟩, rfl⟩
      exact ⟨hr, hrhs, rfl, rfl, rfl, hsome⟩
    · intro h
      rcases h with ⟨hr, hrhs, hstart, hmid, hstop, _⟩
      exact ⟨st.rule, ⟨hr, hrhs⟩, mk_eq hstart hmid hstop⟩
  · rename_i hnone
    simp [hnone]

theorem mem_tokenSteps {position : Nat} :
    st ∈ chart.tokenSteps position ↔
      ∃ t, st.rule ∈ chart.grammar.rules ∧ st.rule.rhs = .lexical t ∧
        chart.sentence[position]? = some t ∧ st.start = position ∧ st.mid = position ∧
        st.stop = position + 1 := by
  unfold tokenSteps
  split
  · rename_i hnone
    simp [hnone]
  · rename_i token htoken
    simp only [List.mem_map, List.mem_filter, Array.mem_toList_iff, decide_eq_true_eq]
    refine ⟨?_, ?_⟩
    · intro h
      rcases h with ⟨r, ⟨hr, hrhs⟩, rfl⟩
      exact ⟨token, hr, hrhs, htoken, rfl, rfl, rfl⟩
    · intro h
      rcases h with ⟨t, hr, hrhs, ht, hstart, hmid, hstop⟩
      cases htoken.symm.trans ht
      exact ⟨st.rule, ⟨hr, hrhs⟩, mk_eq hstart hmid hstop⟩

theorem nodup_unarySteps (hg : chart.grammar.Indexed) (child : Symbol) :
    (chart.unarySteps start stop child).Nodup := by
  unfold unarySteps
  split
  · exact nodup_map_of_key Step.rule (hg.nodup_rules.filter _) fun _ => rfl
  · exact List.nodup_nil

theorem nodup_tokenSteps (hg : chart.grammar.Indexed) (position : Nat) :
    (chart.tokenSteps position).Nodup := by
  unfold tokenSteps
  split
  · exact List.nodup_nil
  · exact nodup_map_of_key Step.rule (hg.nodup_rules.filter _) fun _ => rfl

variable [Score S]

/-- A split is searched as when the chart was filled. -/
theorem Readable.splitSteps_eq (h : chart.Readable) (h₁ : start < mid) (h₂ : mid < stop)
    (h₃ : stop ≤ chart.length) :
    ∃ (left right : Cell S) (found : List (Application S)),
      chart.cell start mid = .ok left ∧ chart.cell mid stop = .ok right ∧
      binaryApplications chart.grammar mid left right chart.grammar.loopOrder = .ok found ∧
      chart.splitSteps start stop mid = found.map (fun a => ⟨a.rule, start, mid, stop⟩) ∧
      Lists chart.grammar mid left.value? right.value? found := by
  obtain ⟨left, hleft, hlshut⟩ := h.cell_ok start mid h₁ (by omega)
  obtain ⟨right, hright, hrshut⟩ := h.cell_ok mid stop h₂ h₃
  obtain ⟨found, hfound, hlists⟩ := binaryApplications_ok mid h.indexed hlshut hrshut
  refine ⟨left, right, found, hleft, hright, hfound, ?_, hlists⟩
  have hsearch : (do
      let left ← chart.cell start mid
      let right ← chart.cell mid stop
      binaryApplications chart.grammar mid left right chart.grammar.loopOrder :
        Except Fault (List (Application S))) = .ok found := by
    rw [hleft, hright]
    exact hfound
  unfold splitSteps
  rw [hsearch]

theorem Readable.mem_splitSteps (h : chart.Readable) (h₁ : start < mid) (h₂ : mid < stop)
    (h₃ : stop ≤ chart.length) :
    st ∈ chart.splitSteps start stop mid ↔
      ∃ y z, st.rule ∈ chart.grammar.rules ∧ st.rule.rhs = .binary y z ∧
        st.start = start ∧ st.mid = mid ∧ st.stop = stop ∧
        (chart.values y start mid).isSome = true ∧ (chart.values z mid stop).isSome = true := by
  obtain ⟨left, right, found, hleft, hright, _, heq, hlists⟩ := h.splitSteps_eq h₁ h₂ h₃
  simp only [heq, List.mem_map, hlists.mem_iff, values_of_cell hleft, values_of_cell hright,
    Option.isSome_iff_exists]
  refine ⟨?_, ?_⟩
  · intro hx
    rcases hx with ⟨_, ⟨r, hr, y, z, v, w, hrhs, hv, hw, rfl⟩, rfl⟩
    exact ⟨y, z, hr, hrhs, rfl, rfl, rfl, ⟨v, hv⟩, w, hw⟩
  · intro hx
    rcases hx with ⟨y, z, hr, hrhs, rfl, rfl, rfl, ⟨v, hv⟩, w, hw⟩
    exact ⟨_, ⟨st.rule, hr, y, z, v, w, hrhs, hv, hw, rfl⟩, rfl⟩

/-- The steps over a span are those that apply, lexical ones apart. -/
theorem Readable.mem_spanSteps (h : chart.Readable) (h₃ : stop ≤ chart.length) :
    st ∈ chart.spanSteps (start, stop) ↔
      st ∈ chart.grammar.steps chart.sentence start stop ∧
        (st.application? chart.values).isSome = true ∧ ∀ t, st.rule.rhs ≠ .lexical t := by
  simp only [spanSteps, List.mem_append, List.mem_flatMap, List.mem_reverse, Grammar.mem_steps,
    Step.isSome_application?]
  refine ⟨?_, ?_⟩
  · intro hx
    rcases hx with ⟨child, _, hst⟩ | ⟨mid, hmid, hst⟩
    · obtain ⟨hr, hrhs, rfl, hm, rfl, hsome⟩ := mem_unarySteps.mp hst
      simp [hr, hrhs, Rhs.mids, hm, hsome]
    · obtain ⟨h₁, h₂⟩ := Span.mem_splits.mp hmid
      obtain ⟨y, z, hr, hrhs, rfl, rfl, rfl, hy, hz⟩ := (h.mem_splitSteps h₁ h₂ h₃).mp hst
      simp [hr, hrhs, Rhs.mids, hmid, hy, hz]
  · intro hx
    rcases hx with ⟨⟨hr, rfl, rfl, hmid⟩, happ, hlexical⟩
    cases hrhs : st.rule.rhs with
    | lexical t => exact absurd hrhs (hlexical t)
    | unary y =>
      simp only [hrhs, Rhs.mids, List.mem_singleton] at hmid happ
      exact .inl ⟨y, Array.mem_toList_iff.mpr (h.indexed.child_mem_unaryOrder hr hrhs),
        mem_unarySteps.mpr ⟨hr, hrhs, rfl, hmid, rfl, happ⟩⟩
    | binary y z =>
      simp only [hrhs, Rhs.mids, Bool.and_eq_true] at hmid happ
      obtain ⟨h₁, h₂⟩ := Span.mem_splits.mp hmid
      exact .inr ⟨st.mid, hmid, (h.mem_splitSteps h₁ h₂ h₃).mpr
        ⟨y, z, hr, hrhs, rfl, rfl, rfl, happ.1, happ.2⟩⟩

/-- A step that applies is over a span of the sentence. -/
theorem span_of_isSome_application? (hst : st ∈ chart.grammar.steps chart.sentence st.start st.stop)
    (happ : (st.application? chart.values).isSome = true) :
    st.start < st.stop ∧ st.stop ≤ chart.length :=
  Step.span_of_isSome_application? span_of_values hst happ

/-- **The pass goes through the steps that apply.** -/
theorem Readable.mem_passSteps (h : chart.Readable) :
    st ∈ chart.passSteps ↔ st ∈ chart.grammar.steps chart.sentence st.start st.stop ∧
      (st.application? chart.values).isSome = true := by
  simp only [passSteps, List.mem_append, List.mem_flatMap, List.mem_range]
  refine ⟨?_, ?_⟩
  · intro hx
    rcases hx with ⟨⟨start, stop⟩, hspan, hst⟩ | ⟨position, _, hst⟩
    · obtain ⟨hmem, happ, _⟩ := (h.mem_spanSteps (Span.mem_wideFirst.mp hspan).2).mp hst
      obtain ⟨_, rfl, rfl, _⟩ := Grammar.mem_steps.mp hmem
      exact ⟨hmem, happ⟩
    · obtain ⟨t, hr, hrhs, ht, rfl, hmid, hstop⟩ := mem_tokenSteps.mp hst
      refine ⟨Grammar.mem_steps.mpr ⟨hr, rfl, rfl, ?_⟩, ?_⟩
      · simp [hrhs, Rhs.mids, hstop, ht, hmid]
      · simp [Step.isSome_application?, hrhs]
  · intro hx
    rcases hx with ⟨hmem, happ⟩
    obtain ⟨hr, _, _, hmid⟩ := Grammar.mem_steps.mp hmem
    -- lexical steps are gone through at the tokens, all others over their spans
    by_cases hlexical : ∃ t, st.rule.rhs = .lexical t
    · obtain ⟨t, hrhs⟩ := hlexical
      simp only [hrhs, Rhs.mids] at hmid
      split at hmid
      · rename_i hfit
        refine .inr ⟨st.start, (List.getElem?_eq_some_iff.mp hfit.2).1, mem_tokenSteps.mpr
          ⟨t, hr, hrhs, hfit.2, rfl, List.mem_singleton.mp hmid, hfit.1⟩⟩
      · cases hmid
    · have hspan := span_of_isSome_application? hmem happ
      exact .inl ⟨(st.start, st.stop), Span.mem_wideFirst.mpr hspan,
        (h.mem_spanSteps hspan.2).mpr ⟨hmem, happ, fun t ht => hlexical ⟨t, ht⟩⟩⟩

omit [Score S] in
/-- A token is read by its own steps. -/
theorem mem_tokenSteps_of_reads (hst : st ∈ chart.grammar.steps chart.sentence st.start st.stop)
    {position : Nat} (hreads : st.reads position = true) : st ∈ chart.tokenSteps position := by
  obtain ⟨hr, _, _, hmid⟩ := Grammar.mem_steps.mp hst
  unfold Step.reads at hreads
  cases hrhs : st.rule.rhs with
  | lexical t =>
    simp only [hrhs, beq_iff_eq, Rhs.mids] at hreads hmid
    subst hreads
    split at hmid
    · rename_i hfit
      exact mem_tokenSteps.mpr ⟨t, hr, hrhs, hfit.2, rfl, List.mem_singleton.mp hmid, hfit.1⟩
    · cases hmid
  | unary y => simp [hrhs] at hreads
  | binary y z => simp [hrhs] at hreads

/-! ## Every step once -/

theorem Readable.nodup_splitSteps (h : chart.Readable) (h₁ : start < mid) (h₂ : mid < stop)
    (h₃ : stop ≤ chart.length) : (chart.splitSteps start stop mid).Nodup := by
  obtain ⟨left, right, found, _, _, _, heq, hlists⟩ := h.splitSteps_eq h₁ h₂ h₃
  rw [heq]
  refine List.Pairwise.map _ ?_ (hlists.nodup.imp_of_mem (S := fun a b => a.rule ≠ b.rule) ?_)
  · intro a b hab heq
    exact hab (congrArg Step.rule heq)
  · -- the rule tells which symbols are combined, and so the application
    intro a b ha hb hab hrule
    obtain ⟨r, _, y, z, v, w, hrhs, hv, hw, rfl⟩ := (hlists.mem_iff a).mp ha
    obtain ⟨_, _, y', z', v', w', hrhs', hv', hw', rfl⟩ := (hlists.mem_iff b).mp hb
    cases hrule
    cases hrhs.symm.trans hrhs'
    cases hv.symm.trans hv'
    cases hw.symm.trans hw'
    exact hab rfl

theorem Readable.nodup_spanSteps (h : chart.Readable) (h₃ : stop ≤ chart.length) :
    (chart.spanSteps (start, stop)).Nodup := by
  refine List.nodup_append'.mpr ⟨?_, ?_, ?_⟩
  · refine nodup_flatMap_of_key (fun st => st.rule.leftChild)
      (List.nodup_reverse.mpr h.indexed.nodup_unaryOrder)
      (fun child _ => nodup_unarySteps h.indexed child) ?_
    intro child _ st hst
    obtain ⟨_, hrhs, _⟩ := mem_unarySteps.mp hst
    simp [Rule.leftChild, hrhs]
  · refine nodup_flatMap_of_key Step.mid (Span.nodup_splits _ _) ?_ ?_
    · intro mid hmid
      obtain ⟨h₁, h₂⟩ := Span.mem_splits.mp hmid
      exact h.nodup_splitSteps h₁ h₂ h₃
    · intro mid hmid st hst
      obtain ⟨h₁, h₂⟩ := Span.mem_splits.mp hmid
      obtain ⟨_, _, _, _, _, hm, _⟩ := (h.mem_splitSteps h₁ h₂ h₃).mp hst
      exact hm
  · intro st hst hst'
    obtain ⟨child, _, hst⟩ := List.mem_flatMap.mp hst
    obtain ⟨mid, hmid, hst'⟩ := List.mem_flatMap.mp hst'
    obtain ⟨h₁, h₂⟩ := Span.mem_splits.mp hmid
    obtain ⟨_, hrhs, _⟩ := mem_unarySteps.mp hst
    obtain ⟨_, _, _, hrhs', _⟩ := (h.mem_splitSteps h₁ h₂ h₃).mp hst'
    cases hrhs.symm.trans hrhs'

theorem Readable.nodup_passSteps (h : chart.Readable) : chart.passSteps.Nodup := by
  refine List.nodup_append'.mpr ⟨?_, ?_, ?_⟩
  · refine nodup_flatMap_of_key (fun st => (st.start, st.stop))
      ((Span.pairwise_wideFirst _).imp fun hab => hab.2) ?_ ?_
    · intro span hspan
      exact h.nodup_spanSteps (Span.mem_wideFirst.mp hspan).2
    · intro span hspan st hst
      obtain ⟨hmem, _⟩ := (h.mem_spanSteps (Span.mem_wideFirst.mp hspan).2).mp hst
      obtain ⟨_, hs, he, _⟩ := Grammar.mem_steps.mp hmem
      rw [hs, he]
  · refine nodup_flatMap_of_key Step.start List.nodup_range
      (fun position _ => nodup_tokenSteps h.indexed position) ?_
    intro position _ st hst
    obtain ⟨_, _, _, _, hs, _⟩ := mem_tokenSteps.mp hst
    exact hs
  · intro st hst hst'
    obtain ⟨span, hspan, hst⟩ := List.mem_flatMap.mp hst
    obtain ⟨position, _, hst'⟩ := List.mem_flatMap.mp hst'
    obtain ⟨_, _, hlexical⟩ := (h.mem_spanSteps (Span.mem_wideFirst.mp hspan).2).mp hst
    obtain ⟨t, _, hrhs, _⟩ := mem_tokenSteps.mp hst'
    exact hlexical t hrhs

/-- Before a token has its turn, no step reads it. -/
theorem Readable.reads_eq_false (h : chart.Readable) {position : Nat} {done rest : List (Step S)}
    (hsplit : chart.passSteps = done ++ (chart.tokenSteps position ++ rest)) (hst : st ∈ done) :
    st.reads position = false := by
  refine Bool.eq_false_iff.mpr fun hreads => ?_
  have hnodup := h.nodup_passSteps
  have hmem : st ∈ chart.passSteps := by
    rw [hsplit]
    exact List.mem_append_left _ hst
  rw [hsplit] at hnodup
  exact (List.nodup_append'.mp hnodup).2.2 hst
    (List.mem_append_left _ (mem_tokenSteps_of_reads (h.mem_passSteps.mp hmem).1 hreads))

/-- **The pass goes through every step that applies once.** -/
theorem Readable.listsSteps (h : chart.Readable) :
    ListsSteps chart.grammar chart.sentence chart.values chart.passSteps :=
  ⟨h.nodup_passSteps, fun _ => h.mem_passSteps⟩

/-! ## Where a step's numbers are -/

theorem Readable.fits_of_isSome (h : chart.Readable) {c : Constituent}
    (hsome : (chart.values c.symbol c.start c.stop).isSome = true) :
    SpanTable.Fits c chart.length chart.grammar.nonterminalCount := by
  obtain ⟨v, hv⟩ := Option.isSome_iff_exists.mp hsome
  obtain ⟨h₁, h₂⟩ := span_of_values hv
  exact ⟨h₁, h₂, h.symbol_lt _ _ _ _ hv⟩

/-- The score that is read is the weight, zero for what is absent. -/
theorem Readable.score_eq [CommSemiring S] [WeightScore S] (h : chart.Readable) {c : Constituent}
    (hc : SpanTable.Fits c chart.length chart.grammar.nonterminalCount) :
    chart.score c.symbol c.start c.stop = .ok (chart.values.weight c.symbol c.start c.stop) := by
  obtain ⟨cell, hcell, _⟩ := h.cell_ok c.start c.stop hc.start_lt hc.stop_le
  unfold score Values.weight
  rw [hcell, values_of_cell hcell, ← Cell.score_eq_getD]
  rfl

theorem Readable.rule_mem (h : chart.Readable) (hst : st ∈ chart.passSteps) :
    st.rule ∈ chart.grammar.rules :=
  (Grammar.mem_steps.mp (h.mem_passSteps.mp hst).1).1

theorem Readable.fits_made (h : chart.Readable) (hst : st ∈ chart.passSteps) :
    SpanTable.Fits st.made chart.length chart.grammar.nonterminalCount := by
  obtain ⟨hmem, happ⟩ := h.mem_passSteps.mp hst
  -- a step that applies lies within the sentence
  obtain ⟨h₁, h₂⟩ := span_of_isSome_application? hmem happ
  exact ⟨h₁, h₂, h.indexed.parent_lt _ (h.rule_mem hst)⟩

theorem Readable.fits_child (h : chart.Readable) (hst : st ∈ chart.passSteps) {c : Constituent}
    (hc : c ∈ st.children) : SpanTable.Fits c chart.length chart.grammar.nonterminalCount :=
  h.fits_of_isSome (h.listsSteps.isSome_of_mem_children hst hc)

/-! ## What is made before what is made from it -/

omit [Score S] in
/-- On one span, a unary step makes nothing that a later one is made from. -/
theorem pairwise_unarySteps (hg : chart.grammar.Indexed) :
    (chart.grammar.unaryOrder.toList.reverse.flatMap (chart.unarySteps start stop)).Pairwise
      fun st' st => st'.made ∉ st.children := by
  have hchildren : ∀ {child : Symbol} {st : Step S}, st ∈ chart.unarySteps start stop child →
      st.children = [⟨child, start, stop⟩] := by
    intro child st hst
    obtain ⟨_, hrhs, rfl, _, rfl, _⟩ := mem_unarySteps.mp hst
    rw [Step.children, hrhs]
  refine List.pairwise_flatMap.mpr ⟨?_, List.pairwise_reverse.mpr ?_⟩
  · intro child _
    refine List.Pairwise.imp_of_mem ?_ (nodup_unarySteps hg child)
    intro st' st hst' hst _ hmem
    rw [hchildren hst, List.mem_singleton] at hmem
    obtain ⟨hr, hrhs, _⟩ := mem_unarySteps.mp hst'
    exact hg.parent_ne_child hr hrhs (congrArg Constituent.symbol hmem)
  · refine hg.pairwise_unaryOrder.imp ?_
    intro child child' hne st' hst' st hst hmem
    rw [hchildren hst, List.mem_singleton] at hmem
    obtain ⟨hr, hrhs, _⟩ := mem_unarySteps.mp hst'
    exact hne _ hr hrhs (congrArg Constituent.symbol hmem)

theorem Readable.pairwise_spanSteps (h : chart.Readable) (h₃ : stop ≤ chart.length) :
    (chart.spanSteps (start, stop)).Pairwise fun st' st => st'.made ∉ st.children := by
  -- a step for a split is made from narrower spans than those over which steps make
  have hsplit : ∀ st' ∈ chart.spanSteps (start, stop), ∀ mid ∈ Span.splits start stop,
      ∀ st ∈ chart.splitSteps start stop mid, st'.made ∉ st.children := by
    intro st' hst' mid hmid st hst hmem
    obtain ⟨hmade, _⟩ := (h.mem_spanSteps h₃).mp hst'
    obtain ⟨_, hs, he, _⟩ := Grammar.mem_steps.mp hmade
    obtain ⟨h₁, h₂⟩ := Span.mem_splits.mp hmid
    obtain ⟨y, z, _, hrhs, rfl, rfl, rfl, _⟩ := (h.mem_splitSteps h₁ h₂ h₃).mp hst
    simp only [Step.children, hrhs, List.mem_cons, List.not_mem_nil, or_false, Step.made,
      Constituent.mk.injEq] at hmem
    omega
  refine List.pairwise_append.mpr ⟨pairwise_unarySteps h.indexed, ?_, ?_⟩
  · refine ((List.nodup_append'.mp (h.nodup_spanSteps h₃)).2.1).imp_of_mem ?_
    intro st' st hst' hst _
    obtain ⟨mid, hmid, hst⟩ := List.mem_flatMap.mp hst
    exact hsplit st' (List.mem_append_right _ hst') mid hmid st hst
  · intro st' hst' st hst
    obtain ⟨mid, hmid, hst⟩ := List.mem_flatMap.mp hst
    exact hsplit st' (List.mem_append_left _ hst') mid hmid st hst

/-- **No step makes what it or a later one is made from.** -/
theorem Readable.pairwise_passSteps (h : chart.Readable) :
    chart.passSteps.Pairwise fun st' st => st'.made ∉ st.children := by
  have htoken : ∀ position, ∀ st ∈ chart.tokenSteps position, st.children = [] := by
    intro position st hst
    obtain ⟨t, _, hrhs, _⟩ := mem_tokenSteps.mp hst
    rw [Step.children, hrhs]
  refine List.pairwise_append.mpr ⟨List.pairwise_flatMap.mpr ⟨?_, ?_⟩, ?_, ?_⟩
  · intro span hspan
    exact h.pairwise_spanSteps (Span.mem_wideFirst.mp hspan).2
  · -- wide spans first, so a later step is over another span that is no wider
    refine (Span.pairwise_wideFirst _).imp_of_mem ?_
    intro span' span hspan' hspan hwide st' hst' st hst hmem
    obtain ⟨hmade, _⟩ := (h.mem_spanSteps (Span.mem_wideFirst.mp hspan').2).mp hst'
    obtain ⟨hvalid, _⟩ := (h.mem_spanSteps (Span.mem_wideFirst.mp hspan).2).mp hst
    obtain ⟨_, hs', he', _⟩ := Grammar.mem_steps.mp hmade
    obtain ⟨_, hs, he, _⟩ := Grammar.mem_steps.mp hvalid
    rw [← hs, ← he] at hvalid
    obtain ⟨_, h₁, h₂⟩ := st.unary_of_mem_children hvalid hmem (by
      rw [Step.made, hs, he, hs', he']
      exact hwide.1)
    refine hwide.2 (Prod.ext ?_ ?_)
    · rw [← hs', ← hs, ← h₁, Step.made]
    · rw [← he', ← he, ← h₂, Step.made]
  · refine List.pairwise_of_forall_mem_list fun st' _ st hst => ?_
    obtain ⟨position, _, hst⟩ := List.mem_flatMap.mp hst
    rw [htoken position st hst]
    exact List.not_mem_nil
  · intro st' _ st hst
    obtain ⟨position, _, hst⟩ := List.mem_flatMap.mp hst
    rw [htoken position st hst]
    exact List.not_mem_nil

theorem mem_of_split {done rest : List (Step S)} (hsplit : chart.passSteps = done ++ st :: rest) :
    st ∈ chart.passSteps := by
  rw [hsplit]
  exact List.mem_append_right _ List.mem_cons_self

/-- When a step's turn comes, neither it nor a step before it makes what it is made
from. -/
theorem Readable.made_notMem_children (h : chart.Readable) {done rest : List (Step S)}
    (hsplit : chart.passSteps = done ++ st :: rest) :
    ∀ st' ∈ done ++ [st], st'.made ∉ st.children := by
  intro st' hst'
  have hpair := h.pairwise_passSteps
  rw [hsplit] at hpair
  rcases List.mem_append.mp hst' with hdone | hself
  · exact (List.pairwise_append.mp hpair).2.2 st' hdone st List.mem_cons_self
  · rw [List.mem_singleton.mp hself]
    exact Step.made_notMem_children h.indexed (h.mem_passSteps.mp (mem_of_split hsplit)).1

end

end ChartParsing.Chart
