import ChartParsing.Posterior.OutsidePass
import ChartParsing.Proofs.Chart.Answers
import ChartParsing.Proofs.Outside.Enumeration
import ChartParsing.Proofs.Outside.Table

/-!
# The outside pass over charts that read alike

The pass asks a chart for its cells, its rules and its sentence and for nothing else.
Over charts that read alike it goes through the same states, provided that it does
so at each split: there the binary rules may be found in different orders. If they
are found in the same order, the scorer is asked the same questions as well.
-/

namespace ChartParsing.Posterior

variable {S P C J : Type} [Score S] [Probability P] [Sharing S P]

/-! ## States of the same shape -/

/-- There is a place for the outside score of every constituent of the sentence, and
one for the count of every rule. -/
structure Sized (chart : Chart S C) (p : Posterior S P) : Prop where
  tokens_eq : p.tokens = chart.length
  outside_full : p.outside.Full chart.length chart.grammar.nonterminalCount
  counts_size : p.ruleCounts.size = chart.grammar.rules.size

/-- One and the same state, of the right shape. -/
def Same (chart : Chart S C) (p p' : Posterior S P) : Prop := p = p' ∧ p.Sized chart

variable {chart chart' : Chart S C} {p p' : Posterior S P} {near : Run.Nearness J S}
  {scorer : Scorer S} {total : S}

omit [Score S] [Probability P] [Sharing S P] in
theorem Sized.withOutside (h : p.Sized chart) {sym : Symbol} {start stop : Nat} {value : S}
    {outside : SpanTable S} (hset : p.outside.set sym start stop value = .ok outside) :
    ({ p with outside } : Posterior S P).Sized chart := by
  unfold SpanTable.set at hset
  split at hset
  · cases hset
    exact ⟨h.tokens_eq, ⟨h.outside_full.tokens_eq, h.outside_full.width_eq,
      Array.size_setIfInBounds.trans h.outside_full.size_eq⟩, h.counts_size⟩
  · cases hset

omit [Probability P] [Sharing S P] in
theorem Sized.addOutside (h : p.Sized chart) {sym : Symbol} {start stop : Nat} {score : S}
    (hadd : p.addOutside sym start stop score = .ok p') : p'.Sized chart := by
  unfold Posterior.addOutside at hadd
  split at hadd
  · cases hadd
    exact h
  · obtain ⟨old, _, hadd⟩ := bind_eq_ok hadd
    obtain ⟨outside, hset, heq⟩ := bind_eq_ok hadd
    cases heq
    exact h.withOutside hset

theorem Sized.addCount (h : p.Sized chart) {rule : Rule S} {joint : S}
    (hadd : p.addCount total rule joint = .ok p') : p'.Sized chart := by
  unfold Posterior.addCount at hadd
  split at hadd
  · split at hadd
    · cases hadd
    · cases hadd
      exact ⟨h.tokens_eq, h.outside_full, Array.size_setIfInBounds.trans h.counts_size⟩
  · cases hadd
    exact h

/-! ## Steps that read the same -/

omit [Score S] in
theorem lockstep_bind_ask {β : Type} {rule : Rule S} {start mid stop : Nat}
    {f f' : S → Effect J S β} {post : β → β → Prop}
    (hf : Effect.Lockstep near (fun _ => False) (f (scorer.score rule start mid stop))
      (f' (scorer.score rule start mid stop)) post) :
    Effect.Lockstep near (fun _ => False) ((ask scorer rule start mid stop : Effect J S S) >>= f)
      ((ask scorer rule start mid stop : Effect J S S) >>= f') post := by
  refine Effect.lockstep_bind
    (R := fun a b => a = scorer.score rule start mid stop ∧ b = scorer.score rule start mid stop)
    (Effect.lockstep_bind_emit (Effect.lockstep_pure ⟨rfl, rfl⟩)) fun a b hab => ?_
  obtain ⟨rfl, rfl⟩ := hab
  exact hf

theorem pushUnaryRule_self (h : p.Sized chart) (childInside : S) (child : Symbol)
    (start stop : Nat) (rule : Rule S) :
    Effect.Lockstep near (fun _ => False)
      (pushUnaryRule scorer total childInside child start stop p rule)
      (pushUnaryRule scorer total childInside child start stop p rule) (Same chart) := by
  unfold pushUnaryRule
  refine Effect.lockstep_bind_lift (.refl _) fun parentOutside _ heq => ?_
  subst heq
  split
  · exact Effect.lockstep_pure ⟨rfl, h⟩
  · refine lockstep_bind_ask ?_
    refine Effect.lockstep_bind_lift (.of_forall fun _ => h.addCount) fun p₁ _ hp₁ => ?_
    obtain ⟨rfl, hp₁⟩ := hp₁
    exact Effect.lockstep_lift (.of_forall fun _ => hp₁.addOutside)

theorem pushBinaryRule_self (h : p.Sized chart) (start mid stop : Nat) (rule : Rule S) :
    Effect.Lockstep near (fun _ => False) (pushBinaryRule chart scorer total start mid stop p rule)
      (pushBinaryRule chart scorer total start mid stop p rule) (Same chart) := by
  unfold pushBinaryRule
  refine Effect.lockstep_bind_lift (.refl _) fun parentOutside _ heq => ?_
  subst heq
  split
  · exact Effect.lockstep_pure ⟨rfl, h⟩
  split
  · exact Effect.lockstep_pure ⟨rfl, h⟩
  · refine Effect.lockstep_bind_lift (.refl _) fun leftInside _ heq => ?_
    subst heq
    refine Effect.lockstep_bind_lift (.refl _) fun rightInside _ heq => ?_
    subst heq
    refine lockstep_bind_ask ?_
    refine Effect.lockstep_bind_lift (.of_forall fun _ => h.addCount) fun p₁ _ hp₁ => ?_
    obtain ⟨rfl, hp₁⟩ := hp₁
    refine Effect.lockstep_bind_lift (.of_forall fun _ => hp₁.addOutside) fun p₂ _ hp₂ => ?_
    obtain ⟨rfl, hp₂⟩ := hp₂
    exact Effect.lockstep_lift (.of_forall fun _ => hp₂.addOutside)

theorem pushLexicalRule_self (h : p.Sized chart) (cell : Cell S) (position : Nat) (outside : S)
    (rule : Rule S) :
    Effect.Lockstep near (fun _ => False)
      (pushLexicalRule scorer total cell position (p, outside) rule)
      (pushLexicalRule scorer total cell position (p, outside) rule)
      fun a b => a = b ∧ a.1.Sized chart := by
  unfold pushLexicalRule
  dsimp only
  split
  · exact Effect.lockstep_pure ⟨rfl, h⟩
  refine Effect.lockstep_bind_lift (.refl _) fun parentOutside _ heq => ?_
  subst heq
  split
  · exact Effect.lockstep_pure ⟨rfl, h⟩
  · refine lockstep_bind_ask ?_
    refine Effect.lockstep_bind_lift (.of_forall fun _ => h.addCount) fun p₁ _ hp₁ => ?_
    obtain ⟨rfl, hp₁⟩ := hp₁
    exact Effect.lockstep_pure ⟨rfl, hp₁⟩

/-! ## The pass -/

section

variable (h : chart.ReadAlike chart')

include h

theorem pushUnary_alike (hp : p.Sized chart) (start stop : Nat) :
    Effect.Lockstep near (fun _ => False) (pushUnary chart scorer total p start stop)
      (pushUnary chart' scorer total p start stop) (Same chart) := by
  obtain ⟨binary, hg⟩ := h.grammar
  unfold pushUnary
  refine Effect.lockstep_bind_lift (h.cell start stop) fun cell cell' hcell => ?_
  rw [hg]
  refine Effect.lockstep_foldlM (fun child _ p _ hsame => ?_) ⟨rfl, hp⟩
  obtain ⟨rfl, hp⟩ := hsame
  unfold pushUnaryChild
  rw [hg, ← Cell.contains_congr hcell, ← Cell.score_congr hcell]
  split
  · exact Effect.lockstep_pure ⟨rfl, hp⟩
  refine Effect.lockstep_bind_lift (.refl _) fun rules _ heq => ?_
  subst heq
  refine Effect.lockstep_foldlM (fun rule _ p _ hsame => ?_) ⟨rfl, hp⟩
  obtain ⟨rfl, hp⟩ := hsame
  exact pushUnaryRule_self hp _ _ _ _ _

theorem pushBinaryRule_congr :
    (pushBinaryRule chart scorer total : Nat → Nat → Nat → Posterior S P → Rule S →
      Effect J S (Posterior S P)) = pushBinaryRule chart' scorer total := by
  funext start mid stop p rule
  unfold pushBinaryRule
  simp only [h.score_eq]

/-- Where the rules are laid out alike, a split is gone through alike. -/
theorem pushSplit_alike (hbinary : chart.grammar = chart'.grammar) (hp : p.Sized chart)
    (start stop mid : Nat) :
    Effect.Lockstep near (fun _ => False) (pushSplit chart scorer total start stop p mid)
      (pushSplit chart' scorer total start stop p mid) (Same chart) := by
  unfold pushSplit
  refine Effect.lockstep_bind_lift (h.cell start mid) fun left left' hleft => ?_
  refine Effect.lockstep_bind_lift (h.cell mid stop) fun right right' hright => ?_
  rw [← hbinary, splitRules_eq chart.grammar mid, splitRules_eq chart.grammar mid,
    ← Chart.binaryApplications_congr chart.grammar mid hleft hright, ← pushBinaryRule_congr h]
  refine Effect.lockstep_bind_lift (.refl _) fun found _ heq => ?_
  subst heq
  refine Effect.lockstep_foldlM (fun rule _ p _ hsame => ?_) ⟨rfl, hp⟩
  obtain ⟨rfl, hp⟩ := hsame
  exact pushBinaryRule_self hp _ _ _ _

theorem pushToken_alike (hp : p.Sized chart) (position : Nat) :
    Effect.Lockstep near (fun _ => False) (pushToken chart scorer total p position)
      (pushToken chart' scorer total p position) (Same chart) := by
  obtain ⟨binary, hg⟩ := h.grammar
  unfold pushToken
  refine Effect.lockstep_bind_lift (h.cell position (position + 1)) fun cell cell' hcell => ?_
  rw [← h.sentence_eq, hg]
  split
  · exact Effect.lockstep_throw _
  refine Effect.lockstep_bind_lift (.refl _) fun rules _ heq => ?_
  subst heq
  refine Effect.lockstep_bind (R := fun a b => a = b ∧ a.1.Sized chart)
    (Effect.lockstep_foldlM (fun rule _ a b hab => ?_) ⟨rfl, hp⟩) fun a b hab => ?_
  · obtain ⟨rfl, ha⟩ := hab
    unfold pushLexicalRule
    rw [← Cell.contains_congr hcell]
    exact pushLexicalRule_self ha cell position a.2 rule
  · obtain ⟨rfl, ha⟩ := hab
    exact Effect.lockstep_pure ⟨rfl, ha.tokens_eq, ha.outside_full, ha.counts_size⟩

/-- Both passes go through the same states, if they do so at each split. -/
theorem push_alike (hsplit : ∀ (p : Posterior S P) (start stop mid : Nat), p.Sized chart →
      start < mid → mid < stop → stop ≤ chart.length →
      Effect.Lockstep near (fun _ => False) (pushSplit chart scorer total start stop p mid)
        (pushSplit chart' scorer total start stop p mid) (Same chart)) (hp : p.Sized chart) :
    Effect.Lockstep near (fun _ => False) (push chart scorer total p)
      (push chart' scorer total p) (Same chart) := by
  unfold push
  refine Effect.lockstep_bind (R := Same chart)
    (Effect.lockstep_foldlM (fun span hspan p _ hsame => ?_) ⟨rfl, hp⟩) fun p _ hsame => ?_
  · obtain ⟨rfl, hp'⟩ := hsame
    obtain ⟨start, stop⟩ := span
    rw [hp.tokens_eq] at hspan
    obtain ⟨_, hstop⟩ := Span.mem_wideFirst.mp hspan
    refine Effect.lockstep_bind (pushUnary_alike h hp' start stop) fun p _ hsame => ?_
    obtain ⟨rfl, hp'⟩ := hsame
    refine Effect.lockstep_foldlM (fun mid hmid p _ hsame => ?_) ⟨rfl, hp'⟩
    obtain ⟨rfl, hp'⟩ := hsame
    obtain ⟨h₁, h₂⟩ := Span.mem_splits.mp hmid
    exact hsplit p start stop mid hp' h₁ h₂ hstop
  · obtain ⟨rfl, hp'⟩ := hsame
    refine Effect.lockstep_foldlM (fun position _ p _ hsame => ?_) ⟨rfl, hp'⟩
    obtain ⟨rfl, hp'⟩ := hsame
    exact pushToken_alike h hp' position

/-! ## Before the pass -/

omit [Sharing S P] in
theorem ofInside_congr :
    (ofInside chart : Except Fault (Posterior S P)) = ofInside chart' := by
  obtain ⟨binary, hg⟩ := h.grammar
  have hblank : ∀ logZ, (blank chart logZ : Posterior S P) = blank chart' logZ := by
    intro logZ
    unfold blank
    rw [h.length_eq, hg]
    rfl
  have hread : (readInside chart : Posterior S P → Nat × Nat → _) = readInside chart' := by
    funext p span
    unfold readInside
    refine h.bind_cell (fun c d hcd => ?_) span.1 span.2
    rw [Cell.symbols_congr hcd, funext (Cell.score_congr hcd)]
  unfold ofInside
  simp only [h.rootScore?_eq, hblank, hread]

end

omit [Probability P] [Sharing S P] in
theorem Sized.readInside (h : p.Sized chart) {span : Nat × Nat}
    (hread : readInside chart p span = .ok p') : p'.Sized chart := by
  obtain ⟨cell, _, hread⟩ := bind_eq_ok hread
  obtain ⟨syms, _, hread⟩ := bind_eq_ok hread
  obtain ⟨inside, _, heq⟩ := bind_eq_ok hread
  cases heq
  exact ⟨h.tokens_eq, h.outside_full, h.counts_size⟩

omit [Sharing S P] in
theorem sized_ofInside (h : ofInside chart = .ok p) : p.Sized chart := by
  obtain ⟨logZ, _, h⟩ := bind_eq_ok h
  have hblank : (blank chart logZ : Posterior S P).Sized chart :=
    ⟨rfl, SpanTable.full_replicate _ _ _, Array.size_replicate⟩
  dsimp only at h
  split at h
  · cases h
    exact hblank
  · obtain ⟨p₁, hfold, h⟩ := bind_eq_ok h
    obtain ⟨outside, hset, heq⟩ := bind_eq_ok h
    cases heq
    have hp₁ : p₁.Sized chart :=
      of_foldlM_eq_ok (fun _ p => p.Sized chart) hfold hblank fun _ _ _ _ _ _ hp hread =>
        hp.readInside hread
    exact hp₁.withOutside hset

/-! ## Both passes -/

omit [Sharing S P] in
/-- The log line that ends both passes. -/
theorem lockstep_log [ScoreText S] [ScoreText P] (p : Posterior S P) :
    Effect.Lockstep near (fun _ => False)
      (match p.logLine? with
        | some line => do
          Effect.emit (.logged line)
          pure (.ok p)
        | none => pure (.ok p) : Effect J S (Except ChartError (Posterior S P)))
      (match p.logLine? with
        | some line => do
          Effect.emit (.logged line)
          pure (.ok p)
        | none => pure (.ok p)) Eq := by
  split
  · exact Effect.lockstep_bind_emit (Effect.lockstep_pure rfl)
  · exact Effect.lockstep_pure rfl

/-- **Charts that read alike have the same posterior**, if the pass goes through the
same states at each split. -/
theorem ofChart_alike [ScoreText S] [ScoreText P] (h : chart.ReadAlike chart')
    (hsplit : ∀ (total : S) (p : Posterior S P) (start stop mid : Nat), p.Sized chart →
      start < mid → mid < stop → stop ≤ chart.length →
      Effect.Lockstep near (fun _ => False) (pushSplit chart scorer total start stop p mid)
        (pushSplit chart' scorer total start stop p mid) (Same chart)) :
    Effect.Lockstep near (fun _ => False)
      (ofChart chart scorer : Effect J S (Except ChartError (Posterior S P)))
      (ofChart chart' scorer) Eq := by
  unfold ofChart
  rw [← h.aggregation_eq, ← ofInside_congr h]
  by_cases hagg : chart.config.aggregation ≠ .inside
  · rw [if_pos hagg, if_pos hagg]
    exact Effect.lockstep_pure rfl
  rw [if_neg hagg, if_neg hagg]
  refine Effect.lockstep_bind_lift (.of_forall fun _ => sized_ofInside) fun p _ hsame => ?_
  obtain ⟨rfl, hp⟩ := hsame
  split
  · refine Effect.lockstep_bind (push_alike h (hsplit _) hp) fun p _ hsame => ?_
    obtain ⟨rfl, _⟩ := hsame
    exact lockstep_log p
  · exact lockstep_log p

/-- Where the rules are laid out alike, both passes are one and the same. -/
theorem ofChart_eq [ScoreText S] [ScoreText P] (h : chart.ReadAlike chart')
    (hgrammar : chart.grammar = chart'.grammar) (run : Run J S) :
    (ofChart chart scorer : Effect J S (Except ChartError (Posterior S P))).outcome run =
      (ofChart chart' scorer).outcome run := by
  have hstep : Effect.Lockstep .same (fun _ => False)
      (ofChart chart scorer : Effect J S (Except ChartError (Posterior S P)))
      (ofChart chart' scorer) Eq :=
    ofChart_alike h fun _ _ start stop mid hp _ _ _ => pushSplit_alike h hgrammar hp start stop mid
  exact hstep.outcome_eq run

end ChartParsing.Posterior
