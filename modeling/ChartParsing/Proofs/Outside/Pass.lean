import ChartParsing.Proofs.Outcome
import ChartParsing.Proofs.Outside.Enumeration
import ChartParsing.Proofs.Outside.Order
import ChartParsing.Proofs.Outside.Table

/-!
# The outside pass step by step

`Pushed` is the state of a pass that has gone through some of the steps: the outside
scores are one at the root plus what flows down these steps, the count of a rule is
the share that its steps so far have of the total, and the outside score of a token is
what came down to it. Going through one more step keeps this up, as the outside score
of what the step makes does not change any more.

A step whose parent has outside score zero is skipped by the pass. Nothing flows
down it and it has no share, so it counts as gone through. The same holds of the
check that keeps the outside score of the root as it is.
-/

namespace ChartParsing.Posterior

variable {S C J : Type} [Semifield S]

/-! ## The state of a pass -/

/-- What a pass reads and leaves as it is: the sizes, the root, the total and the
inside scores. -/
structure Frame (chart : Chart S C) (p : Posterior S S) : Prop where
  tokens_eq : p.tokens = chart.length
  nonterminals_eq : p.nonterminals = chart.grammar.nonterminalCount
  root_eq : p.root = chart.grammar.root
  logZ_eq : p.logZ = chart.values chart.grammar.root 0 chart.length
  inside_full : p.inside.Full chart.length chart.grammar.nonterminalCount
  inside_eq : ∀ c, p.inside.weight c = chart.values.weight c.symbol c.start c.stop

/-- The share that a step has of the total. -/
def stepShare (scorer : Scorer S) (I : Symbol → Nat → Nat → S) (total : S) (o : Constituent → S)
    (st : Step S) : S :=
  o st.made * st.weight scorer I / total

/-- A pass has gone through some steps. -/
structure Pushed (chart : Chart S C) (scorer : Scorer S) (total : S) (done : List (Step S))
    (p : Posterior S S) : Prop where
  frame : p.Frame chart
  full : p.outside.Full chart.length chart.grammar.nonterminalCount
  scores : OutsideScores scorer chart.values.weight ⟨chart.grammar.root, 0, chart.length⟩ done
    p.outside.weight
  counts : ∀ r ∈ chart.grammar.rules, p.ruleCounts[r.id.index]? = some (done.map fun st =>
    if st.rule.id = r.id then
      stepShare scorer chart.values.weight total p.outside.weight st
    else 0).sum
  tokens : ∀ position, position < chart.length → p.terminalOutside[position]? =
    some (done.map fun st => if st.reads position then
      p.outside.weight st.made * st.weight scorer chart.values.weight
    else 0).sum

variable {chart : Chart S C} {scorer : Scorer S} {total : S} {done rest : List (Step S)}
  {p p' : Posterior S S} {st : Step S}

theorem Frame.set (h : p.Frame chart) (outside : SpanTable S)
    (terminalOutside ruleCounts : Array S) :
    ({ p with outside, terminalOutside, ruleCounts } : Posterior S S).Frame chart :=
  ⟨h.tokens_eq, h.nonterminals_eq, h.root_eq, h.logZ_eq, h.inside_full, h.inside_eq⟩

/-- One more step. -/
theorem Pushed.push (h : Pushed chart scorer total done p)
    (hfresh : ∀ st' ∈ done ++ [st], st'.made ∉ st.children) (hframe : p'.Frame chart)
    (hfull : p'.outside.Full chart.length chart.grammar.nonterminalCount)
    (houtside : ∀ c, p'.outside.weight c = p.outside.weight c +
      if c = ⟨chart.grammar.root, 0, chart.length⟩ then 0
      else st.flow scorer chart.values.weight p.outside.weight c)
    (hcounts : ∀ i, p'.ruleCounts[i]? = (p.ruleCounts[i]?).map (· +
      if st.rule.id.index = i then
        stepShare scorer chart.values.weight total p.outside.weight st
      else 0))
    (htokens : ∀ i, p'.terminalOutside[i]? = (p.terminalOutside[i]?).map (· +
      if st.reads i then p.outside.weight st.made * st.weight scorer chart.values.weight else 0)) :
    Pushed chart scorer total (done ++ [st]) p' := by
  -- the outside scores that the steps pass on are still the same
  have hsame : ∀ st' ∈ done ++ [st], p'.outside.weight st'.made = p.outside.weight st'.made := by
    intro st' hst'
    rw [houtside, Step.flow_eq_zero fun hmem => absurd hmem (hfresh st' hst'), ite_self, add_zero]
  have hdone : ∀ st' ∈ done, p'.outside.weight st'.made = p.outside.weight st'.made :=
    fun st' hst' => hsame st' (List.mem_append_left _ hst')
  have hself := hsame st (by simp)
  refine ⟨hframe, hfull, ⟨?_, ?_⟩, ?_, ?_⟩
  · rw [houtside, if_pos rfl, add_zero, h.scores.top_eq]
  · intro c hc
    rw [houtside, if_neg hc, h.scores.eq_sum c hc, List.map_append, List.sum_append,
      List.map_singleton, List.sum_singleton, Step.flow_congr hself]
    refine congrArg (List.sum · + _) (List.map_congr_left fun st' hst' => ?_)
    rw [Step.flow_congr (hdone st' hst')]
  · intro r hr
    rw [hcounts, h.counts r hr, Option.map_some, List.map_append, List.sum_append,
      List.map_singleton, List.sum_singleton]
    simp only [RuleId.index_inj, stepShare, hself]
    refine congrArg (fun xs : List S => some (xs.sum + _)) (List.map_congr_left fun st' hst' => ?_)
    rw [hdone st' hst']
  · intro position hposition
    rw [htokens, h.tokens position hposition, Option.map_some, List.map_append, List.sum_append,
      List.map_singleton, List.sum_singleton, hself]
    refine congrArg (fun xs : List S => some (xs.sum + _)) (List.map_congr_left fun st' hst' => ?_)
    rw [hdone st' hst']

/-- A step that has nothing to pass on may be skipped. -/
theorem Pushed.skip (h : Pushed chart scorer total done p)
    (hfresh : ∀ st' ∈ done ++ [st], st'.made ∉ st.children)
    (hzero : p.outside.weight st.made = 0) : Pushed chart scorer total (done ++ [st]) p := by
  refine h.push hfresh h.frame h.full (fun c => ?_) (fun i => ?_) (fun i => ?_)
  · rw [Step.flow_eq_zero fun _ => hzero, ite_self, add_zero]
  · simp only [stepShare, hzero, zero_mul, zero_div, ite_self, add_zero]
    exact (Option.map_id' ..).symm
  · simp only [hzero, zero_mul, ite_self, add_zero]
    exact (Option.map_id' ..).symm

theorem Pushed.count_isSome (h : Pushed chart scorer total done p) {r : Rule S}
    (hr : r ∈ chart.grammar.rules) : ∃ count, p.ruleCounts[r.id.index]? = some count :=
  ⟨_, h.counts r hr⟩

omit [Semifield S] in
/-- Asking the scorer gives its score, whatever run that leaves. -/
theorem ends_bind_ask {β : Type} {faults : Fault → Run J S → Prop} {rule : Rule S}
    {start mid stop : Nat} {f : S → Effect J S β} {run : Run J S} {post : β → Run J S → Prop}
    (hf : ∀ run', (f (scorer.score rule start mid stop)).Ends faults run' post) :
    ((ask scorer rule start mid stop : Effect J S S) >>= f).Ends faults run post :=
  Effect.ends_bind (Q := fun score _ => score = scorer.score rule start mid stop)
    (Effect.ends_bind_emit fun _ => Effect.ends_pure rfl) fun _ run' heq => heq ▸ hf run'

omit [Semifield S] in
/-- The log line at the end changes nothing. -/
theorem log_ends {P : Type} [Score S] [Probability P] [ScoreText S] [ScoreText P]
    {post : Posterior S P} {faults : Fault → Run J S → Prop} {run : Run J S}
    {result : Except ChartError (Posterior S P) → Run J S → Prop}
    (h : ∀ run', result (.ok post) run') :
    (match post.logLine? with
      | some line => do
        Effect.emit (.logged line)
        pure (.ok post)
      | none => pure (.ok post) : Effect J S (Except ChartError (Posterior S P))).Ends faults run
        result := by
  split
  · exact Effect.ends_bind_emit fun _ =>
      Effect.ends_pure (h _)
  · exact Effect.ends_pure (h _)

/-! ## Writing the tables -/

section

variable [Score S] [Probability S] [Sharing S S] [LinearOrder S] [ShareScore S]

/-- Adding to an outside score, which leaves that of the root as it is. -/
theorem addOutside_ok (hframe : p.Frame chart)
    (hfull : p.outside.Full chart.length chart.grammar.nonterminalCount) {c : Constituent}
    (hc : SpanTable.Fits c chart.length chart.grammar.nonterminalCount) (score : S) :
    ∃ outside, p.addOutside c.symbol c.start c.stop score = .ok { p with outside } ∧
      outside.Full chart.length chart.grammar.nonterminalCount ∧
      ∀ x, outside.weight x = p.outside.weight x +
        if x = ⟨chart.grammar.root, 0, chart.length⟩ then 0 else if c = x then score else 0 := by
  unfold addOutside
  -- the root is spared, and so its outside score stays
  by_cases htop : c = ⟨chart.grammar.root, 0, chart.length⟩
  · rw [if_pos (by rw [htop]; exact ⟨hframe.root_eq.symm, rfl, hframe.tokens_eq.symm⟩)]
    refine ⟨p.outside, rfl, hfull, fun x => ?_⟩
    rw [htop]
    split
    · rw [add_zero]
    · rename_i hx
      rw [if_neg (Ne.symm hx), add_zero]
  · rw [if_neg fun ⟨h₁, h₂, h₃⟩ => htop (by
      rw [← hframe.root_eq, ← hframe.tokens_eq, ← h₁, ← h₂, ← h₃])]
    obtain ⟨outside, hset, hfull', hweight⟩ :=
      hfull.set_ok hc (Score.pool (p.outside.weight c) score)
    refine ⟨outside, ?_, hfull', fun x => ?_⟩
    · rw [hfull.get_eq hc]
      show (p.outside.set c.symbol c.start c.stop _ >>= _) = _
      rw [hset]
      rfl
    · rw [hweight, WeightScore.pool_eq]
      by_cases hx : x = c
      · rw [hx, Function.update_self, if_neg htop, if_pos rfl]
      · rw [Function.update_of_ne hx, if_neg (Ne.symm hx), ite_self, add_zero]

/-- Adding the share of an application to the count of its rule. -/
theorem addCount_ok [IsStrictOrderedRing S] [CanonicallyOrderedAdd S] {rule : Rule S}
    (hsome : ∃ count, p.ruleCounts[rule.id.index]? = some count) (total joint : S) :
    ∃ ruleCounts, p.addCount total rule joint = .ok { p with ruleCounts } ∧
      ∀ i, ruleCounts[i]? = (p.ruleCounts[i]?).map (· +
        if rule.id.index = i then joint / total else 0) := by
  obtain ⟨count, hcount⟩ := hsome
  unfold addCount
  -- an application without weight is not counted, and its share is zero
  by_cases hjoint : joint = 0
  · rw [if_neg (by
      rw [ShareScore.exceeds_iff, WeightScore.impossible_eq, hjoint]
      exact lt_irrefl _)]
    refine ⟨p.ruleCounts, rfl, fun i => ?_⟩
    simp [hjoint]
  · rw [if_pos (by
      rw [ShareScore.exceeds_iff, WeightScore.impossible_eq]
      exact pos_iff_ne_zero.mpr hjoint), hcount]
    refine ⟨_, rfl, fun i => ?_⟩
    rw [ShareScore.add_eq, ShareScore.share_eq]
    by_cases hi : rule.id.index = i
    · subst hi
      obtain ⟨hlt, _⟩ := Array.getElem?_eq_some_iff.mp hcount
      rw [Array.getElem?_setIfInBounds_self_of_lt hlt, hcount, Option.map_some, if_pos rfl]
    · rw [Array.getElem?_setIfInBounds_ne hi, if_neg hi]
      simp

/-! ## One rule -/

variable [IsStrictOrderedRing S] [CanonicallyOrderedAdd S]

theorem pushUnaryRule_ends (st : Step S) (hchart : chart.Readable)
    (h : Pushed chart scorer total done p) (hsplit : chart.passSteps = done ++ st :: rest)
    {child : Symbol} (hrhs : st.rule.rhs = .unary child) (hmid : st.mid = st.stop) (run : Run J S) :
    (pushUnaryRule scorer total (chart.values.weight child st.start st.stop) child st.start st.stop
      p st.rule).Ends (fun _ _ => False) run fun p' _ =>
        Pushed chart scorer total (done ++ [st]) p' := by
  have hst := Chart.mem_of_split hsplit
  have hfresh := hchart.made_notMem_children hsplit
  have hr := hchart.rule_mem hst
  have hchild := hchart.fits_child hst (c := ⟨child, st.start, st.stop⟩)
    (by simp [Step.children, hrhs])
  unfold pushUnaryRule
  refine Effect.ends_bind_ok (h.full.get_eq (hchart.fits_made hst)) ?_
  -- with nothing outside the parent there is nothing to pass on
  split
  · rename_i hzero
    exact Effect.ends_pure (h.skip hfresh ((ShareScore.isImpossible_iff _).mp hzero))
  refine ends_bind_ask fun run₁ => ?_
  obtain ⟨counts, hcount, hcounts⟩ := addCount_ok (h.count_isSome hr) total _
  refine Effect.ends_bind_ok hcount ?_
  obtain ⟨outside, hadd, hfull, hweight⟩ :=
    addOutside_ok (p := { p with ruleCounts := counts }) (h.frame.set _ _ _) h.full hchild _
  refine Effect.ends_lift_ok hadd (h.push hfresh (h.frame.set _ _ _) hfull ?_ ?_ ?_)
  · intro c
    rw [hweight]
    simp [Step.flow, Step.slots, hrhs, WeightScore.combine_eq, Derivation.stepScore, hmid]
  · intro i
    rw [hcounts]
    simp only [stepShare, Step.weight, Step.parts, hrhs, WeightScore.combine_eq,
      Derivation.stepScore, hmid, Step.made, mul_right_comm, mul_assoc]
  · intro i
    simp [Step.reads, hrhs]

theorem pushBinaryRule_ends (st : Step S) (hchart : chart.Readable)
    (h : Pushed chart scorer total done p) (hsplit : chart.passSteps = done ++ st :: rest)
    {y z : Symbol} (hrhs : st.rule.rhs = .binary y z) (run : Run J S) :
    (pushBinaryRule chart scorer total st.start st.mid st.stop p st.rule).Ends
      (fun _ _ => False) run fun p' _ => Pushed chart scorer total (done ++ [st]) p' := by
  have hst := Chart.mem_of_split hsplit
  have hfresh := hchart.made_notMem_children hsplit
  have hr := hchart.rule_mem hst
  have hleft := hchart.fits_child hst (c := ⟨y, st.start, st.mid⟩) (by simp [Step.children, hrhs])
  have hright := hchart.fits_child hst (c := ⟨z, st.mid, st.stop⟩) (by simp [Step.children, hrhs])
  unfold pushBinaryRule
  refine Effect.ends_bind_ok (h.full.get_eq (hchart.fits_made hst)) ?_
  split
  · rename_i hzero
    exact Effect.ends_pure (h.skip hfresh ((ShareScore.isImpossible_iff _).mp hzero))
  simp only [Rule.rightChild?, Rule.leftChild, hrhs]
  refine Effect.ends_bind_ok (hchart.score_eq hleft) ?_
  refine Effect.ends_bind_ok (hchart.score_eq hright) ?_
  refine ends_bind_ask fun run₁ => ?_
  obtain ⟨counts, hcount, hcounts⟩ := addCount_ok (h.count_isSome hr) total _
  refine Effect.ends_bind_ok hcount ?_
  obtain ⟨outside₁, hadd₁, hfull₁, hweight₁⟩ :=
    addOutside_ok (p := { p with ruleCounts := counts }) (h.frame.set _ _ _) h.full hleft _
  refine Effect.ends_bind_ok hadd₁ ?_
  obtain ⟨outside₂, hadd₂, hfull₂, hweight₂⟩ :=
    addOutside_ok (p := { p with ruleCounts := counts, outside := outside₁ }) (h.frame.set _ _ _)
      hfull₁ hright _
  refine Effect.ends_lift_ok hadd₂ (h.push hfresh (h.frame.set _ _ _) hfull₂ ?_ ?_ ?_)
  · intro c
    rw [hweight₂, hweight₁]
    -- both additions spare the root
    by_cases htop : c = ⟨chart.grammar.root, 0, chart.length⟩
    · simp only [if_pos htop, add_zero]
    · simp [if_neg htop, Step.flow, Step.slots, hrhs, WeightScore.combine_eq,
        Derivation.stepScore, add_assoc, mul_assoc]
  · intro i
    rw [hcounts]
    simp only [stepShare, Step.weight, Step.parts, hrhs, WeightScore.combine_eq,
      Derivation.stepScore, Step.made]
    congr! 5
    ring
  · intro i
    simp [Step.reads, hrhs]

/-- The state within a token, whose outside score so far is the second part, as it is
once this is written. -/
def withToken (position : Nat) (state : Posterior S S × S) : Posterior S S :=
  { state.1 with
    terminalOutside := state.1.terminalOutside.setIfInBounds position state.2 }

/-- Lexical rules have no children to pass outside scores on to, but a token. -/
theorem pushLexicalRule_ends (st : Step S) (hchart : chart.Readable)
    (hroot : (chart.values chart.grammar.root 0 chart.length).isSome = true) {outside : S}
    (h : Pushed chart scorer total done (withToken st.start (p, outside)))
    (hsplit : chart.passSteps = done ++ st :: rest)
    {t : Symbol} (hrhs : st.rule.rhs = .lexical t) (hmid : st.mid = st.start)
    (hstop : st.stop = st.start + 1) {cell : Cell S}
    (hcell : chart.cell st.start (st.start + 1) = .ok cell) (run : Run J S) :
    (pushLexicalRule scorer total cell st.start (p, outside) st.rule).Ends (fun _ _ => False) run
      fun state _ => Pushed chart scorer total (done ++ [st]) (withToken st.start state) := by
  have hst := Chart.mem_of_split hsplit
  have hfresh := hchart.made_notMem_children hsplit
  have hr := hchart.rule_mem hst
  unfold pushLexicalRule
  simp only
  split
  · -- what is absent has no outside score, as nothing flows to it
    rename_i habsent
    refine Effect.ends_pure (h.skip hfresh ?_)
    by_contra hne
    have hsome := h.scores.isSome (fun st' hst' c hc =>
      hchart.listsSteps.isSome_of_mem_children
        (by rw [hsplit]; exact List.mem_append_left _ hst') hc)
      hroot hne
    simp only [Step.made, hstop, Chart.values_of_cell hcell, Option.isSome_iff_exists] at hsome
    simp [Cell.contains_iff_value?.mpr hsome] at habsent
  have hread : p.outside.get st.rule.parent st.start (st.start + 1) =
      .ok (p.outside.weight st.made) := by
    rw [← hstop]
    exact h.full.get_eq (hchart.fits_made hst)
  refine Effect.ends_bind_ok hread ?_
  split
  · rename_i hzero
    exact Effect.ends_pure (h.skip hfresh ((ShareScore.isImpossible_iff _).mp hzero))
  refine ends_bind_ask fun run₁ => ?_
  obtain ⟨counts, hcount, hcounts⟩ := addCount_ok (p := p) (h.count_isSome hr) total _
  refine Effect.ends_bind_ok hcount ?_
  refine Effect.ends_pure (h.push hfresh (h.frame.set _ _ _) h.full ?_ ?_ ?_)
  · intro c
    simp [withToken, Step.flow, Step.slots, hrhs]
  · intro i
    refine (hcounts i).trans ?_
    simp [withToken, stepShare, Step.weight, Step.parts, hrhs, WeightScore.combine_eq,
      Derivation.stepScore, hmid, hstop]
  · intro i
    simp only [withToken, Step.reads, Step.weight, Step.parts, hrhs, WeightScore.combine_eq,
      WeightScore.pool_eq, Derivation.stepScore, hmid, hstop, beq_iff_eq,
      Array.getElem?_setIfInBounds]
    by_cases hi : st.start = i
    · subst hi
      simp only [if_true]
      split <;> simp
    · simp [hi]

omit [IsStrictOrderedRing S] [CanonicallyOrderedAdd S] in
/-- Before a token has its turn nothing has come down to it, as the table says already. -/
theorem Pushed.withToken (hchart : chart.Readable) (h : Pushed chart scorer total done p)
    {position : Nat} (hposition : position < chart.length)
    (hsplit : chart.passSteps = done ++ (chart.tokenSteps position ++ rest)) :
    Pushed chart scorer total done (Posterior.withToken position (p, Score.impossible)) := by
  have hunread := h.tokens position hposition
  rw [List.sum_eq_zero (by
    intro v hv
    obtain ⟨st, hst, rfl⟩ := List.mem_map.mp hv
    rw [hchart.reads_eq_false hsplit hst]
    rfl)] at hunread
  have hsame : p.terminalOutside.setIfInBounds position Score.impossible = p.terminalOutside := by
    refine Array.ext_getElem? fun i => ?_
    by_cases hi : position = i
    · subst hi
      obtain ⟨hlt, _⟩ := Array.getElem?_eq_some_iff.mp hunread
      rw [Array.getElem?_setIfInBounds_self_of_lt hlt, hunread, WeightScore.impossible_eq]
    · rw [Array.getElem?_setIfInBounds_ne hi]
  rw [Posterior.withToken, hsame]
  exact h

/-! ## The loops of the pass -/

omit [Probability S] [Sharing S S] [LinearOrder S] [ShareScore S] [IsStrictOrderedRing S]
  [CanonicallyOrderedAdd S] in
/-- A loop each of whose rounds goes through its own steps goes through all of them.
The state of a pass is a part of the state of the loop. -/
theorem pushes_ends {α σ : Type} (part : σ → Posterior S S) {f : σ → α → Effect J S σ}
    {xs : List α} {steps : α → List (Step S)} {state : σ} {run : Run J S}
    (h : Pushed chart scorer total done (part state))
    (hsplit : chart.passSteps = done ++ (xs.flatMap steps ++ rest))
    (hround : ∀ x ∈ xs, ∀ done rest state run, Pushed chart scorer total done (part state) →
      chart.passSteps = done ++ (steps x ++ rest) →
      (f state x).Ends (fun _ _ => False) run fun state' _ =>
        Pushed chart scorer total (done ++ steps x) (part state')) :
    (xs.foldlM f state).Ends (fun _ _ => False) run fun state' _ =>
      Pushed chart scorer total (done ++ xs.flatMap steps) (part state') := by
  refine Effect.ends_foldlM (fun gone state (_ : Run J S) =>
    Pushed chart scorer total (done ++ gone.flatMap steps) (part state)) (by simpa using h) ?_
  intro gone x todo state run heq h
  subst heq
  have hsplit' : chart.passSteps =
      (done ++ gone.flatMap steps) ++ (steps x ++ (todo.flatMap steps ++ rest)) := by
    rw [hsplit]
    simp
  refine (hround x (by simp) _ _ state run h hsplit').imp fun state' _ h' => ?_
  simpa using h'

variable {start stop : Nat}

theorem pushUnaryChild_ends (hchart : chart.Readable) {cell : Cell S}
    (hcell : chart.cell start stop = .ok cell) {child : Symbol}
    (h : Pushed chart scorer total done p)
    (hsplit : chart.passSteps = done ++ (chart.unarySteps start stop child ++ rest))
    (run : Run J S) :
    (pushUnaryChild chart scorer total cell start stop p child).Ends (fun _ _ => False) run
      fun p' _ => Pushed chart scorer total (done ++ chart.unarySteps start stop child) p' := by
  have hvalue := Chart.values_of_cell hcell child
  unfold pushUnaryChild
  split
  · rename_i habsent
    have hnone : chart.values child start stop = none := by
      rw [hvalue]
      refine Option.eq_none_iff_forall_not_mem.mpr fun v hv => ?_
      simp [Cell.contains_iff_value?.mpr ⟨v, hv⟩] at habsent
    refine Effect.ends_pure ?_
    simpa [Chart.unarySteps, hnone] using h
  rename_i hpresent
  have hsome : (chart.values child start stop).isSome = true := by
    rw [hvalue, Option.isSome_iff_exists, ← Cell.contains_iff_value?]
    simpa using hpresent
  have hsteps : chart.unarySteps start stop child =
      (chart.grammar.rules.toList.filter fun r => r.rhs = .unary child).flatMap fun r =>
        [⟨r, start, stop, stop⟩] := by
    rw [Chart.unarySteps, if_pos hsome, List.map_eq_flatMap]
  have hscore : cell.score child = chart.values.weight child start stop := by
    rw [Cell.score_eq_getD, Values.weight, hvalue]
  refine Effect.ends_bind_ok (hchart.indexed.rulesAt_unaryRulesWithChild child) ?_
  rw [hsteps] at hsplit ⊢
  rw [hscore]
  refine pushes_ends (fun p => p) h hsplit fun r hr done rest p run h hsplit => ?_
  have hrhs := of_decide_eq_true (List.mem_filter.mp hr).2
  exact pushUnaryRule_ends ⟨r, start, stop, stop⟩ hchart h hsplit hrhs rfl run

theorem pushUnary_ends (hchart : chart.Readable) (h₁ : start < stop) (h₂ : stop ≤ chart.length)
    (h : Pushed chart scorer total done p)
    (hsplit : chart.passSteps = done ++
      (chart.grammar.unaryOrder.toList.reverse.flatMap (chart.unarySteps start stop) ++ rest))
    (run : Run J S) :
    (pushUnary chart scorer total p start stop).Ends (fun _ _ => False) run fun p' _ =>
      Pushed chart scorer total
        (done ++ chart.grammar.unaryOrder.toList.reverse.flatMap (chart.unarySteps start stop))
        p' := by
  obtain ⟨cell, hcell, _⟩ := hchart.cell_ok start stop h₁ h₂
  unfold pushUnary
  refine Effect.ends_bind_ok hcell ?_
  exact pushes_ends (fun p => p) h hsplit fun child _ done rest p run h hsplit =>
    pushUnaryChild_ends hchart hcell h hsplit run

theorem pushSplit_ends (hchart : chart.Readable) {mid : Nat} (h₁ : start < mid) (h₂ : mid < stop)
    (h₃ : stop ≤ chart.length) (h : Pushed chart scorer total done p)
    (hsplit : chart.passSteps = done ++ (chart.splitSteps start stop mid ++ rest))
    (run : Run J S) :
    (pushSplit chart scorer total start stop p mid).Ends (fun _ _ => False) run fun p' _ =>
      Pushed chart scorer total (done ++ chart.splitSteps start stop mid) p' := by
  obtain ⟨left, right, found, hleft, hright, hfound, heq, hlists⟩ := hchart.splitSteps_eq h₁ h₂ h₃
  have hsteps : chart.splitSteps start stop mid = (found.map (·.rule)).flatMap fun r =>
      [⟨r, start, mid, stop⟩] := by
    rw [heq, ← List.map_eq_flatMap, List.map_map]
    rfl
  unfold pushSplit
  refine Effect.ends_bind_ok hleft ?_
  refine Effect.ends_bind_ok hright ?_
  refine Effect.ends_bind_ok (splitRules_ok hfound) ?_
  rw [hsteps] at hsplit ⊢
  refine pushes_ends (fun p => p) h hsplit fun r hr done rest p run h hsplit => ?_
  obtain ⟨a, ha, rfl⟩ := List.mem_map.mp hr
  obtain ⟨r, _, y, z, _, _, hrhs, _, _, rfl⟩ := (hlists.mem_iff a).mp ha
  exact pushBinaryRule_ends ⟨r, start, mid, stop⟩ hchart h hsplit hrhs run

theorem pushSpan_ends (hchart : chart.Readable) {span : Nat × Nat} (h₁ : span.1 < span.2)
    (h₂ : span.2 ≤ chart.length) (h : Pushed chart scorer total done p)
    (hsplit : chart.passSteps = done ++ (chart.spanSteps span ++ rest)) (run : Run J S) :
    (pushSpan chart scorer total p span).Ends (fun _ _ => False) run fun p' _ =>
      Pushed chart scorer total (done ++ chart.spanSteps span) p' := by
  rw [Chart.spanSteps, List.append_assoc] at hsplit
  unfold pushSpan
  refine Effect.ends_bind (pushUnary_ends hchart h₁ h₂ h hsplit run) ?_
  intro p' run₁ h'
  rw [Chart.spanSteps, ← List.append_assoc]
  rw [← List.append_assoc] at hsplit
  refine pushes_ends (fun p => p) h' hsplit fun mid hmid done rest p run h hsplit => ?_
  obtain ⟨hm₁, hm₂⟩ := Span.mem_splits.mp hmid
  exact pushSplit_ends hchart hm₁ hm₂ h₂ h hsplit run

theorem pushToken_ends (hchart : chart.Readable)
    (hroot : (chart.values chart.grammar.root 0 chart.length).isSome = true) {position : Nat}
    (hposition : position < chart.length) (h : Pushed chart scorer total done p)
    (hsplit : chart.passSteps = done ++ (chart.tokenSteps position ++ rest)) (run : Run J S) :
    (pushToken chart scorer total p position).Ends (fun _ _ => False) run fun p' _ =>
      Pushed chart scorer total (done ++ chart.tokenSteps position) p' := by
  obtain ⟨cell, hcell, _⟩ := hchart.cell_ok position (position + 1) (Nat.lt_succ_self _) hposition
  obtain ⟨token, htoken⟩ : ∃ token, chart.sentence[position]? = some token :=
    ⟨_, List.getElem?_eq_getElem hposition⟩
  have hsteps : chart.tokenSteps position =
      (chart.grammar.rules.toList.filter fun r => r.rhs = .lexical token).flatMap fun r =>
        [⟨r, position, position, position + 1⟩] := by
    simp only [Chart.tokenSteps, htoken]
    rw [List.map_eq_flatMap]
  have hstart := h.withToken hchart hposition hsplit
  unfold pushToken
  refine Effect.ends_bind_ok hcell ?_
  simp only [htoken]
  refine Effect.ends_bind_ok (hchart.indexed.rulesAt_lexicalRules token) ?_
  rw [hsteps] at hsplit ⊢
  refine Effect.ends_bind (pushes_ends (withToken position) hstart hsplit
    fun r hr done rest state run h hsplit => ?_) ?_
  · have hrhs := of_decide_eq_true (List.mem_filter.mp hr).2
    exact pushLexicalRule_ends ⟨r, position, position, position + 1⟩ hchart hroot h hsplit hrhs rfl
      rfl hcell run
  · intro state run₃ h'
    rcases state with ⟨p', outside⟩
    exact Effect.ends_pure h'

/-- **The pass goes through all its steps.** -/
theorem push_ends (hchart : chart.Readable)
    (hroot : (chart.values chart.grammar.root 0 chart.length).isSome = true)
    (h : Pushed chart scorer total [] p) (run : Run J S) :
    (push chart scorer total p).Ends (fun _ _ => False) run fun p' _ =>
      Pushed chart scorer total chart.passSteps p' := by
  have hspans : chart.passSteps = [] ++ ((Span.wideFirst chart.length).flatMap chart.spanSteps ++
      (List.range chart.length).flatMap chart.tokenSteps) := rfl
  have htokens : chart.passSteps = ([] ++ (Span.wideFirst chart.length).flatMap chart.spanSteps) ++
      ((List.range chart.length).flatMap chart.tokenSteps ++ []) := by
    rw [List.append_nil]
    rfl
  unfold push
  rw [h.frame.tokens_eq]
  refine Effect.ends_bind (pushes_ends (fun p => p) h hspans
    fun span hspan done rest p run h hsplit => ?_) ?_
  · obtain ⟨h₁, h₂⟩ := Span.mem_wideFirst.mp hspan
    exact pushSpan_ends hchart h₁ h₂ h hsplit run
  · intro p' run₁ h'
    rw [h'.frame.tokens_eq]
    refine pushes_ends (fun p => p) h' htokens fun position hposition done rest p run h hsplit => ?_
    exact pushToken_ends hchart hroot (List.mem_range.mp hposition) h hsplit run

end

end ChartParsing.Posterior
