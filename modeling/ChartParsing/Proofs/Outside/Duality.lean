import ChartParsing.Proofs.Inside.Correctness
import ChartParsing.Proofs.Outside.Marked

/-!
# Outside scores answer questions about derivations

Outside scores are one at the root, and everywhere else the sum of what flows down
the steps: each step passes the outside score of what it makes on to each of its
children, times its own weight and that of the child's sibling.

Pairing outside scores with marked weights, and going through the steps once from
above and once from below, counts the same flows, so what is left is equal too: the
marked weight of the root is the sum of the marks, each with the outside score of
what the step makes and the weight of the step. Every question about steps is
answered by this sum.

The steps gone through are those that apply to the symbols present, rejected ones
among them. What these pass on is counted too, so every answer is the right one and
what rejected steps add to it. They are idle if they add nothing. With a predicate that
depends on the span alone they all are: a step that it rejects makes a constituent
without derivations, and nothing flows to those.
-/

namespace ChartParsing

variable {S : Type} [Score S]

omit [Score S] in
/-- The predicate depends on the span alone. -/
def CellPredicate.SpanOnly (p : CellPredicate S) : Prop :=
  ∀ start stop mid mid' rule rule' (x y : S),
    p.test start stop mid rule x = p.test start stop mid' rule' y

omit [Score S] in
theorem CellPredicate.SpanOnly.scoreFree {p : CellPredicate S} (h : p.SpanOnly) : p.ScoreFree :=
  fun start stop mid rule x y => h start stop mid mid rule rule x y

/-- The symbols present are those with derivations, and their scores the total
weights. -/
structure Values.Total [CommSemiring S] (V : Values S) (g : Grammar S) (sentence : List Symbol)
    (scorer : Scorer S) (p : CellPredicate S) : Prop where
  weight_eq : ∀ sym start stop, V.weight sym start stop =
    totalWeight g sentence scorer p sym start stop
  isSome_iff : ∀ sym start stop, (V sym start stop).isSome = true ↔
    (derivations g sentence scorer p sym start stop).Nonempty

/-- A list of all steps that apply, each of them once. -/
structure ListsSteps (g : Grammar S) (sentence : List Symbol) (V : Values S)
    (steps : List (Step S)) : Prop where
  nodup : steps.Nodup
  mem_iff : ∀ st, st ∈ steps ↔
    st ∈ g.steps sentence st.start st.stop ∧ (st.application? V).isSome = true

variable [CommSemiring S]

omit [Score S] in
/-- What a step passes on to a constituent. -/
def Step.flow (scorer : Scorer S) (I : Symbol → Nat → Nat → S) (o : Constituent → S)
    (st : Step S) (c : Constituent) : S :=
  ((st.slots I).map fun x =>
    if x.1 = c then o st.made * (Derivation.stepScore scorer st * x.2) else 0).sum

/-- One at the top, and sums of flows elsewhere. -/
structure OutsideScores (scorer : Scorer S) (I : Symbol → Nat → Nat → S) (top : Constituent)
    (steps : List (Step S)) (o : Constituent → S) : Prop where
  top_eq : o top = 1
  eq_sum : ∀ c, c ≠ top → o c = (steps.map fun st => st.flow scorer I o c).sum

section

variable {g : Grammar S} {sentence : List Symbol} {scorer : Scorer S} {p : CellPredicate S}
  {V : Values S} {steps : List (Step S)} {o : Constituent → S} {top : Constituent}
  {I : Symbol → Nat → Nat → S}

omit [Score S] in
/-- Nothing flows to what is no child, and nothing from what has outside score zero. -/
theorem Step.flow_eq_zero {st : Step S} {c : Constituent} (h : c ∈ st.children → o st.made = 0) :
    st.flow scorer I o c = 0 := by
  unfold flow
  refine List.sum_eq_zero fun v hv => ?_
  obtain ⟨x, hx, rfl⟩ := List.mem_map.mp hv
  split
  · rename_i hc
    rw [h (hc ▸ Step.mem_children_of_mem_slots hx), zero_mul]
  · rfl

omit [Score S] in
theorem Step.flow_congr {o o' : Constituent → S} {st : Step S} {c : Constituent}
    (h : o' st.made = o st.made) : st.flow scorer I o' c = st.flow scorer I o c := by
  unfold flow
  rw [h]

omit [Score S] in
/-- What flows, flows to one of the children. -/
theorem Step.exists_slot {st : Step S} {c : Constituent} (h : st.flow scorer I o c ≠ 0) :
    ∃ x ∈ st.slots I, x.1 = c ∧ o st.made * (Derivation.stepScore scorer st * x.2) ≠ 0 := by
  by_contra hnone
  refine h (List.sum_eq_zero fun v hv => ?_)
  obtain ⟨x, hx, rfl⟩ := List.mem_map.mp hv
  refine ite_eq_right_iff.mpr fun hc => ?_
  by_contra hpos
  exact hnone ⟨x, hx, hc, hpos⟩

omit [Score S] in
theorem Step.of_flow_ne_zero {st : Step S} {c : Constituent} (h : st.flow scorer I o c ≠ 0) :
    c ∈ st.children ∧ o st.made ≠ 0 := by
  obtain ⟨x, hx, rfl, hpos⟩ := st.exists_slot h
  exact ⟨Step.mem_children_of_mem_slots hx, left_ne_zero_of_mul hpos⟩

omit [Score S] in
/-- Outside scores come from above. -/
theorem OutsideScores.exists_flow (h : OutsideScores scorer I top steps o) {c : Constituent}
    (hc : c ≠ top) (hne : o c ≠ 0) : ∃ st ∈ steps, st.flow scorer I o c ≠ 0 := by
  -- a sum of zeros only would be zero
  by_contra hnone
  refine hne ((h.eq_sum c hc).trans (List.sum_eq_zero fun v hv => ?_))
  obtain ⟨st, hst, rfl⟩ := List.mem_map.mp hv
  by_contra hflow
  exact hnone ⟨st, hst, hflow⟩

omit [CommSemiring S] in
/-- What an applying step is made from is present. -/
theorem ListsSteps.isSome_of_mem_children (h : ListsSteps g sentence V steps) {st : Step S}
    (hst : st ∈ steps) {c : Constituent} (hc : c ∈ st.children) :
    (V c.symbol c.start c.stop).isSome = true := by
  have happ := ((h.mem_iff st).mp hst).2
  rw [Step.isSome_application?] at happ
  unfold Step.children at hc
  cases hrhs : st.rule.rhs with
  | lexical t =>
    rw [hrhs] at hc
    cases hc
  | unary y =>
    simp only [hrhs, List.mem_singleton] at hc happ
    rw [hc]
    exact happ
  | binary y z =>
    simp only [hrhs, List.mem_cons, List.not_mem_nil, or_false, Bool.and_eq_true] at hc happ
    rcases hc with rfl | rfl
    · exact happ.1
    · exact happ.2

omit [Score S] in
/-- Only what is present has an outside score, the top being present. -/
theorem OutsideScores.isSome (h : OutsideScores scorer I top steps o)
    (hchildren : ∀ st ∈ steps, ∀ c ∈ st.children, (V c.symbol c.start c.stop).isSome = true)
    (htop : (V top.symbol top.start top.stop).isSome = true) {c : Constituent} (hne : o c ≠ 0) :
    (V c.symbol c.start c.stop).isSome = true := by
  by_cases hc : c = top
  · rw [hc]
    exact htop
  · obtain ⟨st, hst, hflow⟩ := h.exists_flow hc hne
    exact hchildren st hst c (Step.of_flow_ne_zero hflow).1

/-! ## Nothing flows to the root -/

theorem Values.Total.span (h : V.Total g sentence scorer p) {sym : Symbol} {start stop : Nat}
    (hsome : (V sym start stop).isSome = true) : start < stop ∧ stop ≤ sentence.length := by
  obtain ⟨d, hvalid, _, _, rfl, rfl⟩ := (h.isSome_iff sym start stop).mp hsome
  exact hvalid.span

/-- The steps lie within the sentence. -/
theorem ListsSteps.span (hsteps : ListsSteps g sentence V steps)
    (hV : V.Total g sentence scorer p) {st : Step S} (hst : st ∈ steps) :
    st ∈ g.steps sentence st.start st.stop ∧ st.start < st.stop ∧ st.stop ≤ sentence.length := by
  obtain ⟨hvalid, happ⟩ := (hsteps.mem_iff st).mp hst
  exact ⟨hvalid, Step.span_of_isSome_application?
    (fun hv => hV.span (Option.isSome_of_eq_some hv)) hvalid happ⟩

/-- A step with a child over the whole sentence is unary, so what it makes ranks
higher. -/
theorem ListsSteps.made_eq (hsteps : ListsSteps g sentence V steps) (hg : g.Indexed)
    (hV : V.Total g sentence scorer p) {st : Step S} (hst : st ∈ steps) {sym : Symbol}
    (hmem : ⟨sym, 0, sentence.length⟩ ∈ st.children) :
    st.rule ∈ g.rules ∧ st.rule.rhs = .unary sym ∧
      st.made = ⟨st.rule.parent, 0, sentence.length⟩ ∧
      g.unaryRank sym < g.unaryRank st.rule.parent := by
  obtain ⟨hvalid, _, hstop⟩ := hsteps.span hV hst
  have hr := (Grammar.mem_steps.mp hvalid).1
  obtain ⟨hrhs, hs, he⟩ := st.unary_of_mem_children hvalid hmem (by simp only; omega)
  refine ⟨hr, hrhs, ?_, hg.unaryRank_lt hr hrhs⟩
  unfold Step.made
  rw [← hs, ← he]

/-- What holds of the top, and of all that something flows to from where it holds,
holds wherever there is an outside score. -/
theorem OutsideScores.induction {motive : Constituent → Prop}
    (h : OutsideScores scorer I top steps o) (hg : g.Indexed)
    (hsteps : ListsSteps g sentence V steps) (hV : V.Total g sentence scorer p)
    (htop : motive top)
    (hflow : ∀ st ∈ steps, ∀ c, st.flow scorer I o c ≠ 0 → motive st.made → motive c)
    (c : Constituent) (hne : o c ≠ 0) : motive c := by
  -- what a step makes is wider, or as wide and of a symbol that ranks higher
  suffices hgap : ∀ gap gap' c, sentence.length - (c.stop - c.start) = gap →
      g.unaryOrder.toList.length - g.unaryRank c.symbol = gap' → o c ≠ 0 → motive c from
    hgap _ _ c rfl rfl hne
  intro gap
  induction gap using Nat.strongRecOn with
  | ind gap ihw =>
    intro gap'
    induction gap' using Nat.strongRecOn with
    | ind gap' ihr =>
      intro c heq heq' hne
      by_cases hc : c = top
      · rw [hc]
        exact htop
      obtain ⟨st, hst, hpos⟩ := h.exists_flow hc hne
      obtain ⟨hmem, hmade⟩ := Step.of_flow_ne_zero hpos
      obtain ⟨hvalid, hstart, hstop⟩ := hsteps.span hV hst
      refine hflow st hst c hpos ?_
      by_cases hwidth : st.stop - st.start ≤ c.stop - c.start
      · obtain ⟨hrhs, hs, he⟩ := st.unary_of_mem_children hvalid hmem hwidth
        have hrank : g.unaryRank c.symbol < g.unaryRank st.made.symbol :=
          hg.unaryRank_lt (Grammar.mem_steps.mp hvalid).1 hrhs
        have hbound : g.unaryRank st.made.symbol ≤ g.unaryOrder.toList.length :=
          List.idxOf_le_length
        exact ihr _ (by omega) st.made (by rw [← heq, hs, he]; rfl) rfl hmade
      · exact ihw (sentence.length - (st.stop - st.start)) (by omega) _ st.made rfl rfl hmade

/-- Over the whole sentence only the root and what ranks lower has an outside
score. -/
theorem OutsideScores.rank_lt (h : OutsideScores scorer I ⟨g.root, 0, sentence.length⟩ steps o)
    (hg : g.Indexed) (hsteps : ListsSteps g sentence V steps) (hV : V.Total g sentence scorer p)
    (sym : Symbol) (hne : o ⟨sym, 0, sentence.length⟩ ≠ 0) :
    sym = g.root ∨ g.unaryRank sym < g.unaryRank g.root := by
  refine h.induction hg hsteps hV (motive := fun c => c.start = 0 → c.stop = sentence.length →
    c.symbol = g.root ∨ g.unaryRank c.symbol < g.unaryRank g.root) (fun _ _ => .inl rfl) ?_ _ hne
    rfl rfl
  rintro st hst ⟨sym, start, stop⟩ hflow ih rfl rfl
  obtain ⟨_, _, heq, hrank⟩ := hsteps.made_eq hg hV hst (Step.of_flow_ne_zero hflow).1
  rw [heq] at ih
  rcases ih rfl rfl with hroot | hlt
  · rw [show st.rule.parent = g.root from hroot] at hrank
    exact .inr hrank
  · exact .inr (hrank.trans hlt)

/-- **What the root would be passed is zero.** -/
theorem OutsideScores.parent_of_root
    (h : OutsideScores scorer I ⟨g.root, 0, sentence.length⟩ steps o) (hg : g.Indexed)
    (hsteps : ListsSteps g sentence V steps) (hV : V.Total g sentence scorer p) {r : Rule S}
    (hr : r ∈ g.rules) (hrhs : r.rhs = .unary g.root) :
    o ⟨r.parent, 0, sentence.length⟩ = 0 := by
  by_contra hne
  have hrank := hg.unaryRank_lt hr hrhs
  rcases h.rank_lt hg hsteps hV _ hne with hroot | hlt
  · rw [hroot] at hrank
    exact Nat.lt_irrefl _ hrank
  · exact Nat.lt_irrefl _ (hlt.trans hrank)

/-- So the root is no exception: outside scores are one at the root plus what flows
to a constituent, everywhere. -/
theorem OutsideScores.eq_add (h : OutsideScores scorer I ⟨g.root, 0, sentence.length⟩ steps o)
    (hg : g.Indexed) (hsteps : ListsSteps g sentence V steps) (hV : V.Total g sentence scorer p)
    (c : Constituent) :
    o c = (if c = ⟨g.root, 0, sentence.length⟩ then 1 else 0) +
      (steps.map fun st => st.flow scorer I o c).sum := by
  split
  · rename_i htop
    rw [htop, h.top_eq, List.sum_eq_zero, add_zero]
    intro v hv
    obtain ⟨st, hst, rfl⟩ := List.mem_map.mp hv
    refine Step.flow_eq_zero fun hmem => ?_
    obtain ⟨hr, hrhs, heq, _⟩ := hsteps.made_eq hg hV hst hmem
    rw [heq]
    exact h.parent_of_root hg hsteps hV hr hrhs
  · rename_i htop
    rw [h.eq_sum c htop, zero_add]

/-! ## The steps for a constituent -/

/-- A step that does not apply weighs nothing, and nothing marked is below it. -/
theorem Step.markedWeight_eq_zero (hV : V.Total g sentence scorer p) (f : Step S → S) {st : Step S}
    (happ : (st.application? V).isSome = false) :
    st.markedWeight scorer (totalWeight g sentence scorer p) f
      (totalMarked g sentence scorer p f) = 0 := by
  have hzero : ∀ y s e, (V y s e).isSome = false →
      totalWeight g sentence scorer p y s e = 0 ∧
        totalMarked g sentence scorer p f ⟨y, s, e⟩ = 0 := by
    intro y s e hnone
    have hempty : derivationList g sentence scorer p y s e = [] := by
      refine derivationList_eq_nil fun hne => ?_
      rw [(hV.isSome_iff y s e).mpr hne] at hnone
      cases hnone
    exact ⟨by rw [totalWeight, hempty]; rfl, by rw [totalMarked, hempty]; rfl⟩
  -- a step that does not apply is made from something without derivations
  rw [Step.isSome_application?] at happ
  unfold markedWeight weight parts slots
  cases hrhs : st.rule.rhs with
  | lexical t =>
    rw [hrhs] at happ
    cases happ
  | unary y =>
    rw [hrhs] at happ
    obtain ⟨hI, hM⟩ := hzero _ _ _ happ
    simp [hI, hM]
  | binary y z =>
    rw [hrhs] at happ
    rcases Bool.and_eq_false_iff.mp happ with hy | hz
    · obtain ⟨hI, hM⟩ := hzero _ _ _ hy
      simp [hI, hM]
    · obtain ⟨hI, hM⟩ := hzero _ _ _ hz
      simp [hI, hM]

/-- The outside score of a constituent, times a sum over the admitted steps that can
be at its top, is a sum over the admitted ones of the steps gone through. -/
theorem ListsSteps.mul_sum (hsteps : ListsSteps g sentence V steps) (hg : g.Indexed)
    (p : CellPredicate S) (o : Constituent → S) (G : Step S → S)
    (hG : ∀ st, (st.application? V).isSome = false → G st = 0) (c : Constituent) :
    o c * ((g.stepsFor sentence p c.symbol c.start c.stop).map G).sum =
      (steps.map fun st =>
        if st.made = c ∧ p.admitsStep st = true then o st.made * G st else 0).sum := by
  have hmade : (steps.map fun st =>
        if st.made = c ∧ p.admitsStep st = true then o st.made * G st else 0).sum =
      o c * ((steps.filter fun st => st.made = c ∧ p.admitsStep st = true).map G).sum := by
    rw [← sum_map_filter, ← List.sum_map_mul_left]
    refine congrArg List.sum (List.map_congr_left fun st hst => ?_)
    rw [(of_decide_eq_true (List.mem_filter.mp hst).2).1]
  have hperm : ((g.stepsFor sentence p c.symbol c.start c.stop).filter
      fun st => (st.application? V).isSome = true).Perm
        (steps.filter fun st => st.made = c ∧ p.admitsStep st = true) := by
    have hnodup : (g.stepsFor sentence p c.symbol c.start c.stop).Nodup :=
      (g.nodup_steps hg.nodup_rules _ _ _).filter _
    refine (List.perm_ext_iff_of_nodup (hnodup.filter _)
      (hsteps.nodup.filter _)).mpr fun st => ?_
    rw [List.mem_filter, Grammar.mem_stepsFor, decide_eq_true_eq, List.mem_filter,
      hsteps.mem_iff, decide_eq_true_eq]
    refine ⟨?_, ?_⟩
    · intro hx
      rcases hx with ⟨⟨hmem, hparent, hadmits⟩, happ⟩
      obtain ⟨_, hstart, hstop, _⟩ := Grammar.mem_steps.mp hmem
      refine ⟨⟨by rw [hstart, hstop]; exact hmem, happ⟩, ?_, hadmits⟩
      rw [Step.made, hparent, hstart, hstop]
    · intro hx
      rcases hx with ⟨⟨hmem, happ⟩, rfl, hadmits⟩
      exact ⟨⟨hmem, rfl, hadmits⟩, happ⟩
  rw [hmade, ← (hperm.map G).sum_eq, sum_map_filter_of_zero]
  exact fun st happ => hG st (Bool.eq_false_iff.mpr happ)

/-! ## Going through the steps once from above and once from below -/

/-- The constituents that the steps make or are made from, and the top. -/
def Step.constituents (top : Constituent) (steps : List (Step S)) : Finset Constituent :=
  (top :: (steps.map Step.made ++ steps.flatMap Step.children)).toFinset

omit [Score S] [CommSemiring S] in
theorem Step.top_mem_constituents : top ∈ Step.constituents top steps := by
  simp [constituents]

omit [Score S] [CommSemiring S] in
theorem Step.made_mem_constituents {st : Step S} (hst : st ∈ steps) :
    st.made ∈ Step.constituents top steps := by
  simp only [constituents, List.mem_toFinset, List.mem_cons, List.mem_append]
  exact .inr (.inl (List.mem_map_of_mem hst))

omit [Score S] [CommSemiring S] in
theorem Step.child_mem_constituents {st : Step S} (hst : st ∈ steps) {c : Constituent}
    (hc : c ∈ st.children) : c ∈ Step.constituents top steps := by
  simp only [constituents, List.mem_toFinset, List.mem_cons, List.mem_append]
  exact .inr (.inr (List.mem_flatMap.mpr ⟨st, hst, hc⟩))

omit [Score S] in
/-- What flows to the constituents, times what is marked below them, step by step. -/
theorem sum_flow_mul (o M : Constituent → S) (st : Step S) {N : Finset Constituent}
    (hN : ∀ c ∈ st.children, c ∈ N) :
    ∑ c ∈ N, st.flow scorer I o c * M c =
      o st.made * ((st.slots I).map fun x =>
        Derivation.stepScore scorer st * x.2 * M x.1).sum := by
  have hslots : ∀ x ∈ st.slots I, x.1 ∈ N := fun x hx =>
    hN x.1 (Step.mem_children_of_mem_slots hx)
  unfold Step.flow
  -- by induction on the children; each of them picks its own term of the sum
  generalize st.slots I = xs at hslots ⊢
  induction xs with
  | nil => simp
  | cons x xs ih =>
    simp only [List.map_cons, List.sum_cons, add_mul, Finset.sum_add_distrib, mul_add]
    rw [ih fun x' hx' => hslots x' (List.mem_cons_of_mem _ hx')]
    congr 1
    simp only [ite_mul, zero_mul, Finset.sum_ite_eq, if_pos (hslots x List.mem_cons_self)]
    rw [mul_assoc]

omit [Score S] in
theorem sum_sum_map {α β : Type} {xs : List β} (N : Finset α) (F : α → β → S) :
    ∑ c ∈ N, (xs.map (F c)).sum = (xs.map fun x => ∑ c ∈ N, F c x).sum := by
  induction xs with
  | nil => simp
  | cons x xs ih => simp [Finset.sum_add_distrib, ih]

omit [Score S] in
/-- What is marked below a step. -/
def Step.markedBelow (scorer : Scorer S) (I : Symbol → Nat → Nat → S) (M : Constituent → S)
    (st : Step S) : S :=
  ((st.slots I).map fun x => Derivation.stepScore scorer st * x.2 * M x.1).sum

/-- From below: what is marked below a constituent is below the admitted steps that make
it. -/
theorem ListsSteps.sum_mul_totalMarked (hsteps : ListsSteps g sentence V steps) (hg : g.Indexed)
    (hV : V.Total g sentence scorer p) (hp : p.ScoreFree) (f : Step S → S) :
    ∑ c ∈ Step.constituents top steps, o c * totalMarked g sentence scorer p f c =
      (steps.map fun st => if p.admitsStep st = true then
        o st.made * (st.weight scorer (totalWeight g sentence scorer p) * f st) else 0).sum +
      (steps.map fun st => if p.admitsStep st = true then
        o st.made * st.markedBelow scorer (totalWeight g sentence scorer p)
          (totalMarked g sentence scorer p f) else 0).sum := by
  have hterm : ∀ c, o c * totalMarked g sentence scorer p f c = (steps.map fun st =>
      if st.made = c ∧ p.admitsStep st = true then
        o st.made * st.markedWeight scorer (totalWeight g sentence scorer p) f
          (totalMarked g sentence scorer p f) else 0).sum := by
    intro c
    rw [← hsteps.mul_sum hg p o _ (fun st happ => st.markedWeight_eq_zero hV f happ),
      ← totalMarked_eq hg hp]
  simp only [hterm]
  rw [sum_sum_map, ← List.sum_map_add]
  refine congrArg List.sum (List.map_congr_left fun st hst => ?_)
  simp only [ite_and]
  rw [Finset.sum_ite_eq, if_pos (Step.made_mem_constituents hst)]
  split
  · exact mul_add _ _ _
  · rw [add_zero]

/-- From above: an outside score is what flows down to a constituent, whatever lets it. -/
theorem OutsideScores.sum_mul
    (h : OutsideScores scorer I ⟨g.root, 0, sentence.length⟩ steps o) (hg : g.Indexed)
    (hsteps : ListsSteps g sentence V steps) (hV : V.Total g sentence scorer p)
    (M : Constituent → S) :
    ∑ c ∈ Step.constituents ⟨g.root, 0, sentence.length⟩ steps, o c * M c =
      M ⟨g.root, 0, sentence.length⟩ +
        (steps.map fun st => o st.made * st.markedBelow scorer I M).sum := by
  have hterm : ∀ c, o c * M c = (if c = ⟨g.root, 0, sentence.length⟩ then
      M ⟨g.root, 0, sentence.length⟩ else 0) +
        (steps.map fun st => st.flow scorer I o c * M c).sum := by
    intro c
    rw [h.eq_add hg hsteps hV c, add_mul, List.sum_map_mul_right, ite_mul, one_mul, zero_mul]
    split
    · rename_i heq
      rw [heq]
    · rfl
  simp only [hterm]
  rw [Finset.sum_add_distrib, Finset.sum_ite_eq', if_pos Step.top_mem_constituents, sum_sum_map]
  refine congrArg (M _ + List.sum ·) (List.map_congr_left fun st hst => ?_)
  exact sum_flow_mul o M st fun c hc => Step.child_mem_constituents hst hc

section

variable [IsCancelAdd S]
  (h : OutsideScores scorer (totalWeight g sentence scorer p) ⟨g.root, 0, sentence.length⟩ steps o)
  (hg : g.Indexed) (hsteps : ListsSteps g sentence V steps) (hV : V.Total g sentence scorer p)
  (hp : p.ScoreFree)

include h hg hsteps hV hp

/-- The marked weight of the root, and what rejected steps pass on below them, are the
marks of the admitted steps. -/
theorem OutsideScores.totalMarked_add_below (f : Step S → S) :
    totalMarked g sentence scorer p f ⟨g.root, 0, sentence.length⟩ +
        (steps.map fun st => if p.admitsStep st = true then 0 else
          o st.made * st.markedBelow scorer (totalWeight g sentence scorer p)
            (totalMarked g sentence scorer p f)).sum =
      (steps.map fun st => if p.admitsStep st = true then
        o st.made * (st.weight scorer (totalWeight g sentence scorer p) * f st) else 0).sum := by
  let below : Step S → S := fun st => o st.made *
    st.markedBelow scorer (totalWeight g sentence scorer p) (totalMarked g sentence scorer p f)
  have hsplit : (steps.map below).sum =
      (steps.map fun st => if p.admitsStep st = true then 0 else below st).sum +
        (steps.map fun st => if p.admitsStep st = true then below st else 0).sum := by
    rw [← List.sum_map_add]
    refine congrArg List.sum (List.map_congr_left fun st _ => ?_)
    split <;> simp
  -- what admitted steps pass on is on both sides
  refine add_right_cancel
    (b := (steps.map fun st => if p.admitsStep st = true then below st else 0).sum) ?_
  rw [add_assoc, ← hsplit]
  exact (h.sum_mul hg hsteps hV _).symm.trans (hsteps.sum_mul_totalMarked hg hV hp f)

/-- **The marked weight of the root, and what rejected steps add to it, is the sum of the
marks**, each with the outside score of what the step makes and the weight of the
step. -/
theorem OutsideScores.totalMarked_add (f : Step S → S) :
    totalMarked g sentence scorer p f ⟨g.root, 0, sentence.length⟩ +
        (steps.map fun st => if p.admitsStep st = true then 0 else
          o st.made * st.markedWeight scorer (totalWeight g sentence scorer p) f
            (totalMarked g sentence scorer p f)).sum =
      (steps.map fun st =>
        o st.made * (st.weight scorer (totalWeight g sentence scorer p) * f st)).sum := by
  let I := totalWeight g sentence scorer p
  let M := totalMarked g sentence scorer p f
  have hrejected : (steps.map fun st => if p.admitsStep st = true then 0 else
        o st.made * st.markedWeight scorer I f M).sum =
      (steps.map fun st => if p.admitsStep st = true then 0 else
        o st.made * st.markedBelow scorer I M).sum +
      (steps.map fun st => if p.admitsStep st = true then 0 else
        o st.made * (st.weight scorer I * f st)).sum := by
    rw [← List.sum_map_add]
    refine congrArg List.sum (List.map_congr_left fun st _ => ?_)
    split
    · rw [add_zero]
    · exact (mul_add _ _ _).trans (add_comm _ _)
  rw [hrejected, ← add_assoc, h.totalMarked_add_below hg hsteps hV hp f, ← List.sum_map_add]
  refine congrArg List.sum (List.map_congr_left fun st _ => ?_)
  split <;> simp [I]

end

/-! ## Idle steps -/

/-- Rejected steps are idle: what they make has no outside score, or nothing that is
made with them has weight. -/
def Idle (g : Grammar S) (sentence : List Symbol) (scorer : Scorer S) (p : CellPredicate S)
    (steps : List (Step S)) (o : Constituent → S) : Prop :=
  ∀ st ∈ steps, p.admitsStep st = false → o st.made = 0 ∨
    ∀ d ∈ st.expansions (derivationList g sentence scorer p), d.weight scorer = 0

/-- What a predicate rejects by the span alone has no derivations. -/
theorem CellPredicate.SpanOnly.idle (hp : p.SpanOnly) (h : OutsideScores scorer I top steps o)
    (hsteps : ListsSteps g sentence V steps) (hV : V.Total g sentence scorer p)
    (htop : (V top.symbol top.start top.stop).isSome = true) :
    Idle g sentence scorer p steps o := by
  intro st hst hrejected
  by_contra hne
  -- a derivation of what the step makes shows that its span is admitted
  obtain ⟨d, _, ⟨hadmitted, _⟩, _, hs, he⟩ := (hV.isSome_iff _ _ _).mp
    (h.isSome (fun st hst c hc => hsteps.isSome_of_mem_children hst hc) htop
      fun hzero => hne (.inl hzero))
  have hadmits : p.admitsStep st = true := by
    rw [CellPredicate.admitsStep, show st.start = d.start from hs.symm,
      show st.stop = d.stop from he.symm]
    exact (hp _ _ _ _ _ _ _ _).trans hadmitted
  rw [hadmits] at hrejected
  cases hrejected

theorem Step.weight_eq_zero {start stop : Nat} {st : Step S}
    (hst : st ∈ g.steps sentence start stop)
    (hzero : ∀ d ∈ st.expansions (derivationList g sentence scorer p), d.weight scorer = 0) :
    st.weight scorer (totalWeight g sentence scorer p) = 0 := by
  refine (Step.sum_weight_expansions (fun y s e d hd => mem_of_mem_listing hd) hst).symm.trans
    (List.sum_eq_zero fun v hv => ?_)
  obtain ⟨d, hd, rfl⟩ := List.mem_map.mp hv
  exact hzero d hd

theorem Idle.weight_eq_zero (h : Idle g sentence scorer p steps o)
    (hsteps : ListsSteps g sentence V steps) {st : Step S} (hst : st ∈ steps)
    (hrejected : p.admitsStep st = false) :
    o st.made * st.weight scorer (totalWeight g sentence scorer p) = 0 := by
  rcases h st hst hrejected with hzero | hzero
  · rw [hzero, zero_mul]
  · rw [Step.weight_eq_zero ((hsteps.mem_iff st).mp hst).1 hzero, mul_zero]

theorem Idle.markedWeight_eq_zero (h : Idle g sentence scorer p steps o)
    (hsteps : ListsSteps g sentence V steps) (f : Step S → S) {st : Step S} (hst : st ∈ steps)
    (hrejected : p.admitsStep st = false) :
    o st.made * st.markedWeight scorer (totalWeight g sentence scorer p) f
      (totalMarked g sentence scorer p f) = 0 := by
  rcases h st hst hrejected with hzero | hzero
  · rw [hzero, zero_mul]
  · rw [Step.markedWeight_eq_sum ((hsteps.mem_iff st).mp hst).1, List.sum_eq_zero, mul_zero]
    intro v hv
    obtain ⟨d, hd, rfl⟩ := List.mem_map.mp hv
    rw [Derivation.markedWeight, hzero d hd, zero_mul]

/-! ## Questions answered -/

omit [Score S] in
/-- A sum over the elements of a set that pass a test. -/
theorem sum_listing_ite {α : Type} {D : Set α} (h : D.Finite) (P : α → Prop) [DecidablePred P]
    (w : α → S) :
    ((listing D).map fun a => if P a then w a else 0).sum = ∑ᶠ a ∈ { a | a ∈ D ∧ P a }, w a := by
  rw [sum_listing h]
  refine finsum_congr fun a => ?_
  by_cases hD : a ∈ D <;> by_cases hP : P a <;> simp [hD, hP]

omit [Score S] in
/-- Steps of one kind are those that are marked with one. -/
theorem sum_kind (P : Step S → Prop) [DecidablePred P] (w : Step S → S) :
    (steps.map fun st => if P st then o st.made * w st else 0).sum =
      (steps.map fun st => o st.made * (w st * if P st then 1 else 0)).sum := by
  refine congrArg List.sum (List.map_congr_left fun st _ => ?_)
  rw [mul_ite, mul_one, mul_zero, mul_ite, mul_zero]

/-- Marking the applications of a rule counts them. -/
theorem totalMarked_applications (hg : g.Indexed) (hp : p.ScoreFree) (id : RuleId)
    (sym : Symbol) (start stop : Nat) :
    totalMarked g sentence scorer p (fun st => if st.rule.id = id then 1 else 0)
      ⟨sym, start, stop⟩ =
      ∑ᶠ d ∈ derivations g sentence scorer p sym start stop,
        d.weight scorer * (d.applications id : S) := by
  rw [← sum_listing (finite_derivations hg hp _ _ _ _ _)]
  refine congrArg List.sum (List.map_congr_left fun d _ => ?_)
  rw [Derivation.markedWeight, sum_ite_one]
  rfl

/-- Marking the steps that read a token marks every derivation over it once. -/
theorem totalMarked_reads (position : Nat) {sym : Symbol} {start stop : Nat}
    (h₁ : start ≤ position) (h₂ : position < stop) :
    totalMarked g sentence scorer p (fun st => if st.reads position then 1 else 0)
      ⟨sym, start, stop⟩ = totalWeight g sentence scorer p sym start stop := by
  unfold totalMarked totalWeight
  refine congrArg List.sum (List.map_congr_left fun d hd => ?_)
  obtain ⟨hvalid, _, _, hs, he⟩ := mem_of_mem_listing hd
  rw [Derivation.markedWeight, hvalid.sum_reads, if_pos (by rw [hs, he]; exact ⟨h₁, h₂⟩), mul_one]

/-- The derivations of the sentence that have a constituent. -/
def derivationsWith (g : Grammar S) (sentence : List Symbol) (scorer : Scorer S)
    (p : CellPredicate S) (c : Constituent) : Set (Derivation S) :=
  { d | d ∈ derivations g sentence scorer p g.root 0 sentence.length ∧ d.Has c }

section

variable [IsCancelAdd S]
  (h : OutsideScores scorer (totalWeight g sentence scorer p) ⟨g.root, 0, sentence.length⟩ steps o)
  (hg : g.Indexed) (hsteps : ListsSteps g sentence V steps) (hV : V.Total g sentence scorer p)
  (hp : p.ScoreFree) (hidle : Idle g sentence scorer p steps o)

include h hg hsteps hV hp hidle

/-- **If rejected steps are idle, the marked weight of the root is the sum of the
marks.** -/
theorem OutsideScores.totalMarked_root (f : Step S → S) :
    totalMarked g sentence scorer p f ⟨g.root, 0, sentence.length⟩ =
      (steps.map fun st =>
        o st.made * (st.weight scorer (totalWeight g sentence scorer p) * f st)).sum := by
  rw [← h.totalMarked_add hg hsteps hV hp f, List.sum_eq_zero, add_zero]
  intro v hv
  obtain ⟨st, hst, rfl⟩ := List.mem_map.mp hv
  split
  · rfl
  · rename_i hrejected
    exact hidle.markedWeight_eq_zero hsteps f hst (Bool.eq_false_iff.mpr hrejected)

/-- The steps of one kind, each with the outside score of what it makes, are the marked
weight of the root. -/
theorem OutsideScores.sum_steps (P : Step S → Prop) [DecidablePred P] :
    (steps.map fun st => if P st then
      o st.made * st.weight scorer (totalWeight g sentence scorer p) else 0).sum =
      totalMarked g sentence scorer p (fun st => if P st then 1 else 0)
        ⟨g.root, 0, sentence.length⟩ :=
  (sum_kind P _).trans (h.totalMarked_root hg hsteps hV hp hidle _).symm

/-- **What is inside a constituent times what is outside** is the weight of the
derivations that have it. -/
theorem OutsideScores.mul_totalWeight [WeightScore S] (c : Constituent) :
    o c * totalWeight g sentence scorer p c.symbol c.start c.stop =
      ∑ᶠ d ∈ derivationsWith g sentence scorer p c, d.weight scorer := by
  have hweight : V.weight = totalWeight g sentence scorer p := by
    funext sym start stop
    exact hV.weight_eq sym start stop
  have hzero : ∀ st : Step S, (st.application? V).isSome = false →
      st.weight scorer (totalWeight g sentence scorer p) = 0 := by
    intro st happ
    rw [← hweight, st.weight_eq V scorer]
    cases ha : st.application? V with
    | none => rfl
    | some a =>
      rw [ha] at happ
      cases happ
  have hadmitted : (steps.map fun st => if st.made = c ∧ p.admitsStep st = true then
        o st.made * st.weight scorer (totalWeight g sentence scorer p) else 0).sum =
      (steps.map fun st => if st.made = c then
        o st.made * st.weight scorer (totalWeight g sentence scorer p) else 0).sum := by
    refine congrArg List.sum (List.map_congr_left fun st hst => ?_)
    by_cases hadmits : p.admitsStep st = true
    · simp only [hadmits, and_true]
    · rw [hidle.weight_eq_zero hsteps hst (Bool.eq_false_iff.mpr hadmits), ite_self, ite_self]
  rw [totalWeight_eq hg hp, hsteps.mul_sum hg p o _ hzero, hadmitted,
    h.sum_steps hg hsteps hV hp hidle]
  calc totalMarked g sentence scorer p (fun st => if st.made = c then 1 else 0)
        ⟨g.root, 0, sentence.length⟩
      = ((derivationList g sentence scorer p g.root 0 sentence.length).map fun d =>
          if d.Has c then d.weight scorer else 0).sum := by
        refine congrArg List.sum (List.map_congr_left fun d hd => ?_)
        rw [Derivation.markedWeight, (mem_of_mem_listing hd).1.sum_made hg, mul_ite, mul_one,
          mul_zero]
    _ = ∑ᶠ d ∈ derivationsWith g sentence scorer p c, d.weight scorer :=
        sum_listing_ite (finite_derivations hg hp _ _ _ _ _) _ _

/-- **What the steps of a rule pass on** is the weight of the derivations, each counted
as often as it applies the rule. -/
theorem OutsideScores.sum_applications (id : RuleId) :
    (steps.map fun st => if st.rule.id = id then
      o st.made * st.weight scorer (totalWeight g sentence scorer p) else 0).sum =
      ∑ᶠ d ∈ derivations g sentence scorer p g.root 0 sentence.length,
        d.weight scorer * (d.applications id : S) := by
  rw [h.sum_steps hg hsteps hV hp hidle, totalMarked_applications hg hp]

end

end

end ChartParsing
