import ChartParsing.Proofs.Outside.Duality

/-!
# What an outside pass gets to

A pass goes down from the root through every step that applies, and it does not ask
again whether the step was admitted. So it gets to whatever the root can be taken apart
into, by steps with weight between constituents that have derivations. `Reached` says
so without speaking of a pass, and outside scores are not zero exactly there.

Rejected steps are idle if none of them takes apart what is reached, and they have to be
for the marks to sum up to the marked weight of the root. The tokens show it already:
each of them is read once in every derivation, so each has the total as its outside
score, and something on top if a rejected step covers it.
-/

namespace ChartParsing

variable {S : Type} [Score S] [Semifield S] {g : Grammar S} {sentence : List Symbol}
  {scorer : Scorer S} {p : CellPredicate S} {V : Values S} {steps : List (Step S)}
  {o : Constituent → S}

/-- What the root over the whole sentence can be taken apart into. Everything a step is
made from has to have derivations, and the step and the sibling have weight, but the step
may be a rejected one. -/
inductive Reached (g : Grammar S) (sentence : List Symbol) (scorer : Scorer S)
    (p : CellPredicate S) : Constituent → Prop
  | root : Reached g sentence scorer p ⟨g.root, 0, sentence.length⟩
  | child {st : Step S} {x : Constituent × S} : Reached g sentence scorer p st.made →
      st ∈ g.steps sentence st.start st.stop →
      (∀ c ∈ st.children,
        (derivations g sentence scorer p c.symbol c.start c.stop).Nonempty) →
      x ∈ st.slots (totalWeight g sentence scorer p) →
      Derivation.stepScore scorer st * x.2 ≠ 0 → Reached g sentence scorer p x.1

/-- No application that the predicate rejects is in reach: derivations of something
reached that are admitted but for the top have no weight. -/
def CellPredicate.Unreached (p : CellPredicate S) (g : Grammar S) (sentence : List Symbol)
    (scorer : Scorer S) : Prop :=
  ∀ d : Derivation S, d.Valid g sentence → d.PartsAdmitted scorer p →
    ¬ d.TopAdmitted scorer p → Reached g sentence scorer p ⟨d.symbol, d.start, d.stop⟩ →
    d.weight scorer = 0

/-- Below the root, what is reached has derivations. -/
theorem Reached.nonempty {c : Constituent} (h : Reached g sentence scorer p c) :
    c = ⟨g.root, 0, sentence.length⟩ ∨
      (derivations g sentence scorer p c.symbol c.start c.stop).Nonempty := by
  cases h with
  | root => exact .inl rfl
  | child _ _ hchildren hx _ =>
    exact .inr (hchildren _ (Step.mem_children_of_mem_slots hx))

omit [Semifield S] in
/-- What an admitted part derives has derivations. -/
theorem Derivation.Valid.nonempty_of_mem_children {d : Derivation S} (h : d.Valid g sentence)
    (hparts : d.PartsAdmitted scorer p) :
    ∀ c ∈ d.top.children, (derivations g sentence scorer p c.symbol c.start c.stop).Nonempty := by
  intro c hc
  unfold Step.children at hc
  cases d with
  | lexical r position =>
    obtain ⟨_, t, hrhs, _⟩ := h
    simp [top, rule, hrhs] at hc
  | unary r child =>
    obtain ⟨_, hrhs, hchild⟩ := h
    simp only [top, rule, hrhs, List.mem_singleton] at hc
    rw [hc]
    exact ⟨child, hchild, hparts, rfl, rfl, rfl⟩
  | binary r left right =>
    obtain ⟨_, hrhs, hmid, hl, hr⟩ := h
    simp only [top, rule, hrhs, List.mem_cons, List.not_mem_nil, or_false] at hc
    rcases hc with hc | hc
    · rw [hc]
      exact ⟨left, hl, hparts.1, rfl, rfl, rfl⟩
    · rw [hc]
      exact ⟨right, hr, hparts.2, rfl, hmid.symm, rfl⟩

/-! ## Outside scores -/

/-- A step applies if what it is made from has derivations. -/
theorem Values.Total.isSome_application? (hV : V.Total g sentence scorer p) {st : Step S}
    (hchildren : ∀ c ∈ st.children,
      (derivations g sentence scorer p c.symbol c.start c.stop).Nonempty) :
    (st.application? V).isSome = true := by
  have hsome : ∀ c ∈ st.children, (V c.symbol c.start c.stop).isSome = true := fun c hc =>
    (hV.isSome_iff _ _ _).mpr (hchildren c hc)
  rw [Step.isSome_application?]
  unfold Step.children at hsome
  cases hrhs : st.rule.rhs with
  | lexical t => rfl
  | unary y =>
    rw [hrhs] at hsome
    exact hsome _ (List.mem_singleton_self _)
  | binary y z =>
    rw [hrhs] at hsome
    exact Bool.and_eq_true_iff.mpr
      ⟨hsome ⟨y, st.start, st.mid⟩ (by simp), hsome ⟨z, st.mid, st.stop⟩ (by simp)⟩

section

variable [LinearOrder S] [IsStrictOrderedRing S] [CanonicallyOrderedAdd S]
  (h : OutsideScores scorer (totalWeight g sentence scorer p) ⟨g.root, 0, sentence.length⟩ steps o)
  (hg : g.Indexed) (hsteps : ListsSteps g sentence V steps) (hV : V.Total g sentence scorer p)

include h hg hsteps hV

/-- **Outside scores are not zero exactly where a pass gets to.** -/
theorem OutsideScores.ne_zero_iff (c : Constituent) :
    o c ≠ 0 ↔ Reached g sentence scorer p c := by
  refine ⟨?_, ?_⟩
  · refine h.induction hg hsteps hV .root (fun st hst c hflow hmade => ?_) c
    obtain ⟨x, hx, rfl, hpos⟩ := st.exists_slot hflow
    exact .child hmade ((hsteps.mem_iff st).mp hst).1
      (fun c hc => (hV.isSome_iff _ _ _).mp (hsteps.isSome_of_mem_children hst hc)) hx
      (right_ne_zero_of_mul hpos)
  · intro hreached
    induction hreached with
    | root =>
      rw [h.top_eq]
      exact one_ne_zero
    | @child st x _ hvalid hchildren hx hweight ih =>
      have hst : st ∈ steps := (hsteps.mem_iff st).mpr ⟨hvalid, hV.isSome_application? hchildren⟩
      -- one flow is among those that are summed up
      have hflow : o st.made * (Derivation.stepScore scorer st * x.2) ≤
          st.flow scorer (totalWeight g sentence scorer p) o x.1 :=
        List.single_le_sum (fun _ _ => zero_le) _ (List.mem_map.mpr ⟨x, hx, if_pos rfl⟩)
      have hsum : st.flow scorer (totalWeight g sentence scorer p) o x.1 ≤ o x.1 := by
        rw [h.eq_add hg hsteps hV x.1]
        have hone := List.single_le_sum (l := steps.map fun st =>
          st.flow scorer (totalWeight g sentence scorer p) o x.1) (fun _ _ => zero_le) _
          (List.mem_map_of_mem hst)
        exact hone.trans le_add_self
      exact ((pos_iff_ne_zero.mpr (mul_ne_zero ih hweight)).trans_le (hflow.trans hsum)).ne'

/-! ## Rejected steps -/

/-- Rejected steps are idle if they are not in reach, and only then. -/
theorem OutsideScores.idle_iff (hp : p.ScoreFree) :
    Idle g sentence scorer p steps o ↔ p.Unreached g sentence scorer := by
  have hne := h.ne_zero_iff hg hsteps hV
  refine ⟨?_, ?_⟩
  · intro hidle d hvalid hparts hrejected hreached
    have hst : d.top ∈ steps := (hsteps.mem_iff _).mpr
      ⟨hvalid.top_mem_steps, hV.isSome_application? (hvalid.nonempty_of_mem_children hparts)⟩
    have hadmits : p.admitsStep d.top = false := by
      rw [hp.topAdmitted_iff] at hrejected
      exact Bool.eq_false_iff.mpr hrejected
    have hlisted : ∀ y s e, ∀ d' ∈ derivations g sentence scorer p y s e,
        d' ∈ derivationList g sentence scorer p y s e := fun y s e d' hd' =>
      (mem_listing (finite_derivations hg hp _ _ _ _ _)).mpr hd'
    rcases hidle d.top hst hadmits with hzero | hzero
    · exact absurd hzero ((hne _).mpr hreached)
    · exact hzero d (hvalid.mem_expansions hg hparts (fun y s e _ => hlisted y s e)
        fun y _ => hlisted y _ _)
  · intro hunreached st hst hrejected
    refine or_iff_not_imp_left.mpr fun hmade d hd => ?_
    have hmem := ((hsteps.mem_iff st).mp hst).1
    have hbelow : ∀ y s e, ∀ d ∈ derivationList g sentence scorer p y s e,
        d ∈ derivations g sentence scorer p y s e := fun y s e d hd => mem_of_mem_listing hd
    obtain ⟨hvalid, hparts⟩ := Step.valid_of_mem_expansions hbelow hmem hd
    have htop := Step.top_of_mem_expansions hbelow hmem hd
    refine hunreached d hvalid hparts (fun hadmitted => ?_) ?_
    · rw [hp.topAdmitted_iff, htop, hrejected] at hadmitted
      cases hadmitted
    · rw [show (⟨d.symbol, d.start, d.stop⟩ : Constituent) = d.top.made from rfl, htop]
      exact (hne _).mp hmade

/-- Rejected steps are idle if for each of them there are marks that it would show in, and
that sum up to the marked weight of the root all the same. -/
theorem OutsideScores.idle_of_totalMarked (hp : p.ScoreFree)
    (hmarks : ∀ st ∈ steps, p.admitsStep st = false → ∃ f : Step S → S,
      totalMarked g sentence scorer p f ⟨g.root, 0, sentence.length⟩ = (steps.map fun st =>
        o st.made * (st.weight scorer (totalWeight g sentence scorer p) * f st)).sum ∧
      ∀ d ∈ st.expansions (derivationList g sentence scorer p), (d.steps.map f).sum ≠ 0) :
    Idle g sentence scorer p steps o := by
  intro st hst hrejected
  obtain ⟨f, hsame, hshow⟩ := hmarks st hst hrejected
  -- what rejected steps add is nothing, so what each of them adds is nothing
  have hadded := left_eq_add.mp (hsame.trans (h.totalMarked_add hg hsteps hV hp f).symm)
  have hst₀ := List.sum_eq_zero_iff.mp hadded _ (List.mem_map_of_mem hst)
  rw [if_neg (by rw [hrejected]; exact Bool.false_ne_true),
    Step.markedWeight_eq_sum ((hsteps.mem_iff st).mp hst).1] at hst₀
  refine (mul_eq_zero.mp hst₀).imp_right fun hzero d hd => ?_
  have hd₀ := List.sum_eq_zero_iff.mp hzero _ (List.mem_map_of_mem hd)
  exact (mul_eq_zero.mp hd₀).resolve_right (hshow d hd)

/-! ## Tokens -/

/-- **Each token has the total as its outside score exactly if rejected steps are
idle.** -/
theorem OutsideScores.idle_iff_sum_reads (hp : p.ScoreFree) :
    Idle g sentence scorer p steps o ↔ ∀ position, position < sentence.length →
      (steps.map fun st => if st.reads position then
        o st.made * st.weight scorer (totalWeight g sentence scorer p) else 0).sum =
        totalWeight g sentence scorer p g.root 0 sentence.length := by
  refine ⟨?_, ?_⟩
  · intro hidle position hposition
    rw [h.sum_steps hg hsteps hV hp hidle, totalMarked_reads position (Nat.zero_le _) hposition]
  · intro htokens
    refine h.idle_of_totalMarked hg hsteps hV hp fun st hst _ => ?_
    -- the first token that the step covers shows it
    obtain ⟨hvalid, hstart, hstop⟩ := hsteps.span hV hst
    refine ⟨fun st' => if st'.reads st.start then 1 else 0, ?_, fun d hd => ?_⟩
    · rw [← sum_kind, htokens _ (hstart.trans_le hstop),
        totalMarked_reads _ (Nat.zero_le _) (hstart.trans_le hstop)]
    · have hbelow : ∀ y s e, ∀ d ∈ derivationList g sentence scorer p y s e,
          d ∈ derivations g sentence scorer p y s e := fun y s e d hd => mem_of_mem_listing hd
      have hsame : d.start = st.start :=
        congrArg Step.start (Step.top_of_mem_expansions hbelow hvalid hd)
      obtain ⟨hd', _⟩ := Step.valid_of_mem_expansions hbelow hvalid hd
      rw [hd'.sum_reads, if_pos ⟨hsame.le, hsame ▸ hd'.span.1⟩]
      exact one_ne_zero

/-- Rejected steps are idle if each rule passes on the weight of its applications. -/
theorem OutsideScores.idle_of_sum_applications (hp : p.ScoreFree)
    (hcounts : ∀ r ∈ g.rules, (steps.map fun st => if st.rule.id = r.id then
        o st.made * st.weight scorer (totalWeight g sentence scorer p) else 0).sum =
      ∑ᶠ d ∈ derivations g sentence scorer p g.root 0 sentence.length,
        d.weight scorer * (d.applications r.id : S)) :
    Idle g sentence scorer p steps o := by
  refine h.idle_of_totalMarked hg hsteps hV hp fun st hst _ => ?_
  obtain ⟨hvalid, _⟩ := (hsteps.mem_iff st).mp hst
  refine ⟨fun st' => if st'.rule.id = st.rule.id then 1 else 0, ?_, fun d hd => ?_⟩
  · rw [← sum_kind, hcounts _ (Grammar.mem_steps.mp hvalid).1, totalMarked_applications hg hp]
  · have htop := Step.top_of_mem_expansions (fun y s e d hd => mem_of_mem_listing hd) hvalid hd
    rw [sum_ite_one]
    refine Nat.cast_ne_zero.mpr (List.countP_pos_iff.mpr ⟨st, ?_, by simp⟩).ne'
    rw [← htop]
    exact d.top_mem

end

end ChartParsing
