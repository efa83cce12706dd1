import ChartParsing.Proofs.Grammar.Rules
import ChartParsing.Proofs.Outside.Alike

/-!
# Writing the tables of a posterior

Adding to an outside score or to a count succeeds wherever there is a place for it.
What it does can then be said as an update, without any fault to think of.
-/

namespace ChartParsing.Posterior

variable {S P C : Type} [Score S] [Probability P] [Sharing S P]

/-- The entry of the table of outside scores at a symbol and span. -/
def outsideAt (p : Posterior S P) (sym : Symbol) (start stop : Nat) : Option S :=
  p.outside.entries[p.outside.place sym start stop]?

/-- A score pooled into an outside score, that of the root excepted. -/
def withOutside (sym : Symbol) (start stop : Nat) (score : S) (p : Posterior S P) :
    Posterior S P :=
  if sym = p.root ∧ start = 0 ∧ stop = p.tokens then p
  else
    let entries := p.outside.entries.modify (p.outside.place sym start stop) fun old =>
      Score.pool old score
    { p with outside := { p.outside with entries } }

/-- A rule counted with its share of the total. -/
def withCount (total : S) (rule : Rule S) (joint : S) (p : Posterior S P) : Posterior S P :=
  if Score.exceeds joint Score.impossible then
    let ruleCounts := p.ruleCounts.modify rule.id.index fun count =>
      Probability.add count (Sharing.share joint total)
    { p with ruleCounts }
  else p

variable {chart : Chart S C} {p : Posterior S P} {total : S}

/-! ## Updates keep the shape of the tables -/

omit [Probability P] [Sharing S P] in
theorem sized_withOutside (h : p.Sized chart) (sym : Symbol) (start stop : Nat) (score : S) :
    (p.withOutside sym start stop score).Sized chart := by
  unfold withOutside
  split
  · exact h
  · exact ⟨h.tokens_eq, ⟨h.outside_full.tokens_eq, h.outside_full.width_eq,
      Array.size_modify.trans h.outside_full.size_eq⟩, h.counts_size⟩

theorem sized_withCount (h : p.Sized chart) (total : S) (rule : Rule S) (joint : S) :
    (p.withCount total rule joint).Sized chart := by
  unfold withCount
  split
  · exact ⟨h.tokens_eq, h.outside_full, Array.size_modify.trans h.counts_size⟩
  · exact h

/-! ## Reading and writing succeed -/

omit [Score S] [Probability P] [Sharing S P] in
theorem Sized.get_ok (h : p.Sized chart) {c : Constituent}
    (hc : SpanTable.Fits c chart.length chart.grammar.nonterminalCount) :
    ∃ v, p.outside.get c.symbol c.start c.stop = .ok v ∧
      p.outsideAt c.symbol c.start c.stop = some v := by
  have hentry := Array.getElem?_eq_getElem (h.outside_full.place_lt hc)
  exact ⟨_, by rw [SpanTable.get, hentry], hentry⟩

omit [Score S] [Probability P] [Sharing S P] in
/-- Every rule of the grammar has a count. -/
theorem Sized.id_lt (h : p.Sized chart) (hg : chart.grammar.Indexed) {rule : Rule S}
    (hrule : rule ∈ chart.grammar.rules) : rule.id.index < p.ruleCounts.size := by
  obtain ⟨i, hi⟩ := Array.mem_iff_getElem?.mp hrule
  rw [hg.number i rule hi, h.counts_size]
  exact (Array.getElem?_eq_some_iff.mp hi).1

theorem setIfInBounds_eq_modify {α : Type} {xs : Array α} {i : Nat} {a : α} (h : xs[i]? = some a)
    (f : α → α) : xs.setIfInBounds i (f a) = xs.modify i f := by
  refine Array.ext_getElem? fun j => ?_
  rw [Array.getElem?_setIfInBounds, Array.getElem?_modify]
  by_cases hij : i = j
  · subst hij
    obtain ⟨hlt, rfl⟩ := Array.getElem?_eq_some_iff.mp h
    simp [hlt]
  · simp [hij]

omit [Probability P] [Sharing S P] in
theorem addOutside_eq (h : p.Sized chart) {c : Constituent}
    (hc : SpanTable.Fits c chart.length chart.grammar.nonterminalCount) (score : S) :
    p.addOutside c.symbol c.start c.stop score =
      .ok (p.withOutside c.symbol c.start c.stop score) := by
  unfold addOutside withOutside
  split
  · rfl
  · have hplace := h.outside_full.place_lt hc
    obtain ⟨old, hget, hold⟩ := h.get_ok hc
    have hset : p.outside.set c.symbol c.start c.stop (Score.pool old score) = .ok
        { p.outside with
          entries := p.outside.entries.modify (p.outside.place c.symbol c.start c.stop)
            fun old => Score.pool old score } := by
      rw [SpanTable.set, if_pos hplace,
        ← setIfInBounds_eq_modify hold fun old => Score.pool old score]
    rw [hget]
    show (p.outside.set c.symbol c.start c.stop (Score.pool old score) >>= _) = _
    rw [hset]
    rfl

theorem addCount_eq {rule : Rule S} (h : rule.id.index < p.ruleCounts.size) (joint : S) :
    p.addCount total rule joint = .ok (p.withCount total rule joint) := by
  unfold addCount withCount
  split
  · rw [Array.getElem?_eq_getElem h]
    simp only
    rw [setIfInBounds_eq_modify (Array.getElem?_eq_getElem h) fun count =>
      Probability.add count (Sharing.share joint total)]
  · rfl

end ChartParsing.Posterior
