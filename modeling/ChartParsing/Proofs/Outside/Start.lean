import ChartParsing.Proofs.Chart.Filled
import ChartParsing.Proofs.Outside.Pass

/-!
# Before the outside pass

Before a pass the inside table takes over what the cells hold, and the outside table
has certainty at the root and nothing else. Cells list the symbols that are present,
so everything else keeps the weight zero that a new table has. The result is the
state of a pass that has gone through no step.
-/

namespace ChartParsing.Posterior

variable {S C : Type} [Semifield S] [Score S] [Probability S] [Sharing S S] [LinearOrder S]
  [ShareScore S] {chart : Chart S C}

/-- A table that has taken over the weights over some spans. Where it has not, it has
either zero or the weight already. -/
structure Reading (chart : Chart S C) (spans : List (Nat × Nat)) (table : SpanTable S) : Prop where
  full : table.Full chart.length chart.grammar.nonterminalCount
  sound : ∀ c, table.weight c = 0 ∨ table.weight c = chart.values.weight c.symbol c.start c.stop
  read : ∀ c, (c.start, c.stop) ∈ spans →
    table.weight c = chart.values.weight c.symbol c.start c.stop

omit [Score S] [Probability S] [Sharing S S] [LinearOrder S] [ShareScore S] in
/-- What is absent has weight zero, in the table as in the chart. -/
theorem Reading.weight_of_none {spans : List (Nat × Nat)} {table : SpanTable S}
    (h : Reading chart spans table) {c : Constituent}
    (hnone : chart.values c.symbol c.start c.stop = none) :
    table.weight c = chart.values.weight c.symbol c.start c.stop := by
  rcases h.sound c with hzero | hright
  · rw [hzero, Values.weight, hnone]
    rfl
  · exact hright

/-- A table over some spans and some symbols of another one. -/
structure ReadingCell (chart : Chart S C) (spans : List (Nat × Nat)) (start stop : Nat)
    (symbols : List Symbol) (table : SpanTable S) : Prop extends Reading chart spans table where
  cell : ∀ sym ∈ symbols, table.weight ⟨sym, start, stop⟩ = chart.values.weight sym start stop

omit [Score S] [Probability S] [Sharing S S] [LinearOrder S] [ShareScore S] in
/-- Writing the weight of one more symbol. -/
theorem ReadingCell.set {spans : List (Nat × Nat)} {start stop : Nat} {symbols : List Symbol}
    {table : SpanTable S} (h : ReadingCell chart spans start stop symbols table) {sym : Symbol}
    (hfits : SpanTable.Fits ⟨sym, start, stop⟩ chart.length chart.grammar.nonterminalCount) :
    ∃ table', table.set sym start stop (chart.values.weight sym start stop) = .ok table' ∧
      ReadingCell chart spans start stop (symbols ++ [sym]) table' := by
  obtain ⟨table', hset, hfull, hweight⟩ := h.full.set_ok hfits (chart.values.weight sym start stop)
  -- right weights stay right, whatever is written
  have hkeep : ∀ c, table.weight c = chart.values.weight c.symbol c.start c.stop →
      table'.weight c = chart.values.weight c.symbol c.start c.stop := by
    intro c hc
    rw [hweight]
    by_cases heq : c = ⟨sym, start, stop⟩
    · rw [heq, Function.update_self]
    · rw [Function.update_of_ne heq, hc]
  refine ⟨table', hset, ⟨⟨hfull, fun c => ?_, fun c hc => hkeep c (h.read c hc)⟩, ?_⟩⟩
  · rcases h.sound c with hzero | hc
    · by_cases heq : c = ⟨sym, start, stop⟩
      · right
        rw [hweight, heq, Function.update_self]
      · left
        rw [hweight, Function.update_of_ne heq, hzero]
    · exact .inr (hkeep c hc)
  · intro sym' hsym'
    rcases List.mem_append.mp hsym' with hold | hnew
    · exact hkeep ⟨sym', start, stop⟩ (h.cell sym' hold)
    · rw [List.mem_singleton.mp hnew, hweight, Function.update_self]

/-- Taking over the weights over one more span. -/
theorem readInside_ok (hchart : chart.Readable) {spans : List (Nat × Nat)} {start stop : Nat}
    (h₁ : start < stop) (h₂ : stop ≤ chart.length) {p : Posterior S S}
    (h : Reading chart spans p.inside) :
    ∃ inside, readInside chart p (start, stop) = .ok { p with inside } ∧
      Reading chart (spans ++ [(start, stop)]) inside := by
  obtain ⟨cell, hcell, hshut⟩ := hchart.cell_ok start stop h₁ h₂
  have hvalue := Chart.values_of_cell hcell
  have hset : ∀ gone sym todo table, cell.store.symbols = gone ++ sym :: todo →
      ReadingCell chart spans start stop gone table →
      ∃ table', table.set sym start stop (cell.score sym) = .ok table' ∧
        ReadingCell chart spans start stop (gone ++ [sym]) table' := by
    intro gone sym todo table hsymbols htable
    have hsome : (chart.values sym start stop).isSome = true := by
      rw [hvalue, Option.isSome_iff_exists, ← hshut.mem_symbols, hsymbols]
      simp
    rw [Cell.score_eq_getD, ← hvalue]
    exact htable.set (hchart.fits_of_isSome hsome)
  obtain ⟨inside, hfold, hread⟩ := foldlM_eq_ok (b := p.inside)
    (ReadingCell chart spans start stop) ⟨h, by simp⟩ hset
  refine ⟨inside, ?_, hread.full, hread.sound, fun c hc => ?_⟩
  · unfold readInside
    show (chart.cell start stop >>= _ : Except Fault (Posterior S S)) = _
    rw [hcell]
    show (cell.symbols >>= _ : Except Fault (Posterior S S)) = _
    rw [hshut.symbols_eq]
    show (List.foldlM _ p.inside cell.store.symbols >>= _ : Except Fault (Posterior S S)) = _
    rw [hfold]
    rfl
  rcases List.mem_append.mp hc with hold | hnew
  · exact hread.read c hold
  -- present symbols are listed, and absent ones need no reading
  obtain ⟨sym, s, e⟩ := c
  obtain ⟨rfl, rfl⟩ := Prod.mk.inj (List.mem_singleton.mp hnew)
  cases hv : cell.value? sym with
  | some v => exact hread.cell sym (hshut.mem_symbols.mpr ⟨v, hv⟩)
  | none => exact hread.weight_of_none ((hvalue sym).trans hv)

omit [ShareScore S] [Probability S] [Sharing S S] [LinearOrder S] in
theorem reading_replicate (h : (Score.impossible : S) = 0) :
    Reading chart [] (.replicate chart.length chart.grammar.nonterminalCount Score.impossible) := by
  rw [h]
  exact ⟨SpanTable.full_replicate _ _ _, fun c => .inl (SpanTable.weight_replicate _ _ c), by simp⟩

/-- The weights over all spans are taken over, and nothing else changes. -/
theorem readAll_ok (hchart : chart.Readable) {p : Posterior S S} (h : Reading chart [] p.inside) :
    ∃ inside, (Span.all chart.length).foldlM (readInside chart) p = .ok { p with inside } ∧
      Reading chart (Span.all chart.length) inside := by
  have hspan : ∀ gone span todo (p' : Posterior S S), Span.all chart.length = gone ++ span :: todo →
      (∃ inside, p' = { p with inside } ∧ Reading chart gone inside) →
      ∃ p'', readInside chart p' span = .ok p'' ∧
        ∃ inside, p'' = { p with inside } ∧ Reading chart (gone ++ [span]) inside := by
    intro gone span todo _ hspans hgone
    rcases span with ⟨start, stop⟩
    rcases hgone with ⟨inside, rfl, hread⟩
    have hmem : (start, stop) ∈ Span.all chart.length := by
      rw [hspans]
      simp
    obtain ⟨h₁, h₂⟩ := Span.mem_all.mp hmem
    obtain ⟨inside', hok, hread'⟩ := readInside_ok hchart h₁ h₂ (p := { p with inside }) hread
    exact ⟨_, hok, inside', rfl, hread'⟩
  obtain ⟨_, hfold, inside, rfl, hread⟩ := foldlM_eq_ok (b := p)
    (fun spans p' => ∃ inside, p' = { p with inside } ∧ Reading chart spans inside)
    ⟨p.inside, rfl, h⟩ hspan
  exact ⟨inside, hfold, hread⟩

omit [Score S] [Probability S] [Sharing S S] [LinearOrder S] [ShareScore S] in
/-- Once all spans have been read the table has all weights: those of what is present, and
zero for the rest. -/
theorem Reading.weight_eq {table : SpanTable S}
    (h : Reading chart (Span.all chart.length) table) (c : Constituent) :
    table.weight c = chart.values.weight c.symbol c.start c.stop := by
  cases hv : chart.values c.symbol c.start c.stop with
  | some v => exact h.read c (Span.mem_all.mpr (Chart.span_of_values hv))
  | none => exact h.weight_of_none hv

/-- A new posterior, with the inside scores taken over and certainty outside the root, is
the state of a pass that has gone through no step. -/
theorem pushed_nil (hchart : chart.Readable) {inside outside : SpanTable S}
    (hread : Reading chart (Span.all chart.length) inside)
    (hfull : outside.Full chart.length chart.grammar.nonterminalCount)
    (hweight : ∀ c, outside.weight c =
      if c = ⟨chart.grammar.root, 0, chart.length⟩ then 1 else 0)
    (scorer : Scorer S) (total : S) :
    Pushed chart scorer total []
      { blank chart (chart.values chart.grammar.root 0 chart.length) with inside, outside } := by
  refine ⟨⟨rfl, rfl, rfl, rfl, hread.full, hread.weight_eq⟩, hfull, ⟨?_, fun c hc => ?_⟩,
    fun r hr => ?_, fun position hposition => ?_⟩
  · rw [hweight, if_pos rfl]
  · rw [hweight, if_neg hc]
    rfl
  · obtain ⟨i, hi⟩ := Array.mem_iff_getElem?.mp hr
    obtain ⟨hlt, _⟩ := Array.getElem?_eq_some_iff.mp hi
    rw [hchart.indexed.number i r hi]
    show (Array.replicate chart.grammar.rules.size (Probability.none : S))[i]? = _
    rw [Array.getElem?_replicate, if_pos hlt, ShareScore.none_eq]
    rfl
  · show (Array.replicate chart.length (Score.impossible : S))[position]? = _
    rw [Array.getElem?_replicate, if_pos hposition, WeightScore.impossible_eq]
    rfl

/-- All inside scores are taken over, and with certainty outside the root nothing has
been gone through. -/
theorem ofInside_ok (hchart : chart.Readable) (hlength : 0 < chart.length) :
    ∃ p, ofInside chart = .ok p ∧
      ∀ (scorer : Scorer S) (total : S), Pushed chart scorer total [] p := by
  obtain ⟨cell, hcell, _⟩ := hchart.cell_ok 0 chart.length hlength (Nat.le_refl _)
  have hroot := Chart.rootScore?_of_cell hcell
  rw [← Chart.values_of_cell hcell] at hroot
  let start : Posterior S S := blank chart (chart.values chart.grammar.root 0 chart.length)
  obtain ⟨inside, hfold, hread⟩ := readAll_ok hchart (p := start)
    (reading_replicate WeightScore.impossible_eq)
  have hfits : SpanTable.Fits ⟨chart.grammar.root, 0, chart.length⟩ chart.length
      chart.grammar.nonterminalCount := ⟨hlength, Nat.le_refl _, hchart.indexed.root_lt⟩
  obtain ⟨outside, hset, hfull, hweight⟩ :=
    (SpanTable.full_replicate chart.length chart.grammar.nonterminalCount
      (Score.impossible : S)).set_ok hfits Score.certain
  refine ⟨{ start with inside, outside }, ?_, pushed_nil hchart hread hfull fun c => ?_⟩
  · unfold ofInside
    rw [hroot]
    show (if chart.length = 0 then .ok start else
      (List.foldlM (readInside chart) start (Span.all chart.length) >>= _) :
        Except Fault (Posterior S S)) = _
    rw [if_neg (Nat.pos_iff_ne_zero.mp hlength), hfold]
    show (SpanTable.set start.outside chart.grammar.root 0 chart.length Score.certain >>= _ :
      Except Fault (Posterior S S)) = _
    rw [show SpanTable.set start.outside _ _ _ _ = _ from hset]
    rfl
  · rw [hweight, Function.update_apply, WeightScore.certain_eq, WeightScore.impossible_eq,
      SpanTable.weight_replicate]

omit [Semifield S] [Sharing S S] [LinearOrder S] [ShareScore S] in
/-- An empty sentence has no total. -/
theorem ofInside_empty (hlength : chart.length = 0) :
    ofInside chart = .ok (blank chart none : Posterior S S) := by
  unfold ofInside Chart.rootScore?
  rw [if_pos hlength]
  exact if_pos hlength

end ChartParsing.Posterior
