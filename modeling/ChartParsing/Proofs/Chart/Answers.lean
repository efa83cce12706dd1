import ChartParsing.Chart.BestTree
import ChartParsing.Chart.Filling
import ChartParsing.Proofs.Cell.Twin
import ChartParsing.Proofs.Chart.Twin

/-!
# What a chart is asked

All questions about a chart are answered from its grammar, its sentence and what
can be read of its cells. How the grammar has its binary rules laid out is of no
concern. So charts that read alike give the same answers: scores, back pointers,
the symbols present, the score of the root and the best tree.
-/

namespace ChartParsing.Chart

variable {S C : Type}

/-- Two charts for one sentence, with the same rules and with cells that read
alike. -/
structure ReadAlike (chart chart' : Chart S C) : Prop where
  grammar : ∃ binary, chart'.grammar = { chart.grammar with binary }
  aggregation_eq : chart.config.aggregation = chart'.config.aggregation
  sentence_eq : chart.sentence = chart'.sentence
  cell : ∀ start stop, Matched (fun _ => False) (fun c d : Cell S => c.reading = d.reading)
    (chart.cell start stop) (chart'.cell start stop)

/-- Two charts that give the same answer to every question. -/
structure SameAnswers [Score S] (chart chart' : Chart S C) : Prop where
  score : ∀ sym start stop, chart.score sym start stop = chart'.score sym start stop
  contains : ∀ sym start stop, (chart.cell start stop).map (·.contains sym) =
    (chart'.cell start stop).map (·.contains sym)
  backPointer? : ∀ sym start stop,
    chart.backPointer? sym start stop = chart'.backPointer? sym start stop
  symbols : ∀ start stop, chart.cell start stop >>= Cell.symbols =
    chart'.cell start stop >>= Cell.symbols
  rootScore? : chart.rootScore? = chart'.rootScore?
  viterbiParse? : chart.viterbiParse? = chart'.viterbiParse?

variable {chart chart' : Chart S C}

/-- Twin charts read alike. -/
theorem Twins.readAlike {J : Type} [Score S] [JitterSource J] [CellConstraint C S] {size : Nat}
    {stops : Fault → Prop} {T : Twinning S J size stops} (h : chart.Twins T chart') :
    chart.ReadAlike chart' :=
  ⟨⟨chart.grammar.binary, h.grammar_eq.symm⟩, h.aggregation_eq, h.sentence_eq, h.matched_cell⟩

/-- Two charts that read like a third read like each other. -/
theorem ReadAlike.join {chart'' : Chart S C} (h : chart.ReadAlike chart')
    (h' : chart.ReadAlike chart'') : chart'.ReadAlike chart'' := by
  obtain ⟨binary, hg⟩ := h.grammar
  obtain ⟨binary', hg'⟩ := h'.grammar
  refine ⟨⟨binary', by rw [hg, hg']⟩, h.aggregation_eq.symm.trans h'.aggregation_eq,
    h.sentence_eq.symm.trans h'.sentence_eq, fun start stop => ?_⟩
  refine ((h.cell start stop).join (h'.cell start stop) fun _ _ => id).imp fun c d hx => ?_
  obtain ⟨b, hb, hb'⟩ := hx
  exact hb.symm.trans hb'

namespace ReadAlike

variable (h : chart.ReadAlike chart')

include h

theorem length_eq : chart.length = chart'.length := by
  rw [length, length, h.sentence_eq]

/-- A question about the cell of a span, answered from what can be read of it. -/
theorem bind_cell {α : Type} {f : Cell S → Except Fault α}
    (hf : ∀ c d : Cell S, c.reading = d.reading → f c = f d) (start stop : Nat) :
    chart.cell start stop >>= f = chart'.cell start stop >>= f := by
  refine ((h.cell start stop).bind fun c d hcd => ?_).eq
  rw [hf c d hcd]
  exact .refl _

theorem score_eq [Score S] (sym : Symbol) (start stop : Nat) :
    chart.score sym start stop = chart'.score sym start stop :=
  h.bind_cell (fun _ _ hcd => congrArg Except.ok (Cell.score_congr hcd sym)) start stop

theorem backPointer?_eq (sym : Symbol) (start stop : Nat) :
    chart.backPointer? sym start stop = chart'.backPointer? sym start stop :=
  h.bind_cell (fun _ _ hcd => congrArg Except.ok (Cell.backPointer?_congr hcd sym)) start stop

theorem contains_eq (sym : Symbol) (start stop : Nat) :
    (chart.cell start stop).map (·.contains sym) = (chart'.cell start stop).map (·.contains sym) :=
  h.bind_cell (f := fun c => .ok (c.contains sym))
    (fun _ _ hcd => congrArg Except.ok (Cell.contains_congr hcd sym)) start stop

theorem symbols_eq (start stop : Nat) :
    chart.cell start stop >>= Cell.symbols = chart'.cell start stop >>= Cell.symbols :=
  h.bind_cell (fun _ _ hcd => Cell.symbols_congr hcd) start stop

theorem rootScore?_eq [Score S] : chart.rootScore? = chart'.rootScore? := by
  obtain ⟨binary, hg⟩ := h.grammar
  unfold rootScore?
  rw [← h.length_eq, hg]
  split
  · rfl
  · refine h.bind_cell (fun c d hcd => ?_) 0 chart.length
    rw [Cell.contains_congr hcd, Cell.score_congr hcd]

/-- The walk down the back pointers is the same. -/
theorem subtree?_eq (sym : Symbol) (start stop depth : Nat) :
    chart.subtree? sym start stop depth = chart'.subtree? sym start stop depth := by
  obtain ⟨binary, hg⟩ := h.grammar
  have hcount : chart'.grammar.nonterminalCount = chart.grammar.nonterminalCount := by
    rw [hg]
    rfl
  have hrule : chart'.grammar.rule = chart.grammar.rule := by
    rw [hg]
    rfl
  -- by induction along the walk: unary rules go deeper, binary rules to narrower spans
  induction sym, start, stop, depth using subtree?.induct chart with
  | case1 sym start stop depth hdeep =>
    rw [subtree?, subtree?, dif_pos hdeep, dif_pos (hcount ▸ hdeep)]
  | case2 sym start stop depth hdeep hunary hleft hright =>
    rw [subtree?, subtree?, dif_neg hdeep, dif_neg (hcount ▸ hdeep), h.backPointer?_eq, hrule,
      h.length_eq]
    simp only [hunary]
    refine congrArg _ (funext fun pointer => ?_)
    cases pointer with
    | none => rfl
    | some pointer =>
      cases pointer with
      | untracked => rfl
      | derivation id mid =>
        simp only
        refine congrArg (chart.grammar.rule id >>= ·) (funext fun rule => ?_)
        cases rule.rhs with
        | lexical t => rfl
        | unary child => rfl
        | binary left right =>
          by_cases hm : start < mid ∧ mid < stop
          · simp only [dif_pos hm, hleft mid left hm, hright mid right hm]
          · simp only [dif_neg hm]

theorem viterbiParse?_eq [Score S] : chart.viterbiParse? = chart'.viterbiParse? := by
  obtain ⟨binary, hg⟩ := h.grammar
  unfold viterbiParse?
  rw [← h.length_eq, h.subtree?_eq, h.score_eq, hg]

/-- **Charts that read alike give the same answers.** -/
theorem sameAnswers [Score S] : chart.SameAnswers chart' :=
  ⟨h.score_eq, h.contains_eq, h.backPointer?_eq, h.symbols_eq, h.rootScore?_eq, h.viterbiParse?_eq⟩

end ReadAlike

end ChartParsing.Chart
