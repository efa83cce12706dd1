import ChartParsing.Proofs.Chart.Applying
import ChartParsing.Proofs.Chart.Finding
import ChartParsing.Proofs.Chart.Sites

/-!
# The scores a chart holds

`Chart.values` reads off which symbols a chart holds over which spans, and with
what scores. They determine what applies over a span. A chart of best derivations holds
scores that are supported: each is that of an application to other scores of the
chart.
-/

namespace ChartParsing

variable {S C J : Type} [Score S]

namespace Values

/-- The scores with those of a cell over one span. -/
def set (V : Values S) (start stop : Nat) (cell : Cell S) : Values S := fun sym s e =>
  if s = start ∧ e = stop then cell.value? sym else V sym s e

omit [Score S] in
theorem set_self (V : Values S) (start stop : Nat) (cell : Cell S) (sym : Symbol) :
    V.set start stop cell sym start stop = cell.value? sym := if_pos ⟨rfl, rfl⟩

omit [Score S] in
theorem set_of_ne (V : Values S) {start stop s e : Nat} (cell : Cell S) (sym : Symbol)
    (h : ¬ (s = start ∧ e = stop)) : V.set start stop cell sym s e = V sym s e := if_neg h

end Values

/-- What applies over a span does not change with the cell of the span, as long as
the scores of unary children are the same. -/
theorem Applies.of_set {g : Grammar S} {sentence : List Symbol} {V : Values S} {start stop : Nat}
    {c c' : Cell S} {a : Application S} (h : Applies g sentence (V.set start stop c) start stop a)
    (hunary : ∀ y, a.rule.rhs = .unary y → c'.value? y = c.value? y) :
    Applies g sentence (V.set start stop c') start stop a := by
  cases h with
  | lexical hr hrhs hstop ht => exact .lexical hr hrhs hstop ht
  | unary hr hrhs hv =>
    rw [Values.set_self] at hv
    exact .unary hr hrhs (by rw [Values.set_self, hunary _ hrhs]; exact hv)
  | binary hr hrhs h₁ h₂ hv hw =>
    rw [Values.set_of_ne _ _ _ (by omega)] at hv hw
    exact .binary hr hrhs h₁ h₂ (by rw [Values.set_of_ne _ _ _ (by omega)]; exact hv)
      (by rw [Values.set_of_ne _ _ _ (by omega)]; exact hw)

/-- The scores that a chart holds over the spans of its sentence. -/
def Chart.values (chart : Chart S C) : Values S := fun sym start stop =>
  match chart.cell start stop with
  | .ok cell => cell.value? sym
  | .error _ => none

omit [Score S] in
theorem Chart.values_eq {chart : Chart S C} {start stop : Nat} {site : Site S}
    (h : chart.site start stop = .ok site) (hstop : stop ≤ chart.length) (sym : Symbol) :
    chart.values sym start stop = site.cell.value? sym := by
  rw [values, cell_eq h hstop]

omit [Score S] in
/-- What a chart holds it holds in a cell. -/
theorem Chart.cell_of_values {chart : Chart S C} {sym : Symbol} {start stop : Nat} {v : S}
    (hv : chart.values sym start stop = some v) :
    ∃ cell, chart.cell start stop = .ok cell ∧ cell.value? sym = some v := by
  unfold Chart.values at hv
  split at hv
  · exact ⟨_, ‹_›, hv⟩
  · cases hv

omit [Score S] in
/-- A chart has scores over the spans of its sentence only. -/
theorem Chart.span_of_values {chart : Chart S C} {sym : Symbol} {start stop : Nat} {v : S}
    (hv : chart.values sym start stop = some v) : start < stop ∧ stop ≤ chart.length := by
  obtain ⟨_, hcell, _⟩ := cell_of_values hv
  exact span_of_cell hcell

omit [Score S] in
/-- Outside the sentence no scores are held. -/
theorem Chart.values_eq_none {chart : Chart S C} {start stop : Nat}
    (h : ¬ (start < stop ∧ stop ≤ chart.length)) (sym : Symbol) :
    chart.values sym start stop = none := by
  rw [values, cell_eq_error h]

variable [CellConstraint C S]

/-- Every score is that of an application that is admitted. -/
def Supported (g : Grammar S) (sentence : List Symbol) (scorer : Scorer S) (constraint : Option C)
    (V : Values S) : Prop :=
  ∀ sym start stop v, V sym start stop = some v → ∃ a, Applies g sentence V start stop a ∧
    a.rule.parent = sym ∧ admits constraint start stop (a.offer scorer start stop) = true ∧
      a.score scorer start stop = v

end ChartParsing
