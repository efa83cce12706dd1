import ChartParsing.Chart.Filling
import ChartParsing.Proofs.Chart.Sites

/-!
# Cells that are out of the chart

While a span is filled its cell is out of the chart, and looking it up would be at
fault. It is not looked up: nothing is read but cells over narrower spans. Nor does it
matter that the cell carries its own filter, since a cell made under the constraint in
force is filtered by that. So a cell is filled as if it were left in its place, and the
rest of the theory is about filling it there.
-/

namespace ChartParsing

variable {S C J : Type}

/-! ## Filters -/

namespace Chart

/-- A cell that was made under the constraint in force is filtered by it. -/
theorem filterOf_eq {chart : Chart S C} {site : Site S} (h : site.filter = chart.newFilter) :
    chart.filterOf site = chart.constraint := by
  unfold filterOf newFilter at *
  rw [h]
  cases chart.constraint with
  | none => rfl
  | some c => simp

theorem seenFrom_eq {chart : Chart S C} {site : Site S} (h : site.filter = chart.newFilter) :
    chart.seenFrom site = chart := by
  rw [seenFrom, filterOf_eq h]

end Chart

variable [Score S] [CellConstraint C S] [JitterSource J]

/-! ## What is read while a span is filled -/

namespace Site

theorem apply_span (scorer : Scorer S) (constraint : Option C) (site : Site S) (a : Application S)
    (run : Run J S) :
    (site.apply scorer constraint a).Ends (fun _ _ => True) run fun site' _ =>
      site'.start = site.start ∧ site'.stop = site.stop := by
  refine Effect.ends_bind_emit fun run₁ => ?_
  refine Effect.ends_bind (Effect.ends_trivial _ _) fun accepted run₂ _ => ?_
  split
  · exact Effect.ends_bind (Effect.ends_trivial _ _) fun _ _ _ => Effect.ends_pure ⟨rfl, rfl⟩
  · split
    · trivial
    · exact Effect.ends_pure ⟨rfl, rfl⟩

/-- Applications leave a site at its span. -/
theorem applyAll_span (scorer : Scorer S) (constraint : Option C) (site : Site S)
    (made : List (Application S)) (run : Run J S) :
    (site.applyAll scorer constraint made).Ends (fun _ _ => True) run fun site' _ =>
      site'.start = site.start ∧ site'.stop = site.stop := by
  refine Effect.ends_foldlM (fun _ (site' : Site S) (_ : Run J S) =>
    site'.start = site.start ∧ site'.stop = site.stop) ⟨rfl, rfl⟩ ?_
  intro _ a _ site₁ run₁ _ hspan
  refine (apply_span scorer constraint site₁ a run₁).imp fun site₂ _ hspan₂ => ?_
  exact ⟨hspan₂.1.trans hspan.1, hspan₂.2.trans hspan.2⟩

end Site

namespace Chart

variable {chart chart' : Chart S C} {scorer : Scorer S} {start stop : Nat}

omit [Score S] [CellConstraint C S] in
/-- The charts are the same, and have the same sites over narrower spans within one.
Over the span itself they may have any, or none. -/
def SameWithin (start stop : Nat) (chart chart' : Chart S C) : Prop :=
  ∃ sites, chart' = { chart with sites } ∧ ∀ s e, start ≤ s → e ≤ stop → (s, e) ≠ (start, stop) →
    chart'.site s e = chart.site s e

theorem applySplit_span (chart : Chart S C) (scorer : Scorer S) (site : Site S) (mid : Nat)
    (run : Run J S) :
    (chart.applySplit scorer site mid).Ends (fun _ _ => True) run fun site' _ =>
      site'.start = site.start ∧ site'.stop = site.stop := by
  refine Effect.ends_bind (Effect.ends_trivial _ _) fun _ _ _ => ?_
  refine Effect.ends_bind (Effect.ends_trivial _ _) fun _ _ _ => ?_
  refine Effect.ends_bind (Effect.ends_trivial _ _) fun _ _ _ => ?_
  exact Site.applyAll_span _ _ _ _ _

theorem SameWithin.applySplit_eq (h : SameWithin start stop chart chart') {site : Site S}
    (hstart : site.start = start) (hstop : site.stop = stop) {mid : Nat} (h₁ : start < mid)
    (h₂ : mid < stop) :
    (chart'.applySplit scorer site mid : Effect J S (Site S)) =
      chart.applySplit scorer site mid := by
  obtain ⟨sites, rfl, hsites⟩ := h
  have hleft := hsites start mid (Nat.le_refl _) (by omega) (by simp; omega)
  have hright := hsites mid stop (by omega) (Nat.le_refl _) (by simp; omega)
  unfold applySplit
  rw [hstart, hstop, hleft, hright]

/-- **A span is filled from narrower spans alone.** What is in its own place, or
anywhere else in the chart, makes no difference. -/
theorem SameWithin.fillSite_eq (h : SameWithin start stop chart chart') {site : Site S}
    (hstart : site.start = start) (hstop : site.stop = stop) :
    (chart'.fillSite scorer site : Effect J S (Site S)) = chart.fillSite scorer site := by
  have hsplits : ((Span.splits site.start site.stop).foldlM (chart'.applySplit scorer) site :
      Effect J S (Site S)) = (Span.splits site.start site.stop).foldlM (chart.applySplit scorer)
        site := by
    refine Effect.ext fun run => Effect.outcome_foldlM_congr
      (fun site => site.start = start ∧ site.stop = stop) ?_ ?_ run ⟨hstart, hstop⟩
    · intro mid hmid site' hspan
      obtain ⟨h₁, h₂⟩ := Span.mem_splits.mp hmid
      exact h.applySplit_eq hspan.1 hspan.2 (hstart ▸ h₁) (hstop ▸ h₂)
    · intro mid _ site' run hspan
      refine (chart.applySplit_span scorer site' mid run).imp fun site'' _ hspan' => ?_
      exact ⟨hspan'.1.trans hspan.1, hspan'.2.trans hspan.2⟩
  obtain ⟨sites, rfl, -⟩ := h
  unfold fillSite
  split
  · rfl
  · rw [hsplits]
    rfl

/-! ## In its place -/

/-- Fills the cell of a span in its place, under the constraint in force. -/
def fillInPlace (scorer : Scorer S) (chart : Chart S C) (span : Nat × Nat) :
    Effect J S (Chart S C) := do
  let (start, stop) := span
  let site ← (chart.site start stop : Except Fault (Site S))
  let site ← chart.fillSite scorer site
  let present ← (site.cell.symbols : Except Fault (List Symbol))
  Effect.log .trace s!"closed cell [{start}, {stop}) with {present.length} symbols"
  liftM (chart.withSite start stop site)

/-- **Taking a cell out makes no difference**, if it is at its span and was made under the
constraint in force. -/
theorem fill_eq {site : Site S} (h : chart.site start stop = .ok site)
    (hstart : site.start = start) (hstop : site.stop = stop)
    (hfilter : site.filter = chart.newFilter) :
    (fill scorer chart (start, stop) : Effect J S (Chart S C)) =
      fillInPlace scorer chart (start, stop) := by
  obtain ⟨sites, htake, hback, hothers⟩ := take_ok h
  have hsame : SameWithin start stop chart { chart with sites } :=
    ⟨sites, rfl, fun s e _ _ hne => hothers s e hne⟩
  have hseen : ({ chart with sites } : Chart S C).seenFrom site = { chart with sites } :=
    seenFrom_eq hfilter
  unfold fill fillInPlace
  simp only [htake, h]
  show (Chart.fillSite _ scorer site >>= _ : Effect J S (Chart S C)) =
    (Chart.fillSite _ scorer site >>= _)
  rw [hseen, hsame.fillSite_eq hstart hstop]
  simp only [hback]

end Chart

end ChartParsing
