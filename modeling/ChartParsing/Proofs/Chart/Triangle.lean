import ChartParsing.Chart.SpanTable
import ChartParsing.Proofs.Chart.State
import ChartParsing.Proofs.Rows
import Mathlib.Data.Set.Function

/-!
# Places of spans

The spans of a sentence lie in a triangle, row by row, and the place of a span is worked
out by a formula. The formula fits the triangle: every place is that of exactly one span,
and spans follow one another by start, then by end. It never takes a number from a
smaller one.

Sites are put into a chart in the same order, so a span finds its own site. A table with
an entry for every symbol over every span has as many entries in the place of each span
as there are symbols.
-/

namespace ChartParsing

namespace Span

variable {n start stop start' stop' i : Nat}

/-- The spans of `n` tokens. -/
def within (n : Nat) : Set (Nat × Nat) := {span | span.1 < span.2 ∧ span.2 ≤ n}

/-- Every number below the start of a row lies in a row before it. -/
theorem exists_row (h : i < rowStart n start) :
    ∃ row < start, rowStart n row ≤ i ∧ i < rowStart n row + (n - row) := by
  induction start with
  | zero => cases h
  | succ start ih =>
    rcases Nat.lt_or_ge i (rowStart n start) with hlt | hge
    · obtain ⟨row, hrow, hin⟩ := ih hlt
      exact ⟨row, Nat.lt_succ_of_lt hrow, hin⟩
    · exact ⟨start, Nat.lt_succ_self start, hge, h⟩

/-- Every place is that of a span. -/
theorem exists_index_eq (h : i < count n) :
    ∃ start stop, start < stop ∧ stop ≤ n ∧ index n start stop = i := by
  rw [← rowStart_self] at h
  obtain ⟨row, hrow, hle, hlt⟩ := exists_row h
  refine ⟨row, row + 1 + (i - rowStart n row), by omega, by omega, ?_⟩
  rw [index_eq (by omega) (by omega)]
  omega

/-- Places follow one another as spans do: by start, then by end. -/
theorem index_lt_index_iff (h₁ : start < stop) (h₂ : stop ≤ n) (h₁' : start' < stop')
    (h₂' : stop' ≤ n) :
    index n start stop < index n start' stop' ↔
      start < start' ∨ start = start' ∧ stop < stop' := by
  rw [index_eq h₁ h₂, index_eq h₁' h₂']
  -- a row ends before the next one starts
  rcases Nat.lt_trichotomy start start' with hlt | rfl | hlt
  · have := rowStart_add_le n hlt
    omega
  · omega
  · have := rowStart_add_le n hlt
    omega

/-- **The places of spans are the numbers below their count**, each of them once. -/
theorem bijOn_index (n : Nat) :
    Set.BijOn (fun span => index n span.1 span.2) (within n) (Set.Iio (count n)) := by
  refine ⟨fun span h => index_lt_count h.1 h.2, fun span h span' h' heq => ?_, fun i hi => ?_⟩
  · obtain ⟨hstart, hstop⟩ := index_inj h.1 h.2 h'.1 h'.2 heq
    exact Prod.ext hstart hstop
  · obtain ⟨start, stop, h₁, h₂, rfl⟩ := exists_index_eq hi
    exact ⟨(start, stop), ⟨h₁, h₂⟩, rfl⟩

/-- What the formula takes away is there. -/
theorem index_no_underflow (h₁ : start < stop) (h₂ : stop ≤ n) :
    start * (start - 1) / 2 ≤ start * n ∧ start ≤ stop ∧ 1 ≤ stop - start := by
  refine ⟨?_, by omega, by omega⟩
  calc start * (start - 1) / 2 ≤ start * (start - 1) := Nat.div_le_self _ _
    _ ≤ start * n := Nat.mul_le_mul_left start (by omega)

end Span

/-! ## Tables -/

/-- Places that are divided into `width` parts each are as many times more. -/
theorem bijOn_mul_add {α : Type} {place : α → Nat} {s : Set α} {m : Nat}
    (h : Set.BijOn place s (Set.Iio m)) (width : Nat) :
    Set.BijOn (fun x => place x.1 * width + x.2) (s ×ˢ Set.Iio width)
      (Set.Iio (m * width)) := by
  refine ⟨?_, ?_, ?_⟩
  · rintro ⟨a, part⟩ ⟨ha, hpart⟩
    exact (Rows.place_lt_iff hpart).mpr (h.mapsTo ha)
  · rintro ⟨a, part⟩ ⟨ha, hpart⟩ ⟨a', part'⟩ ⟨ha', hpart'⟩ heq
    obtain ⟨hplace, hparts⟩ := (Rows.place_inj hpart hpart').mp heq
    exact Prod.ext (h.injOn ha ha' hplace) hparts
  · intro i hi
    have hwidth : 0 < width := Nat.pos_of_mul_pos_left (Nat.lt_of_le_of_lt (Nat.zero_le _) hi)
    obtain ⟨a, ha, hquotient⟩ := h.surjOn (Nat.div_lt_of_lt_mul (by rwa [Nat.mul_comm] at hi))
    have hpart := Nat.mod_lt i hwidth
    exact ⟨(a, i % width), ⟨ha, hpart⟩, (Rows.place_eq_iff hpart).mpr ⟨hquotient, rfl⟩⟩

namespace SpanTable

variable {α : Type}

/-- The place where the entries of a span start. -/
def offset (t : SpanTable α) (start stop : Nat) : Nat := Span.index t.tokens start stop * t.width

theorem place_eq (t : SpanTable α) (sym : Symbol) (start stop : Nat) :
    t.place sym start stop = t.offset start stop + sym.index := rfl

end SpanTable

/-! ## Sites -/

namespace Chart

variable {S C J : Type} [Score S] [CellConstraint C S] [JitterSource J]

omit [Score S] [CellConstraint C S] in
/-- New sites are made in the order of their places. -/
theorem allocate_sites (chart : Chart S C) (n : Nat) :
    (chart.allocate n).sites.size = Span.count n ∧ ∀ span ∈ Span.within n,
      (chart.allocate n).sites[Span.index n span.1 span.2]? =
        some (some (chart.newSite span.1 span.2)) := by
  refine ⟨stocked_allocate chart n, fun span h => ?_⟩
  exact (index_of_site_ok (chart.allocate_site n h.1 h.2)).2.2

/-- **Spans and places correspond one to one.** The formula for the place of a span takes
no number from a smaller one, leads from the spans of `n` tokens to the `n * (n + 1) / 2`
numbers below their count, each once, and goes through the spans by start, then by end.
New sites are made in this order. So in every chart in use the site in the place of a
span is the one of this span. In a table of `width` symbols the place of a symbol is so
many places behind the first one of its span, and each place is that of one span and one
symbol. -/
theorem places_bijective (S C J : Type) [Score S] [ScoreText S] [CellConstraint C S]
    [JitterSource J] :
    (∀ n, Set.BijOn (fun span => Span.index n span.1 span.2) (Span.within n)
        (Set.Iio (n * (n + 1) / 2)) ∧
      ∀ span ∈ Span.within n,
        (span.1 * (span.1 - 1) / 2 ≤ span.1 * n ∧ span.1 ≤ span.2 ∧ 1 ≤ span.2 - span.1) ∧
        ∀ span' ∈ Span.within n,
          (Span.index n span.1 span.2 < Span.index n span'.1 span'.2 ↔
            span.1 < span'.1 ∨ span.1 = span'.1 ∧ span.2 < span'.2)) ∧
    (∀ (chart : Chart S C) n, (chart.allocate n).sites.size = n * (n + 1) / 2 ∧
      ∀ span ∈ Span.within n,
        (chart.allocate n).index span.1 span.2 = .ok (Span.index n span.1 span.2) ∧
        (chart.allocate n).sites[Span.index n span.1 span.2]? =
          some (some (chart.newSite span.1 span.2))) ∧
    (∀ (g : Grammar S) config (chart : Chart S C), g.Accepted → chart.Reachable J g config →
      ∀ span ∈ Span.within chart.capacity, ∃ i site,
        chart.index span.1 span.2 = .ok i ∧ i = Span.index chart.capacity span.1 span.2 ∧
        chart.sites[i]? = some (some site) ∧ site.start = span.1 ∧ site.stop = span.2) ∧
    (∀ n width (value : S),
      (SpanTable.replicate n width value).entries.size = width * (n * (n + 1) / 2) ∧
      (∀ sym start stop, (SpanTable.replicate n width value).place sym start stop =
        (SpanTable.replicate n width value).offset start stop + sym.index) ∧
      Set.BijOn
        (fun x => (SpanTable.replicate n width value).offset x.1.1 x.1.2 + x.2)
        (Span.within n ×ˢ Set.Iio width) (Set.Iio (width * (n * (n + 1) / 2)))) := by
  refine ⟨fun n => ⟨Span.bijOn_index n, fun span h => ⟨Span.index_no_underflow h.1 h.2,
    fun span' h' => Span.index_lt_index_iff h.1 h.2 h'.1 h'.2⟩⟩, fun chart n => ?_,
    fun g config chart hg hreach span h => ?_, fun n width value => ?_⟩
  · obtain ⟨hsize, hsite⟩ := chart.allocate_sites n
    exact ⟨hsize, fun span h => ⟨if_pos h, hsite span h⟩⟩
  · obtain ⟨hshaped, -, -⟩ := hreach.shaped hg.indexed
    obtain ⟨site, hsite, hreset⟩ := hshaped.site span.1 span.2 h.1 h.2
    exact ⟨_, site, if_pos h, rfl, (index_of_site_ok hsite).2.2, congrArg Site.start hreset,
      congrArg Site.stop hreset⟩
  · rw [Nat.mul_comm]
    exact ⟨Array.size_replicate, SpanTable.place_eq _, bijOn_mul_add (Span.bijOn_index n) width⟩

/-- The chart of the small grammar after a parse of `a a`, where the span of the second
token finds its site, and a table of two symbols over the spans of three tokens, where
the last place is taken. -/
theorem places_bijective_small :
    ∃ (g : Grammar ℚ≥0) (chart : Chart ℚ≥0 (CellPredicate ℚ≥0)) (i : Nat) (site : Site ℚ≥0),
      g.Accepted ∧ chart.Reachable Jitter g ⟨.viterbi, .full, .leftChild⟩ ∧
      (1, 2) ∈ Span.within chart.capacity ∧ chart.index 1 2 = .ok i ∧
      chart.sites[i]? = some (some site) ∧ site.start = 1 ∧ site.stop = 2 ∧
      ∃ span ∈ Span.within 3, ∃ sym < 2,
        (SpanTable.replicate 3 2 (0 : ℚ≥0)).offset span.1 span.2 + sym = 11 := by
  obtain ⟨g, _, hg, hcount, horder, _⟩ := Grammar.Small.accepted ℚ≥0 rfl rfl .leftChild
  have hnew : (.vacant g ⟨.viterbi, .full, .leftChild⟩ :
      Chart ℚ≥0 (CellPredicate ℚ≥0)).Reachable Jitter g ⟨.viterbi, .full, .leftChild⟩ :=
    reachable_new rfl horder
  have htokens : ∀ token ∈ Grammar.Small.tokens, token.index < g.terminalCount := by
    rw [hcount]
    decide
  obtain ⟨chart, run, hparse, hparsed⟩ := hnew.parse_returns hg htokens
    (follows_of_none rfl _ _) (fun _ => rfl) .static (.start (.ofSeed 0))
  have hreach := hnew.parse hparse
  have hroom : (1, 2) ∈ Span.within chart.capacity := by
    obtain ⟨site, hsite, -⟩ := hparsed.complete 1 2 (by decide) (by decide)
    exact ⟨by decide, (index_of_site_ok hsite).2.1⟩
  obtain ⟨-, -, hsites, htables⟩ := places_bijective ℚ≥0 (CellPredicate ℚ≥0) Jitter
  obtain ⟨i, site, hindex, -, hsite, hstart, hstop⟩ := hsites g _ chart hg hreach (1, 2) hroom
  obtain ⟨⟨span, sym⟩, ⟨hspan, hsym⟩, hplace⟩ :=
    (htables 3 2 0).2.2.surjOn (show 11 ∈ Set.Iio (2 * (3 * (3 + 1) / 2)) by decide)
  exact ⟨g, chart, i, site, hg, hreach, hroom, hindex, hsite, hstart, hstop, span, hspan, sym,
    hsym, hplace⟩

end Chart

end ChartParsing
