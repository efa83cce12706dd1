import ChartParsing.Span
import Mathlib.Algebra.Group.Nat.Even
import Mathlib.Algebra.Ring.Parity

/-!
# Where spans lie

`Span.index` is the position of a span in `Span.all`, so different spans lie in
different places and every place below `Span.count` is taken. A row of the
triangle holds the spans with one start; `rowStart` counts what lies before it.

By width, narrow spans come before wide ones and none comes twice.
-/

namespace ChartParsing.Span

/-! ## The triangle -/

/-- The number of spans of `n` tokens that start before `start`. -/
def rowStart (n : Nat) : (start : Nat) → Nat
  | 0 => 0
  | start + 1 => rowStart n start + (n - start)

theorem two_mul_rowStart (n start : Nat) (h : start ≤ n) :
    2 * rowStart n start + start * start = 2 * (start * n) + start := by
  induction start with
  | zero => simp [rowStart]
  | succ start ih =>
    have ih := ih (by omega)
    rw [rowStart, Nat.mul_add, Nat.add_mul, Nat.mul_add, Nat.add_mul]
    have : 2 * (n - start) + 2 * start = 2 * n := by omega
    omega

/-- The formula for the row of a span counts the rows before it. -/
theorem index_eq {n start stop : Nat} (h₁ : start < stop) (h₂ : stop ≤ n) :
    index n start stop = rowStart n start + (stop - start - 1) := by
  have htwo := two_mul_rowStart n start (by omega)
  -- one of two neighbours is even, so the formula divides exactly
  have heven : 2 * (start * (start - 1) / 2) + start = start * start := by
    cases start with
    | zero => rfl
    | succ k =>
      have hdvd : 2 ∣ (k + 1) * k := by
        rw [Nat.mul_comm]
        exact (Nat.even_mul_succ_self k).two_dvd
      rw [Nat.add_sub_cancel, Nat.mul_div_cancel' hdvd, Nat.mul_add (k + 1) k 1, Nat.mul_one]
  unfold index
  omega

theorem rowStart_add_le (n : Nat) {start start' : Nat} (h : start < start') :
    rowStart n start + (n - start) ≤ rowStart n start' := by
  induction start' with
  | zero => omega
  | succ k ih =>
    rw [rowStart]
    rcases Nat.lt_or_ge start k with hk | hk
    · have := ih hk
      omega
    · rw [show start = k by omega]

theorem rowStart_self (n : Nat) : rowStart n n = count n := by
  have := two_mul_rowStart n n (Nat.le_refl n)
  unfold count
  rw [Nat.mul_add, Nat.mul_one]
  omega

/-- Every span has a place in the table. -/
theorem index_lt_count {n start stop : Nat} (h₁ : start < stop) (h₂ : stop ≤ n) :
    index n start stop < count n := by
  rw [index_eq h₁ h₂, ← rowStart_self]
  have := rowStart_add_le n (show start < n by omega)
  omega

/-- Two spans have two places. -/
theorem index_inj {n start stop start' stop' : Nat} (h₁ : start < stop) (h₂ : stop ≤ n)
    (h₁' : start' < stop') (h₂' : stop' ≤ n)
    (h : index n start stop = index n start' stop') : start = start' ∧ stop = stop' := by
  rw [index_eq h₁ h₂, index_eq h₁' h₂'] at h
  -- a row ends before the next one starts
  rcases Nat.lt_trichotomy start start' with hlt | heq | hlt
  · have := rowStart_add_le n hlt
    omega
  · subst heq
    omega
  · have := rowStart_add_le n hlt
    omega

/-- The spans with one start. -/
def row (n start : Nat) : List (Nat × Nat) :=
  (List.range' (start + 1) (n - start)).map fun stop => (start, stop)

theorem length_flatMap_row (n : Nat) :
    ∀ start, ((List.range start).flatMap (row n)).length = rowStart n start := by
  intro start
  induction start with
  | zero => rfl
  | succ start ih =>
    rw [List.range_succ, List.flatMap_append, List.length_append, ih, rowStart]
    simp [row]

theorem length_all (n : Nat) : (all n).length = count n := by
  rw [← rowStart_self, ← length_flatMap_row]
  rfl

/-- **A span lies where its index says.** -/
theorem getElem?_all {n start stop : Nat} (h₁ : start < stop) (h₂ : stop ≤ n) :
    (all n)[index n start stop]? = some (start, stop) := by
  -- the rows before `start`, its own row, and those behind it
  have hrange : List.range n =
      List.range start ++ start :: List.range' (start + 1) (n - start - 1) := by
    rw [List.range_eq_range', List.range_eq_range', ← List.range'_succ]
    have := List.range'_append_1 (s := 0) (m := start) (n := n - start - 1 + 1)
    rw [Nat.zero_add, show start + (n - start - 1 + 1) = n by omega] at this
    exact this.symm
  have hall : all n = (List.range n).flatMap (row n) := rfl
  rw [hall, hrange, List.flatMap_append, List.flatMap_cons, index_eq h₁ h₂,
    List.getElem?_append_right (by rw [length_flatMap_row]; omega), length_flatMap_row,
    Nat.add_sub_cancel_left, List.getElem?_append_left (by simp [row]; omega)]
  simp only [row, List.getElem?_map]
  rw [List.getElem?_range' (by omega)]
  simp
  omega

/-! ## By width -/

theorem nodup_splits (start stop : Nat) : (splits start stop).Nodup := List.nodup_range'

theorem nodup_ofWidth (n width : Nat) : (ofWidth n width).Nodup := by
  refine List.Pairwise.map _ ?_ List.nodup_range
  intro a b hab heq
  exact hab (Prod.mk.inj heq).1

/-- Widths in some order give spans in that order, none of them twice. -/
theorem pairwise_ofWidths (n : Nat) {R : Nat → Nat → Prop} (hrefl : ∀ width, R width width)
    {widths : List Nat} (h : widths.Pairwise fun v w => R v w ∧ v ≠ w) :
    (widths.flatMap (ofWidth n)).Pairwise fun a b => R (a.2 - a.1) (b.2 - b.1) ∧ a ≠ b := by
  have hwidth : ∀ {width : Nat} {a : Nat × Nat}, a ∈ ofWidth n width → a.2 - a.1 = width := by
    intro width a ha
    obtain ⟨start, stop⟩ := a
    obtain ⟨rfl, _⟩ := mem_ofWidth.mp ha
    exact Nat.add_sub_cancel_left _ _
  refine List.pairwise_flatMap.mpr ⟨?_, h.imp ?_⟩
  · intro width _
    refine (nodup_ofWidth n width).imp_of_mem ?_
    intro a b ha hb hab
    rw [hwidth ha, hwidth hb]
    exact ⟨hrefl width, hab⟩
  · intro v w hx a ha b hb
    rcases hx with ⟨hR, hne⟩
    rw [hwidth ha, hwidth hb]
    refine ⟨hR, ?_⟩
    intro heq
    subst heq
    exact hne ((hwidth ha).symm.trans (hwidth hb))

/-- Narrow spans come before wide ones. -/
theorem pairwise_narrowFirst (n : Nat) :
    (narrowFirst n).Pairwise fun a b => a.2 - a.1 ≤ b.2 - b.1 ∧ a ≠ b := by
  refine pairwise_ofWidths n Nat.le_refl ?_
  have hlt : (List.range' 1 n).Pairwise (· < ·) := List.pairwise_lt_range' 1
  exact hlt.imp fun h => ⟨Nat.le_of_lt h, Nat.ne_of_lt h⟩

/-- The other way round, wide spans come before narrow ones. -/
theorem pairwise_wideFirst (n : Nat) :
    (wideFirst n).Pairwise fun a b => b.2 - b.1 ≤ a.2 - a.1 ∧ a ≠ b := by
  refine pairwise_ofWidths n (R := fun v w => w ≤ v) Nat.le_refl (List.pairwise_reverse.mpr ?_)
  have hlt : (List.range' 1 n).Pairwise (· < ·) := List.pairwise_lt_range' 1
  exact hlt.imp fun h => ⟨Nat.le_of_lt h, (Nat.ne_of_lt h).symm⟩

theorem mem_wideFirst {n start stop : Nat} :
    (start, stop) ∈ wideFirst n ↔ start < stop ∧ stop ≤ n := by
  rw [← mem_narrowFirst]
  simp only [wideFirst, narrowFirst, List.mem_flatMap, List.mem_reverse]

/-- By the time a span's turn comes, all narrower ones have had theirs. -/
theorem mem_done_of_narrower {n start stop start' stop' : Nat} {done rest : List (Nat × Nat)}
    (hsplit : narrowFirst n = done ++ (start, stop) :: rest) (h₁ : start' < stop')
    (h₂ : stop' ≤ n) (hlt : stop' - start' < stop - start) : (start', stop') ∈ done := by
  have hmem : (start', stop') ∈ narrowFirst n := mem_narrowFirst.mpr ⟨h₁, h₂⟩
  have hpair := pairwise_narrowFirst n
  rw [hsplit] at hmem hpair
  rcases List.mem_append.mp hmem with h | h
  · exact h
  -- otherwise its turn is still to come, and it would be as wide at least
  · rcases List.mem_cons.mp h with h | h
    · cases h
      omega
    · have := (List.pairwise_cons.mp (List.pairwise_append.mp hpair).2.1).1 _ h
      simp only at this
      omega

/-- A span has only one turn. -/
theorem notMem_done {n : Nat} {span : Nat × Nat} {done rest : List (Nat × Nat)}
    (hsplit : narrowFirst n = done ++ span :: rest) : span ∉ done := by
  have hpair := pairwise_narrowFirst n
  rw [hsplit] at hpair
  intro hmem
  exact ((List.pairwise_append.mp hpair).2.2 span hmem span List.mem_cons_self).2 rfl

end ChartParsing.Span
