import ChartParsing.Chart.SpanTable
import ChartParsing.Proofs.Derivation.Constituents
import ChartParsing.Proofs.Rows
import ChartParsing.Proofs.Span
import Mathlib.Algebra.GroupWithZero.Defs

/-!
# Weights in a table

A table has a place for every constituent of its sentence, and different ones have
different places. So a table of weights is a function from constituents to weights,
zero where there is no place, and writing to the table updates this function at one
point.
-/

namespace ChartParsing.SpanTable

variable {S : Type}

/-- The table has the shape that `n` tokens and `width` symbols need. -/
structure Full (t : SpanTable S) (n width : Nat) : Prop where
  tokens_eq : t.tokens = n
  width_eq : t.width = width
  size_eq : t.entries.size = Span.count n * width

/-- The constituent is one of a sentence of `n` tokens and of `width` symbols. -/
structure Fits (c : Constituent) (n width : Nat) : Prop where
  start_lt : c.start < c.stop
  stop_le : c.stop ≤ n
  symbol_lt : c.symbol.index < width

theorem fits_iff {c : Constituent} {n width : Nat} :
    Fits c n width ↔ c.start < c.stop ∧ c.stop ≤ n ∧ c.symbol.index < width :=
  ⟨fun h => ⟨h.start_lt, h.stop_le, h.symbol_lt⟩, fun h => ⟨h.1, h.2.1, h.2.2⟩⟩

instance (c : Constituent) (n width : Nat) : Decidable (Fits c n width) :=
  decidable_of_iff _ fits_iff.symm

/-- The weight of a constituent, zero where the table has no place for it. -/
def weight [Zero S] (t : SpanTable S) (c : Constituent) : S :=
  if Fits c t.tokens t.width then
    (t.entries[t.place c.symbol c.start c.stop]?).getD 0
  else 0

section

variable {t : SpanTable S} {n width : Nat} {c c' : Constituent}

theorem Full.place_lt (h : t.Full n width) (hc : Fits c n width) :
    t.place c.symbol c.start c.stop < t.entries.size := by
  rw [place, h.size_eq, h.tokens_eq, h.width_eq, Rows.place_lt_iff hc.symbol_lt]
  exact Span.index_lt_count hc.start_lt hc.stop_le

/-- Two constituents have two places. -/
theorem Full.place_inj (h : t.Full n width) (hc : Fits c n width) (hc' : Fits c' n width)
    (heq : t.place c.symbol c.start c.stop = t.place c'.symbol c'.start c'.stop) : c = c' := by
  rw [place, place, h.tokens_eq, h.width_eq] at heq
  obtain ⟨hindex, hsymbol⟩ := (Rows.place_inj hc.symbol_lt hc'.symbol_lt).mp heq
  obtain ⟨hs, he⟩ := Span.index_inj hc.start_lt hc.stop_le hc'.start_lt hc'.stop_le hindex
  have hsym := Symbol.index_inj.mp hsymbol
  obtain ⟨sym, s, e⟩ := c
  cases hsym
  cases hs
  cases he
  rfl

theorem full_replicate (n width : Nat) (v : S) : (replicate n width v).Full n width :=
  ⟨rfl, rfl, Array.size_replicate⟩

variable [Zero S]

theorem Full.weight_eq (h : t.Full n width) (hc : Fits c n width) :
    t.weight c = (t.entries[t.place c.symbol c.start c.stop]?).getD 0 := by
  rw [weight, h.tokens_eq, h.width_eq, if_pos hc]

theorem Full.weight_eq_zero (h : t.Full n width) (hc : ¬ Fits c n width) : t.weight c = 0 := by
  rw [weight, h.tokens_eq, h.width_eq, if_neg hc]

theorem weight_replicate (n width : Nat) (c : Constituent) :
    (replicate n width (0 : S)).weight c = 0 := by
  unfold weight
  split
  · simp only [replicate, Array.getElem?_replicate]
    split <;> rfl
  · rfl

/-- What is read is the weight. -/
theorem Full.get_eq (h : t.Full n width) (hc : Fits c n width) :
    t.get c.symbol c.start c.stop = .ok (t.weight c) := by
  rw [get, h.weight_eq hc, Array.getElem?_eq_getElem (h.place_lt hc)]
  rfl

/-- What is written is the weight afterwards, and no other weight changes. -/
theorem Full.set_ok (h : t.Full n width) (hc : Fits c n width) (v : S) :
    ∃ t', t.set c.symbol c.start c.stop v = .ok t' ∧ t'.Full n width ∧
      t'.weight = Function.update t.weight c v := by
  have hplace := h.place_lt hc
  have hfull : ({ t with entries := t.entries.setIfInBounds (t.place c.symbol c.start c.stop) v } :
      SpanTable S).Full n width :=
    ⟨h.tokens_eq, h.width_eq, Array.size_setIfInBounds.trans h.size_eq⟩
  refine ⟨_, if_pos hplace, hfull, ?_⟩
  funext c'
  by_cases heq : c' = c
  · subst heq
    rw [Function.update_self, hfull.weight_eq hc]
    show ((t.entries.setIfInBounds _ v)[t.place _ _ _]?).getD 0 = v
    rw [Array.getElem?_setIfInBounds_self_of_lt hplace, Option.getD_some]
  rw [Function.update_of_ne heq]
  by_cases hc' : Fits c' n width
  · rw [hfull.weight_eq hc', h.weight_eq hc']
    show ((t.entries.setIfInBounds _ v)[t.place _ _ _]?).getD 0 = _
    rw [Array.getElem?_setIfInBounds_ne fun hp => heq (h.place_inj hc' hc hp.symm)]
  · rw [hfull.weight_eq_zero hc', h.weight_eq_zero hc']

end

end ChartParsing.SpanTable
