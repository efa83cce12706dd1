import ChartParsing.Proofs.Inside.Correctness
import ChartParsing.Proofs.Score.Pooling
import Mathlib.Algebra.Ring.TransferInstance

/-!
# Inside scores of log probabilities

Real numbers and minus infinity, combined and pooled without rounding, are one to one
with the nonnegative real numbers, multiplied and added. So they are weights, and what
holds of inside scores that are weights holds of log probabilities: the score of a symbol
is the logarithm of the sum over its derivations, each with the exponential of its own
score.
-/

namespace ChartParsing

noncomputable section

open scoped NNReal

/-- Log probabilities. -/
def LogWeight : Type := {a : LogReal // a.IsWeight}

namespace LogWeight

open LogReal (add log real)

/-- The logarithm of a weight. -/
def ofWeight (w : ℝ≥0) : LogWeight := ⟨log w, LogReal.isWeight_log w⟩

theorem ofWeight_bijective : Function.Bijective ofWeight :=
  ⟨fun _ _ h => LogReal.log_injective (congrArg Subtype.val h),
    fun a => a.2.exists_log.imp fun _ h => Subtype.ext h.symm⟩

/-- The weight of a log probability. -/
def toWeight : LogWeight ≃ ℝ≥0 := (Equiv.ofBijective ofWeight ofWeight_bijective).symm

theorem val_eq (a : LogWeight) : a.val = log a.toWeight :=
  congrArg Subtype.val (toWeight.symm_apply_apply a).symm

/-- The weight is the exponential. -/
theorem exp_val (a : LogWeight) : LogReal.exp a.val = real a.toWeight := by
  rw [val_eq, LogReal.exp_log]

/-- Log probabilities are multiplied and added as their weights are. -/
instance : CommSemiring LogWeight := toWeight.commSemiring

theorem toWeight_sum (as : List LogWeight) : as.sum.toWeight = (as.map toWeight).sum :=
  map_list_sum toWeight.ringEquiv as

/-- Log probabilities are combined, pooled and compared as the numbers they are. -/
instance : Score LogWeight where
  impossible := ⟨Score.impossible, trivial⟩
  certain := ⟨Score.certain, trivial⟩
  combine a b := ⟨Score.combine a.val b.val, a.2.combine b.2⟩
  pool a b := ⟨Score.pool a.val b.val, a.2.pool b.2⟩
  exceeds a b := Score.exceeds a.val b.val
  clearlyExceeds a b := Score.clearlyExceeds a.val b.val
  ties a b := Score.ties a.val b.val
  isUndefined a := Score.isUndefined a.val
  isImpossible a := Score.isImpossible a.val
  isUnbounded a := Score.isUnbounded a.val

instance : ScoreText LogWeight where
  plain a := ScoreText.plain a.val
  marked a := ScoreText.marked a.val

instance : WeightScore LogWeight where
  combine_eq a b := Subtype.ext <| by
    show add a.val b.val = log (a.toWeight * b.toWeight)
    rw [val_eq a, val_eq b, LogReal.add_log]
  pool_eq a b := Subtype.ext <| by
    show logAdd a.val b.val = log (a.toWeight + b.toWeight)
    rw [val_eq a, val_eq b, LogReal.logAdd_log]
  impossible_eq := Subtype.ext LogReal.log_zero.symm
  certain_eq := Subtype.ext <| by
    show real 0 = log 1
    rw [LogReal.log_of_pos one_pos, NNReal.coe_one, Real.log_one]
  isUndefined_eq a := a.2.isUndefined_eq

end LogWeight

namespace Chart

variable {C J : Type} [CellConstraint C LogWeight] [JitterSource J]
  {chart : Chart LogWeight C} {sentence : List Symbol} {p : CellPredicate LogWeight}

/-- **Inside scores are logarithms of sums of exponentials.** Over every span the exponential
of the score of a symbol is the sum of the exponentials of the scores of its admitted
derivations. -/
theorem parse_exp_score {g : Grammar LogWeight} (hg : g.Accepted) {config : ChartConfig}
    (hagg : config.aggregation = .inside) (hchart : chart.Reachable J g config)
    (hsentence : ∀ token ∈ sentence, token.index < g.terminalCount)
    (hp : Follows (chart.announced sentence) sentence.length p) (hfree : p.ScoreFree)
    (scorer : Scorer LogWeight) (run : Run J LogWeight) :
    ∃ chart' run', (chart.parse sentence scorer).outcome run = (.ok (.ok chart'), run') ∧
      ∀ sym start stop, start < stop → stop ≤ sentence.length →
        ∃ cell, chart'.cell start stop = .ok cell ∧
          (derivations g sentence scorer p sym start stop).Finite ∧
          LogReal.exp (cell.score sym).val = .real (∑ᶠ d ∈ derivations g sentence scorer p sym
            start stop, (d.score scorer).toWeight : ℝ≥0) := by
  obtain ⟨chart', run', hrun, hparsed⟩ :=
    hchart.parse_returns hg hsentence hp WeightScore.isUndefined_eq scorer run
  obtain ⟨_, rfl, rfl⟩ := hchart.shaped hg.indexed
  refine ⟨chart', run', hrun, fun sym start stop h₁ h₂ => ?_⟩
  obtain ⟨site, hsite, hvalue, -⟩ := hparsed.site h₁ h₂
  have hfinite := finite_derivations hg.indexed hfree sentence scorer sym start stop
  refine ⟨site.cell, cell_eq hsite (hparsed.length_eq ▸ h₂), hfinite, ?_⟩
  have hscore : site.cell.score sym =
      totalWeight chart.grammar sentence scorer p sym start stop := by
    rw [← hparsed.weight_eq_totalWeight hg.indexed hagg hfree hp sym start stop h₁ h₂,
      Values.weight, hvalue, Cell.score_eq_getD]
  have hweight : Derivation.weight scorer = Derivation.score scorer :=
    funext fun d => (d.score_eq_weight scorer).symm
  rw [LogWeight.exp_val, hscore, totalWeight, hweight, LogWeight.toWeight_sum, List.map_map,
    sum_listing hfinite]
  rfl

end Chart

end

end ChartParsing
