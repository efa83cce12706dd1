import ChartParsing.Proofs.Score.Real
import Mathlib.Data.NNReal.Basic

/-!
# Pooled log scores

Log probabilities are the logarithms of weights, the nonnegative real numbers: a real
number is that of its exponential, minus infinity that of zero. Pooling sorts two
logarithms by size and singles out minus infinity. Without rounding nothing of this is
left in the result: logarithms are combined and pooled exactly as their weights are
multiplied and added. So each law of weights is a law of log probabilities.

Minus infinity is singled out because it cannot be taken from itself. Numbers that keep
the differences formed on the way to them show that this is never tried.
-/

namespace ChartParsing

/-! ## The larger and the smaller number -/

section

open LogNumber

variable {S : Type} [LogNumber S]

/-- The number that pooling keeps. -/
def larger (a b : S) : S := if le b a then a else b

/-- The number that enters pooling through its difference from the other. -/
def smaller (a b : S) : S := if le b a then b else a

theorem logAdd_eq (a b : S) :
    logAdd a b = if isNegInfinity (smaller a b) then larger a b
      else add (larger a b) (logOnePlus (exp (sub (smaller a b) (larger a b)))) := by
  unfold logAdd larger smaller
  cases le b a <;> rfl

/-! ## The differences that are formed -/

/-- A number with the differences formed on the way to it, each as its two terms. -/
structure Traced (S : Type) where
  value : S
  differences : List (S × S)

namespace Traced

/-- A number that is given. -/
def given (a : S) : Traced S := ⟨a, []⟩

/-- Traced numbers compute and compare as their values do. A comparison yields no number, so
what was compared is not kept. -/
instance : LogNumber (Traced S) where
  negInfinity := given negInfinity
  zero := given zero
  add a b := ⟨add a.value b.value, a.differences ++ b.differences⟩
  sub a b := ⟨sub a.value b.value, a.differences ++ b.differences ++ [(a.value, b.value)]⟩
  abs a := ⟨abs a.value, a.differences⟩
  exp a := ⟨exp a.value, a.differences⟩
  logOnePlus a := ⟨logOnePlus a.value, a.differences⟩
  lt a b := lt a.value b.value
  le a b := le a.value b.value
  isNegInfinity a := isNegInfinity a.value
  isPosInfinity a := isPosInfinity a.value
  isNaN a := isNaN a.value
  tieTolerance := given tieTolerance

theorem larger_given (a b : S) : larger (given a) (given b) = given (larger a b) := by
  unfold larger
  exact (apply_ite given (le b a = true) a b).symm

theorem smaller_given (a b : S) : smaller (given a) (given b) = given (smaller a b) := by
  unfold smaller
  exact (apply_ite given (le b a = true) b a).symm

/-- Whatever the numbers, pooling forms at most one difference, that of the smaller number
from the larger one, and none if the smaller one is minus infinity. -/
theorem logAdd_given (a b : S) :
    logAdd (given a) (given b) =
      ⟨logAdd a b, if isNegInfinity (smaller a b) then [] else [(smaller a b, larger a b)]⟩ := by
  rw [logAdd_eq, logAdd_eq, larger_given, smaller_given]
  cases hlo : isNegInfinity (smaller a b) with
  | true => exact if_pos hlo
  | false => exact if_neg (Bool.eq_false_iff.mp hlo)

end Traced

end

noncomputable section

open scoped NNReal

namespace LogReal

/-! ## Logarithms of weights -/

/-- The weight of a real logarithm. -/
def weight (x : ℝ) : ℝ≥0 := ⟨Real.exp x, (Real.exp_pos x).le⟩

theorem coe_weight (x : ℝ) : (weight x : ℝ) = Real.exp x := rfl

theorem weight_pos (x : ℝ) : 0 < weight x := Real.exp_pos x

theorem eq_zero_or_weight (w : ℝ≥0) : w = 0 ∨ ∃ x, w = weight x := by
  refine or_iff_not_imp_left.mpr fun hw => ⟨Real.log w, NNReal.coe_injective ?_⟩
  rw [coe_weight, Real.exp_log (NNReal.coe_pos.mpr (pos_iff_ne_zero.mpr hw))]

/-- The logarithm of a weight. -/
def log (w : ℝ≥0) : LogReal := if w = 0 then negInfinity else real (Real.log w)

@[simp]
theorem log_zero : log 0 = negInfinity := if_pos rfl

theorem log_of_pos {w : ℝ≥0} (h : 0 < w) : log w = real (Real.log w) := if_neg h.ne'

@[simp]
theorem log_weight (x : ℝ) : log (weight x) = real x := by
  rw [log_of_pos (weight_pos x), coe_weight, Real.log_exp]

theorem isWeight_log (w : ℝ≥0) : (log w).IsWeight := by
  rw [log]
  split <;> trivial

/-- Every log probability is the logarithm of a weight. -/
theorem IsWeight.exists_log {a : LogReal} (h : a.IsWeight) : ∃ w, a = log w := by
  cases a with
  | negInfinity => exact ⟨0, log_zero.symm⟩
  | real x => exact ⟨weight x, (log_weight x).symm⟩
  | posInfinity => exact h.elim
  | undefined => exact h.elim

theorem exp_log (w : ℝ≥0) : exp (log w) = real w := by
  rcases eq_zero_or_weight w with rfl | ⟨x, rfl⟩
  · rw [log_zero, exp, NNReal.coe_zero]
  · rw [log_weight, exp, coe_weight]

theorem log_injective : Function.Injective log := by
  intro u v h
  have hexp := congrArg exp h
  rw [exp_log, exp_log] at hexp
  exact NNReal.coe_injective (LogReal.real.inj hexp)

theorem le_log (u v : ℝ≥0) : le (log u) (log v) = true ↔ u ≤ v := by
  rcases eq_zero_or_weight u with rfl | ⟨x, rfl⟩ <;>
    rcases eq_zero_or_weight v with rfl | ⟨y, rfl⟩
  · simp [le]
  · simp [le]
  · simp [le, (weight_pos x).ne']
  · rw [log_weight, log_weight, ← NNReal.coe_le_coe, coe_weight, coe_weight, Real.exp_le_exp]
    exact decide_eq_true_iff

/-- The weights of combined logarithms are multiplied. -/
theorem add_log (u v : ℝ≥0) : add (log u) (log v) = log (u * v) := by
  rcases eq_zero_or_weight u with rfl | ⟨x, rfl⟩ <;>
    rcases eq_zero_or_weight v with rfl | ⟨y, rfl⟩
  · simp [add]
  · simp [add]
  · simp [add]
  · have hmul : weight x * weight y = weight (x + y) :=
      NNReal.coe_injective (Real.exp_add x y).symm
    rw [hmul, log_weight, log_weight, log_weight, add]

/-! ## Pooling adds weights -/

theorem larger_log (u v : ℝ≥0) : larger (log u) (log v) = log (max u v) := by
  rw [max_comm, max_def, apply_ite log]
  exact if_congr (le_log v u) rfl rfl

theorem smaller_log (u v : ℝ≥0) : smaller (log u) (log v) = log (min u v) := by
  rw [min_comm, min_def, apply_ite log]
  exact if_congr (le_log v u) rfl rfl

theorem exists_max_eq_weight {u v : ℝ≥0} {x : ℝ} (h : min u v = weight x) :
    ∃ y, max u v = weight y := by
  refine (eq_zero_or_weight (max u v)).resolve_left fun hzero => ?_
  exact (weight_pos x).not_ge (h ▸ hzero ▸ min_le_max)

/-- `x` is kept, and `y` enters through the difference alone. -/
theorem add_logOnePlus (x y : ℝ) :
    add (real x) (logOnePlus (exp (add (real y) (neg (real x))))) =
      log (weight x + weight y) := by
  have hpos := Real.exp_pos (y + -x)
  have hlog : x + Real.log (1 + Real.exp (y + -x)) = Real.log (Real.exp x + Real.exp y) := by
    calc x + Real.log (1 + Real.exp (y + -x))
        = Real.log (Real.exp x * (1 + Real.exp (y + -x))) := by
          rw [Real.log_mul (Real.exp_ne_zero x) (by positivity), Real.log_exp]
      _ = Real.log (Real.exp x + Real.exp y) := by
          rw [mul_add, mul_one, ← Real.exp_add, add_neg_cancel_comm_assoc]
  rw [neg, add, exp, logOnePlus, if_neg (by linarith), if_neg (by linarith), add, hlog,
    log_of_pos (add_pos (weight_pos x) (weight_pos y)), NNReal.coe_add, coe_weight, coe_weight]

/-- **The weights of pooled logarithms are added.** -/
theorem logAdd_log (u v : ℝ≥0) : logAdd (log u) (log v) = log (u + v) := by
  rw [logAdd_eq, larger_log, smaller_log, ← max_add_min u v]
  rcases eq_zero_or_weight (min u v) with hlo | ⟨y, hlo⟩
  · rw [hlo, log_zero, add_zero]
    rfl
  · obtain ⟨x, hhi⟩ := exists_max_eq_weight hlo
    rw [hlo, hhi, log_weight, log_weight]
    exact add_logOnePlus x y

theorem IsWeight.pool {a b : LogReal} (ha : a.IsWeight) (hb : b.IsWeight) :
    IsWeight (Score.pool a b) := by
  obtain ⟨u, rfl⟩ := ha.exists_log
  obtain ⟨v, rfl⟩ := hb.exists_log
  show IsWeight (logAdd (log u) (log v))
  rw [logAdd_log]
  exact isWeight_log _

/-- Between log probabilities a difference is formed of real numbers only, the smaller one
first. -/
theorem IsWeight.differences {a b : LogReal} (ha : a.IsWeight) (hb : b.IsWeight)
    {d : LogReal × LogReal}
    (hd : d ∈ (logAdd (Traced.given a) (Traced.given b)).differences) :
    ∃ x y : ℝ, d = (real x, real y) ∧ x ≤ y := by
  obtain ⟨u, rfl⟩ := ha.exists_log
  obtain ⟨v, rfl⟩ := hb.exists_log
  rw [Traced.logAdd_given, smaller_log, larger_log] at hd
  rcases eq_zero_or_weight (min u v) with hlo | ⟨x, hlo⟩
  · rw [hlo, log_zero] at hd
    cases hd
  · obtain ⟨y, hhi⟩ := exists_max_eq_weight hlo
    rw [hlo, hhi, log_weight, log_weight] at hd
    refine ⟨x, y, List.mem_singleton.mp hd, ?_⟩
    have hle : weight x ≤ weight y := hlo ▸ hhi ▸ min_le_max
    exact Real.exp_le_exp.mp hle

/-- **Pooling adds weights exactly.** Among log probabilities, that is real numbers and
minus infinity, the exponential of a pooled score is the sum of the exponentials. So
pooling is commutative and associative with minus infinity as its neutral element,
combining distributes over it, and it is monotone in both arguments and no less than
either of them. Differences are formed of real numbers only, the smaller one first, and so
never of two minus infinities. -/
theorem logAdd_adds_weights {a b c : LogReal} (ha : a.IsWeight) (hb : b.IsWeight)
    (hc : c.IsWeight) :
    (logAdd a b).IsWeight ∧ exp (logAdd a b) = add (exp a) (exp b) ∧
    logAdd a b = logAdd b a ∧ logAdd (logAdd a b) c = logAdd a (logAdd b c) ∧
    logAdd negInfinity a = a ∧ logAdd a negInfinity = a ∧
    add c (logAdd a b) = logAdd (add c a) (add c b) ∧
    add (logAdd a b) c = logAdd (add a c) (add b c) ∧
    (le a b = true →
      le (logAdd a c) (logAdd b c) = true ∧ le (logAdd c a) (logAdd c b) = true) ∧
    le a (logAdd a b) = true ∧ le b (logAdd a b) = true ∧
    (logAdd (Traced.given a) (Traced.given b)).value = logAdd a b ∧
    ∀ d ∈ (logAdd (Traced.given a) (Traced.given b)).differences,
      ∃ x y : ℝ, d = (real x, real y) ∧ x ≤ y := by
  have hdifferences := fun d => ha.differences hb (d := d)
  -- each law is that of the weights whose logarithms are meant
  obtain ⟨u, rfl⟩ := ha.exists_log
  obtain ⟨v, rfl⟩ := hb.exists_log
  obtain ⟨w, rfl⟩ := hc.exists_log
  simp only [← log_zero, logAdd_log, add_log, le_log, exp_log]
  refine ⟨isWeight_log _, ?_, ?_, ?_, ?_, ?_, ?_, ?_, fun h => ⟨?_, ?_⟩, ?_, ?_, ?_,
    hdifferences⟩
  · rw [NNReal.coe_add, add]
  · rw [add_comm]
  · rw [add_assoc]
  · rw [zero_add]
  · rw [add_zero]
  · rw [mul_add]
  · rw [add_mul]
  · exact add_le_add_left h w
  · exact add_le_add_right h w
  · exact le_self_add
  · exact le_add_self
  · rw [Traced.logAdd_given, logAdd_log]

/-- The logarithms of 1 and 3 are pooled to that of 4, and two minus infinities to minus
infinity, without a difference. -/
theorem logAdd_adds_weights_four :
    (real 0).IsWeight ∧ (real (Real.log 3)).IsWeight ∧ negInfinity.IsWeight ∧
    exp (logAdd (real 0) (real (Real.log 3))) = real 4 ∧
    le (real 0) (real (Real.log 3)) = true ∧
    le (logAdd (real 0) negInfinity) (logAdd (real (Real.log 3)) negInfinity) = true ∧
    logAdd negInfinity negInfinity = negInfinity ∧
    (negInfinity, negInfinity) ∉
      (logAdd (Traced.given negInfinity) (Traced.given negInfinity)).differences := by
  have hle : le (real 0) (real (Real.log 3)) = true :=
    decide_eq_true (Real.log_nonneg (by norm_num))
  obtain ⟨-, hexp, -, -, -, -, -, -, hmono, -⟩ :=
    logAdd_adds_weights (isWeight_real 0) (isWeight_real (Real.log 3)) (c := negInfinity) trivial
  obtain ⟨-, -, -, -, hneutral, -, -, -, -, -, -, -, hdifferences⟩ :=
    logAdd_adds_weights (a := negInfinity) (b := negInfinity) (c := negInfinity) trivial trivial
      trivial
  refine ⟨trivial, trivial, trivial, ?_, hle, (hmono hle).1, hneutral, fun hd => ?_⟩
  · rw [hexp, exp, exp, Real.exp_zero, Real.exp_log (by norm_num), add]
    norm_num
  · obtain ⟨x, y, hxy, -⟩ := hdifferences _ hd
    cases hxy

end LogReal

end

end ChartParsing
