import ChartParsing.Proofs.Score.Laws
import ChartParsing.Score.LogNumber
import Mathlib.Analysis.SpecialFunctions.Log.Basic

/-!
# Exact log scores

A real number, an infinity, or undefined: `LogReal` computes as floating point does,
but without rounding. Two scores are tied when they are no further apart than the
tolerance, which is the same as for floating-point scores.

Log probabilities are real numbers or minus infinity. They are closed under adding,
and among them minus infinity ties with nothing, and anything real clearly exceeds it.
-/

namespace ChartParsing

/-- A logarithm: a real number, an infinity, or undefined. -/
inductive LogReal where
  | negInfinity
  | real (x : ℝ)
  | posInfinity
  | undefined

noncomputable section

namespace LogReal

/-- Scores no further apart than this are tied. -/
def tolerance : ℝ := 1 / 10 ^ 13

theorem tolerance_pos : 0 < tolerance := by
  unfold tolerance
  positivity

/-- The opposite number. -/
def neg : LogReal → LogReal
  | negInfinity => posInfinity
  | real x => real (-x)
  | posInfinity => negInfinity
  | undefined => undefined

/-- The sum, undefined for opposite infinities. -/
def add : LogReal → LogReal → LogReal
  | undefined, _ | _, undefined => undefined
  | negInfinity, posInfinity | posInfinity, negInfinity => undefined
  | negInfinity, _ | _, negInfinity => negInfinity
  | posInfinity, _ | _, posInfinity => posInfinity
  | real x, real y => real (x + y)

/-- The absolute value. -/
def abs : LogReal → LogReal
  | negInfinity | posInfinity => posInfinity
  | real x => real |x|
  | undefined => undefined

/-- The exponential. -/
def exp : LogReal → LogReal
  | negInfinity => real 0
  | real x => real (Real.exp x)
  | posInfinity => posInfinity
  | undefined => undefined

/-- The logarithm of one plus the argument. -/
def logOnePlus : LogReal → LogReal
  | negInfinity | undefined => undefined
  | real x => if x < -1 then undefined else if x = -1 then negInfinity else real (Real.log (1 + x))
  | posInfinity => posInfinity

/-- The order. Nothing undefined is comparable. -/
def le : LogReal → LogReal → Bool
  | undefined, _ | _, undefined => false
  | negInfinity, _ | _, posInfinity => true
  | real x, real y => x ≤ y
  | _, _ => false

/-- The strict order. -/
def lt : LogReal → LogReal → Bool
  | undefined, _ | _, undefined => false
  | negInfinity, negInfinity | posInfinity, _ => false
  | negInfinity, _ | _, posInfinity => true
  | real x, real y => x < y
  | real _, negInfinity => false

/-- The number is minus infinity. -/
def isNegInfinity : LogReal → Bool
  | negInfinity => true
  | _ => false

/-- The number is plus infinity. -/
def isPosInfinity : LogReal → Bool
  | posInfinity => true
  | _ => false

/-- The number is undefined. -/
def isNaN : LogReal → Bool
  | undefined => true
  | _ => false

instance : LogNumber LogReal where
  negInfinity := negInfinity
  zero := real 0
  add := add
  sub a b := add a b.neg
  abs := abs
  exp := exp
  logOnePlus := logOnePlus
  lt := lt
  le := le
  isNegInfinity := isNegInfinity
  isPosInfinity := isPosInfinity
  isNaN := isNaN
  tieTolerance := real tolerance

instance : Score LogReal := Score.ofLogNumber

instance : DecidableEq LogReal := Classical.decEq _

/-- Decimals of real numbers cannot be computed, so only their kind is written. -/
instance : ScoreText LogReal where
  plain
    | negInfinity => "-inf"
    | real _ => "finite"
    | posInfinity => "inf"
    | undefined => "NaN"
  marked
    | negInfinity => "-inf"
    | real _ => "finite"
    | posInfinity => "inf"
    | undefined => "NaN"

/-! ## Comparisons -/

@[simp]
theorem isUndefined_real (x : ℝ) : Score.isUndefined (real x) = false := rfl

@[simp]
theorem combine_real (x y : ℝ) : Score.combine (real x) (real y) = real (x + y) := rfl

@[simp]
theorem exceeds_real (x y : ℝ) : Score.exceeds (real x) (real y) = true ↔ y < x :=
  decide_eq_true_iff

@[simp]
theorem clearlyExceeds_real (x y : ℝ) :
    Score.clearlyExceeds (real x) (real y) = true ↔ y + tolerance < x :=
  decide_eq_true_iff

@[simp]
theorem ties_real (x y : ℝ) : Score.ties (real x) (real y) = true ↔ |x - y| ≤ tolerance := by
  rw [sub_eq_add_neg]
  exact decide_eq_true_iff

instance : RankedScore LogReal where
  exceeds_asymm {a b} h := by
    cases a <;> cases b <;> first | rfl | cases h | skip
    rw [exceeds_real] at h
    rw [Bool.eq_false_iff, Ne, exceeds_real]
    exact lt_asymm h
  exceeds_or_exceeds {a b c} h hdefined := by
    cases b with
    | undefined => cases hdefined
    | negInfinity | posInfinity =>
      cases a <;> cases c <;> first | exact Or.inl rfl | exact Or.inr rfl | cases h
    | real y =>
      cases a <;> cases c <;> first | exact Or.inl rfl | exact Or.inr rfl | cases h | skip
      rw [exceeds_real] at h ⊢
      rw [exceeds_real]
      exact (lt_or_ge y _).imp_right (lt_of_lt_of_le h)

instance : StrictScore LogReal where
  exceeds_self a := by
    cases a <;> first | rfl | skip
    rw [Bool.eq_false_iff, Ne, exceeds_real]
    exact lt_irrefl _
  exceeds_trans {a b c} hab hbc := by
    cases a <;> cases b <;> cases c <;>
      first
      | rfl
      | exact absurd (show false = true from hab) (by decide)
      | exact absurd (show false = true from hbc) (by decide)
      | skip
    rw [exceeds_real] at hab hbc ⊢
    exact lt_trans hbc hab

/-! ## Log probabilities -/

/-- The number is real or minus infinity. -/
def IsWeight : LogReal → Prop
  | negInfinity | real _ => True
  | posInfinity | undefined => False

theorem isWeight_real (x : ℝ) : (real x).IsWeight := trivial

theorem IsWeight.combine {a b : LogReal} (ha : a.IsWeight) (hb : b.IsWeight) :
    IsWeight (Score.combine a b) := by
  cases a <;> cases b <;> first | exact ha.elim | exact hb.elim | trivial

theorem IsWeight.isUndefined_eq {a : LogReal} (ha : a.IsWeight) : Score.isUndefined a = false := by
  cases a <;> first | exact ha.elim | rfl

/-- Of two weights neither of which exceeds the other, each is the other. -/
theorem IsWeight.eq_of_not_exceeds {a b : LogReal} (ha : a.IsWeight) (hb : b.IsWeight)
    (h : Score.exceeds a b = false) (h' : Score.exceeds b a = false) : a = b := by
  cases a <;> cases b <;>
    first
    | exact ha.elim
    | exact hb.elim
    | rfl
    | exact absurd (show true = false from h) (by decide)
    | exact absurd (show true = false from h') (by decide)
    | skip
  rw [Bool.eq_false_iff, Ne, exceeds_real, not_lt] at h h'
  rw [le_antisymm h h']

/-- If both are real, they are the same or further apart than the tolerance. -/
def Discernible (a b : LogReal) : Prop :=
  ∀ x y, a = real x → b = real y → x = y ∨ tolerance < |x - y|

/-- Among discernible weights the tolerance does not matter for what is better. -/
theorem Discernible.clearlyExceeds_eq {a b : LogReal} (h : a.Discernible b) (ha : a.IsWeight)
    (hb : b.IsWeight) : Score.clearlyExceeds a b = Score.exceeds a b := by
  cases a <;> cases b <;> first | exact ha.elim | exact hb.elim | rfl | skip
  rename_i x y
  have hpos := tolerance_pos
  rw [Bool.eq_iff_iff, clearlyExceeds_real, exceeds_real]
  refine ⟨fun hlt => by linarith, fun hlt => ?_⟩
  rcases h x y rfl rfl with rfl | hfar
  · exact absurd hlt (lt_irrefl x)
  · rw [abs_of_pos (by linarith)] at hfar
    linarith

/-- Discernible weights tie if they are the same real number. -/
theorem Discernible.ties_iff {a b : LogReal} (h : a.Discernible b) (ha : a.IsWeight)
    (hb : b.IsWeight) : Score.ties a b = true ↔ ∃ x, a = real x ∧ b = real x := by
  have hnone : ∀ {a b : LogReal}, (Score.ties a b = false) → (∀ x, a = real x → b ≠ real x) →
      (Score.ties a b = true ↔ ∃ x, a = real x ∧ b = real x) := by
    intro a b hties hne
    rw [hties]
    refine ⟨fun h => absurd h Bool.false_ne_true, fun hsame => ?_⟩
    obtain ⟨x, hx, hy⟩ := hsame
    exact absurd hy (hne x hx)
  cases a <;> cases b <;> first | exact ha.elim | exact hb.elim | skip
  · exact hnone rfl (by simp)
  · exact hnone rfl (by simp)
  · exact hnone rfl (by simp)
  · rename_i x y
    rw [ties_real]
    refine ⟨fun hnear => ⟨x, rfl, ?_⟩, fun hsame => ?_⟩
    · rcases h x y rfl rfl with rfl | hfar
      · rfl
      · exact absurd hnear (not_le.mpr hfar)
    · obtain ⟨z, hx, hy⟩ := hsame
      cases hx
      cases hy
      rw [sub_self, abs_zero]
      exact tolerance_pos.le

/-- The number is whole. Whole numbers can be told apart, and so can their sums. -/
def IsWhole (x : LogReal) : Prop := ∃ n : ℤ, x = real n

theorem IsWhole.combine {x y : LogReal} (hx : IsWhole x) (hy : IsWhole y) :
    IsWhole (Score.combine x y) := by
  obtain ⟨m, rfl⟩ := hx
  obtain ⟨n, rfl⟩ := hy
  exact ⟨m + n, by rw [combine_real, Int.cast_add]⟩

theorem IsWhole.discernible {x y : LogReal} (hx : IsWhole x) (hy : IsWhole y) :
    x.Discernible y := by
  obtain ⟨m, rfl⟩ := hx
  obtain ⟨n, rfl⟩ := hy
  intro a b ha hb
  cases ha
  cases hb
  by_cases heq : m = n
  · exact Or.inl (by rw [heq])
  · right
    have hone : (1 : ℝ) ≤ |(m : ℝ) - n| := by
      rw [← Int.cast_sub, ← Int.cast_abs]
      exact_mod_cast Int.one_le_abs (sub_ne_zero.mpr heq)
    have hsmall : tolerance < 1 := by
      rw [tolerance]
      norm_num
    linarith

end LogReal

end

end ChartParsing
