import ChartParsing.Proofs.Cell.Gather
import ChartParsing.Proofs.Chart.Soundness
import ChartParsing.Proofs.Derivation.Listing
import Mathlib.Algebra.BigOperators.Finprod
import Mathlib.Algebra.BigOperators.Ring.List

/-!
# The recurrence of inside scores

The total weight of the derivations of a symbol over a span is a sum over the steps
that can be at their top: each contributes its own weight times the totals of what
it is made from. The inside scores of a parsed chart obey the same recurrence, as a
complete cell pools each application over its span once. A recurrence over spans
and ranks has one solution, so the two are equal.
-/

namespace ChartParsing

/-- The sum over lists one after another is the sum of their sums. -/
theorem sum_map_flatMap {α β M : Type} [AddCommMonoid M] (xs : List α) (f : α → List β)
    (w : β → M) : ((xs.flatMap f).map w).sum = (xs.map fun x => ((f x).map w).sum).sum := by
  induction xs with
  | nil => rfl
  | cons x xs ih =>
    rw [List.flatMap_cons, List.map_append, List.sum_append, ih, List.map_cons, List.sum_cons]

/-- The sum over a set is that over the list of its elements. -/
theorem sum_listing {α M : Type} [AddCommMonoid M] {D : Set α} (h : D.Finite) (w : α → M) :
    ((listing D).map w).sum = ∑ᶠ a ∈ D, w a := by
  rw [finsum_mem_eq_finite_toFinset_sum _ h, listing, dif_pos h, Finset.sum_map_toList]

variable {S C J : Type} [Score S] [CommSemiring S]

/-! ## Derivations -/

/-- The product of the scores of all steps. -/
def Derivation.weight (scorer : Scorer S) (d : Derivation S) : S :=
  (d.steps.map (stepScore scorer)).prod

/-- Among exact weights the score of a derivation is its weight. -/
theorem Derivation.score_eq_weight [WeightScore S] (scorer : Scorer S) (d : Derivation S) :
    d.score scorer = d.weight scorer := by
  induction d with
  | lexical r position => simp [score, weight, steps]
  | unary r child ih =>
    rw [score, WeightScore.combine_eq, ih, weight, weight, steps, List.map_cons, List.prod_cons,
      mul_comm]
  | binary r left right ihl ihr =>
    rw [score, WeightScore.combine_eq, WeightScore.combine_eq, ihl, ihr, weight, weight, weight,
      steps, List.map_cons, List.prod_cons, List.map_append, List.prod_append, mul_comm]

omit [Score S] in
/-- What a step is made from, in terms of a weight for every symbol over every
span. -/
def Step.parts (I : Symbol → Nat → Nat → S) (st : Step S) : S :=
  match st.rule.rhs with
  | .lexical _ => 1
  | .unary y => I y st.start st.stop
  | .binary y z => I y st.start st.mid * I z st.mid st.stop

omit [Score S] in
/-- The weight of a step over what it is made from. -/
def Step.weight (scorer : Scorer S) (I : Symbol → Nat → Nat → S) (st : Step S) : S :=
  st.parts I * Derivation.stepScore scorer st

section

variable {g : Grammar S} {sentence : List Symbol} {scorer : Scorer S} {p : CellPredicate S}

/-- The derivations with a step at the top weigh what the step weighs over the
totals of what it is made from. -/
theorem Step.sum_weight_expansions {below : Symbol → Nat → Nat → List (Derivation S)}
    (hbelow : ∀ y s e, ∀ d ∈ below y s e, d ∈ derivations g sentence scorer p y s e)
    {start stop : Nat} {st : Step S} (hst : st ∈ g.steps sentence start stop) :
    ((st.expansions below).map (Derivation.weight scorer)).sum =
      st.weight scorer fun y s e => ((below y s e).map (Derivation.weight scorer)).sum := by
  have htop : ∀ d ∈ st.expansions below, d.top = st := fun d hd =>
    Step.top_of_mem_expansions hbelow hst hd
  unfold Step.weight Step.parts
  unfold Step.expansions at htop ⊢
  cases hrhs : st.rule.rhs with
  | lexical t =>
    simp only [hrhs, List.mem_singleton, forall_eq] at htop
    simp [Derivation.weight, Derivation.steps, htop]
  | unary y =>
    simp only [hrhs, List.mem_map, forall_exists_index, and_imp, forall_apply_eq_imp_iff₂] at htop
    rw [List.map_map, ← List.sum_map_mul_right]
    refine congrArg List.sum (List.map_congr_left fun c hc => ?_)
    simp only [Function.comp, Derivation.weight, Derivation.steps, List.map_cons, List.prod_cons,
      htop c hc]
    exact mul_comm _ _
  | binary y z =>
    simp only [hrhs, List.mem_flatMap, List.mem_map, forall_exists_index, and_imp] at htop
    -- a product of two sums is the sum over all pairs
    rw [sum_map_flatMap, mul_assoc, ← List.sum_map_mul_right]
    refine congrArg List.sum (List.map_congr_left fun l hl => ?_)
    rw [List.map_map, ← mul_assoc, ← List.sum_map_mul_left, ← List.sum_map_mul_right]
    refine congrArg List.sum (List.map_congr_left fun r hr => ?_)
    simp only [Function.comp, Derivation.weight, Derivation.steps, List.map_cons, List.prod_cons,
      List.map_append, List.prod_append, htop _ l hl r hr rfl]
    exact mul_comm _ _

/-- The total weight of the derivations of a symbol over a span. -/
noncomputable def totalWeight (g : Grammar S) (sentence : List Symbol) (scorer : Scorer S)
    (p : CellPredicate S) (sym : Symbol) (start stop : Nat) : S :=
  ((derivationList g sentence scorer p sym start stop).map (Derivation.weight scorer)).sum

/-- **The recurrence of total weights.** -/
theorem totalWeight_eq (hg : g.Indexed) (hp : p.ScoreFree) (sym : Symbol) (start stop : Nat) :
    totalWeight g sentence scorer p sym start stop =
      ((g.stepsFor sentence p sym start stop).map
        (Step.weight scorer (totalWeight g sentence scorer p))).sum := by
  unfold totalWeight
  rw [((derivationList_perm hg hp sentence scorer sym start stop).map _).sum_eq, sum_map_flatMap]
  refine congrArg List.sum (List.map_congr_left fun st hst => ?_)
  exact Step.sum_weight_expansions (fun y s e d hd => mem_of_mem_listing hd)
    (Grammar.mem_stepsFor.mp hst).1

end

end ChartParsing
