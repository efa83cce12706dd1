import ChartParsing.Proofs.Derivation.Constituents
import ChartParsing.Proofs.Inside.Recurrence
import Mathlib.Tactic.Ring

/-!
# Derivations with marked steps

What an outside pass answers are questions about the steps of derivations: how often
a rule is applied, or whether a constituent is there. Such a question marks steps
with numbers, and the answer sums, over the derivations, the weight of each times
the marks of its steps.

Marked weights have a recurrence of their own. A step contributes its own mark with
the total below it, and passes on what is marked below each child, weighted by the
step and by the child's siblings.
-/

namespace ChartParsing

variable {S : Type} [Score S] [CommSemiring S]

omit [Score S] in
/-- The children of a step, each with the weight of its sibling. -/
def Step.slots (I : Symbol → Nat → Nat → S) (st : Step S) : List (Constituent × S) :=
  match st.rule.rhs with
  | .lexical _ => []
  | .unary y => [(⟨y, st.start, st.stop⟩, 1)]
  | .binary y z =>
    [(⟨y, st.start, st.mid⟩, I z st.mid st.stop), (⟨z, st.mid, st.stop⟩, I y st.start st.mid)]

omit [Score S] in
theorem Step.map_fst_slots (I : Symbol → Nat → Nat → S) (st : Step S) :
    (st.slots I).map Prod.fst = st.children := by
  unfold slots children
  cases st.rule.rhs <;> rfl

omit [Score S] in
theorem Step.mem_children_of_mem_slots {I : Symbol → Nat → Nat → S} {st : Step S}
    {x : Constituent × S} (h : x ∈ st.slots I) : x.1 ∈ st.children := by
  rw [← st.map_fst_slots I]
  exact List.mem_map_of_mem h

/-- The weight of a derivation times the marks of its steps. -/
def Derivation.markedWeight (scorer : Scorer S) (f : Step S → S) (d : Derivation S) : S :=
  d.weight scorer * (d.steps.map f).sum

/-- The marked weights of the derivations of a constituent together. -/
noncomputable def totalMarked (g : Grammar S) (sentence : List Symbol) (scorer : Scorer S)
    (p : CellPredicate S) (f : Step S → S) (c : Constituent) : S :=
  ((derivationList g sentence scorer p c.symbol c.start c.stop).map
    (Derivation.markedWeight scorer f)).sum

/-- What a step contributes to the marked weight of the constituent it makes, where
`I` are the total weights and `M` the marked ones. -/
def Step.markedWeight (scorer : Scorer S) (I : Symbol → Nat → Nat → S) (f : Step S → S)
    (M : Constituent → S) (st : Step S) : S :=
  st.weight scorer I * f st +
    ((st.slots I).map fun x => Derivation.stepScore scorer st * x.2 * M x.1).sum

section

variable {g : Grammar S} {sentence : List Symbol} {scorer : Scorer S} {p : CellPredicate S}

omit [Score S] in
/-- Binary derivations are pairs, and every pair shares the mark at the top. -/
theorem sum_marked_pairs (ls rs : List (Derivation S)) (scorer : Scorer S) (f : Step S → S)
    {r : Rule S} {st : Step S} (htop : ∀ l ∈ ls, ∀ r' ∈ rs, (Derivation.binary r l r').top = st) :
    ((ls.flatMap fun l => rs.map (.binary r l)).map (Derivation.markedWeight scorer f)).sum =
      (ls.map (Derivation.weight scorer)).sum * (rs.map (Derivation.weight scorer)).sum *
          Derivation.stepScore scorer st * f st +
        (Derivation.stepScore scorer st * (rs.map (Derivation.weight scorer)).sum *
            (ls.map (Derivation.markedWeight scorer f)).sum +
          Derivation.stepScore scorer st * (ls.map (Derivation.weight scorer)).sum *
            (rs.map (Derivation.markedWeight scorer f)).sum) := by
  -- the marks of a pair are those of the top, of the left and of the right side
  have hpair : ∀ l ∈ ls, ∀ r' ∈ rs, (Derivation.binary r l r').markedWeight scorer f =
      l.weight scorer * Derivation.stepScore scorer st * f st * r'.weight scorer +
        (Derivation.stepScore scorer st * l.markedWeight scorer f * r'.weight scorer +
          Derivation.stepScore scorer st * l.weight scorer * r'.markedWeight scorer f) := by
    intro l hl r' hr'
    simp only [Derivation.markedWeight, Derivation.weight, Derivation.steps, List.map_cons,
      List.prod_cons, List.sum_cons, List.map_append, List.prod_append, List.sum_append,
      htop l hl r' hr']
    ring
  -- first all pairs with one left side
  have hrow : ∀ l ∈ ls, ((rs.map (.binary r l)).map (Derivation.markedWeight scorer f)).sum =
      l.weight scorer * (Derivation.stepScore scorer st * f st *
          (rs.map (Derivation.weight scorer)).sum) +
        (l.markedWeight scorer f * (Derivation.stepScore scorer st *
            (rs.map (Derivation.weight scorer)).sum) +
          l.weight scorer * (Derivation.stepScore scorer st *
            (rs.map (Derivation.markedWeight scorer f)).sum)) := by
    intro l hl
    rw [List.map_map, List.map_congr_left (f := _ ∘ _) (hpair l hl), List.sum_map_add,
      List.sum_map_add, List.sum_map_mul_left, List.sum_map_mul_left, List.sum_map_mul_left]
    ring
  rw [sum_map_flatMap, List.map_congr_left hrow, List.sum_map_add, List.sum_map_add,
    List.sum_map_mul_right, List.sum_map_mul_right, List.sum_map_mul_right]
  ring

/-- The marked weights of the derivations with a step at the top. -/
theorem Step.sum_marked_expansions {below : Symbol → Nat → Nat → List (Derivation S)}
    (hbelow : ∀ y s e, ∀ d ∈ below y s e, d ∈ derivations g sentence scorer p y s e)
    {start stop : Nat} {st : Step S} (hst : st ∈ g.steps sentence start stop) (f : Step S → S) :
    ((st.expansions below).map (Derivation.markedWeight scorer f)).sum =
      st.markedWeight scorer (fun y s e => ((below y s e).map (Derivation.weight scorer)).sum) f
        fun c => ((below c.symbol c.start c.stop).map (Derivation.markedWeight scorer f)).sum := by
  have htop : ∀ d ∈ st.expansions below, d.top = st := fun d hd =>
    Step.top_of_mem_expansions hbelow hst hd
  unfold Step.markedWeight Step.weight Step.parts Step.slots
  unfold Step.expansions at htop ⊢
  cases hrhs : st.rule.rhs with
  | lexical t =>
    simp only [hrhs, List.mem_singleton, forall_eq] at htop
    simp [Derivation.markedWeight, Derivation.weight, Derivation.steps, htop]
  | unary y =>
    simp only [hrhs, List.mem_map, forall_exists_index, and_imp, forall_apply_eq_imp_iff₂] at htop
    have hrow : ∀ c ∈ below y st.start st.stop,
        (Derivation.unary st.rule c).markedWeight scorer f =
          c.weight scorer * (Derivation.stepScore scorer st * f st) +
            Derivation.stepScore scorer st * c.markedWeight scorer f := by
      intro c hc
      simp only [Derivation.markedWeight, Derivation.weight, Derivation.steps, List.map_cons,
        List.prod_cons, List.sum_cons, htop c hc]
      ring
    simp only [List.map_map, List.map_cons, List.map_nil, List.sum_cons, List.sum_nil]
    rw [List.map_congr_left (f := _ ∘ _) hrow, List.sum_map_add, List.sum_map_mul_right,
      List.sum_map_mul_left]
    ring
  | binary y z =>
    simp only [hrhs, List.mem_flatMap, List.mem_map, forall_exists_index, and_imp] at htop
    simp only [List.map_cons, List.map_nil, List.sum_cons, List.sum_nil, add_zero]
    exact sum_marked_pairs _ _ scorer f fun l hl r hr => htop _ l hl r hr rfl

/-- A step contributes the marked weights of the derivations with it at the top. -/
theorem Step.markedWeight_eq_sum {start stop : Nat} {st : Step S}
    (hst : st ∈ g.steps sentence start stop) (f : Step S → S) :
    st.markedWeight scorer (totalWeight g sentence scorer p) f
        (totalMarked g sentence scorer p f) =
      ((st.expansions (derivationList g sentence scorer p)).map
        (Derivation.markedWeight scorer f)).sum :=
  (Step.sum_marked_expansions (fun _ _ _ _ hd => mem_of_mem_listing hd) hst f).symm

/-- **The recurrence of marked weights.** -/
theorem totalMarked_eq (hg : g.Indexed) (hp : p.ScoreFree) (f : Step S → S) (c : Constituent) :
    totalMarked g sentence scorer p f c =
      ((g.stepsFor sentence p c.symbol c.start c.stop).map (Step.markedWeight scorer
        (totalWeight g sentence scorer p) f (totalMarked g sentence scorer p f))).sum := by
  unfold totalMarked
  rw [((derivationList_perm hg hp sentence scorer c.symbol c.start c.stop).map _).sum_eq,
    sum_map_flatMap]
  refine congrArg List.sum (List.map_congr_left fun st hst => ?_)
  exact (Step.markedWeight_eq_sum (Grammar.mem_stepsFor.mp hst).1 f).symm

end

end ChartParsing
