import ChartParsing.Proofs.Cell.Answers
import ChartParsing.Proofs.Cell.Contest
import ChartParsing.Proofs.Chart.Finding

/-!
# The best of the scores offered

The score that a cell holds of a symbol is one of those offered for it, and none of them
exceeds it. This goes for cells of every type, as long as scores that are not the same
are not taken for tied. What the best score is depends on which scores are offered, and
neither on their order nor on anything drawn.
-/

namespace ChartParsing

variable {S J : Type} [Score S]

/-- The best score, if there is any: it is one of them, and none exceeds it. -/
def IsBest (scores : Set S) : Option S → Prop
  | none => scores = ∅
  | some best => best ∈ scores ∧ ∀ x ∈ scores, Score.exceeds x best = false

namespace IsBest

variable {scores : Set S} {best x : S}

theorem singleton [RankedScore S] (x : S) : IsBest {x} (some x) := by
  refine ⟨rfl, fun y hy => ?_⟩
  rw [Set.mem_singleton_iff.mp hy, Bool.eq_false_iff]
  exact fun h => Bool.false_ne_true ((RankedScore.exceeds_asymm h).symm.trans h)

/-- A score that does not exceed the best one changes nothing. -/
theorem keep (h : IsBest scores (some best)) (hx : Score.exceeds x best = false) :
    IsBest (insert x scores) (some best) := by
  refine ⟨Set.mem_insert_of_mem x h.1, fun y hy => ?_⟩
  rcases hy with rfl | hy
  · exact hx
  · exact h.2 y hy

/-- A score that exceeds the best one is the best. -/
theorem replace [RankedScore S] (h : IsBest scores (some best))
    (hdefined : ∀ y ∈ scores, Score.isUndefined y = false) (hx : Score.exceeds x best = true) :
    IsBest (insert x scores) (some x) := by
  refine ⟨Set.mem_insert x scores, fun y hy => ?_⟩
  rcases hy with rfl | hy
  · exact (singleton y).2 y rfl
  · have hbelow := (RankedScore.exceeds_or_exceeds hx (hdefined y hy)).resolve_right
      (Bool.eq_false_iff.mp (h.2 y hy))
    exact RankedScore.exceeds_asymm hbelow

/-- **There is one best weight.** -/
theorem unique {scores : Set LogReal} {a b : Option LogReal} (ha : IsBest scores a)
    (hb : IsBest scores b) (hweights : ∀ x ∈ scores, x.IsWeight) : a = b := by
  cases a with
  | none =>
    cases b with
    | none => rfl
    | some y => exact absurd hb.1 (by rw [show scores = ∅ from ha]; exact Set.notMem_empty y)
  | some x =>
    cases b with
    | none => exact absurd ha.1 (by rw [show scores = ∅ from hb]; exact Set.notMem_empty x)
    | some y =>
      exact congrArg some ((hweights x ha.1).eq_of_not_exceeds (hweights y hb.1) (hb.2 x ha.1)
        (ha.2 y hb.1))

end IsBest

/-! ## The best of the turns -/

variable [JitterSource J]

/-- **One turn** among weights that can be told apart leaves the better score. -/
theorem Turn.challenge_isBest {scores : Set LogReal} {turn : Turn LogReal J}
    {i : Incumbent LogReal} (h : IsBest scores (some i.entry.score))
    (hweights : ∀ x ∈ insert turn.score scores, x.IsWeight)
    (hdiscern : turn.score.Discernible i.entry.score) :
    IsBest (insert turn.score scores) (some (turn.challenge (some i)).1.entry.score) := by
  have hturn := hweights turn.score (Set.mem_insert _ _)
  have hi := hweights i.entry.score (Set.mem_insert_of_mem _ h.1)
  have hexceeds := hdiscern.clearlyExceeds_eq hturn hi
  cases hclear : Score.clearlyExceeds turn.score i.entry.score with
  | true =>
    rw [challenge_of_clearlyExceeds hclear]
    rw [hclear] at hexceeds
    exact h.replace (fun y hy => (hweights y (Set.mem_insert_of_mem _ hy)).isUndefined_eq)
      hexceeds.symm
  | false =>
    rw [hclear] at hexceeds
    -- of two that tie it does not matter which one wins, as they score the same
    have hsame : (turn.challenge (some i)).1.entry.score = i.entry.score := by
      cases hties : Score.ties turn.score i.entry.score with
      | true =>
        obtain ⟨x, hx, hx'⟩ := (hdiscern.ties_iff hturn hi).mp hties
        rcases turn.challenge_entry i with hseat | hseat
        · rw [hseat, hx']
          exact hx
        · rw [hseat]
      | false => rw [challenge_of_not_ties hclear hties]
    rw [hsame]
    exact h.keep hexceeds.symm

/-- The incumbent has the best of the scores, if these can be told apart. -/
theorem contested_isBest {turns : List (Turn LogReal J)}
    (hweights : ∀ x ∈ scoresOf turns, x.IsWeight)
    (hdiscern : ∀ x ∈ scoresOf turns, ∀ y ∈ scoresOf turns, x.Discernible y) :
    IsBest (scoresOf turns) ((contested turns).map (·.entry.score)) := by
  induction turns using List.reverseRecOn with
  | nil => exact scoresOf_nil
  | append_singleton turns turn ih =>
    rw [scoresOf_concat] at hweights hdiscern ⊢
    have hbest := ih (fun x hx => hweights x (Set.mem_insert_of_mem _ hx))
      fun x hx y hy => hdiscern x (Set.mem_insert_of_mem _ hx) y (Set.mem_insert_of_mem _ hy)
    rw [contested_concat]
    cases hold : contested turns with
    | none =>
      rw [contested_eq_none_iff.mp hold, scoresOf_nil, insert_empty_eq]
      exact .singleton turn.score
    | some i =>
      rw [hold] at hbest
      exact Turn.challenge_isBest hbest hweights
        (hdiscern _ (Set.mem_insert _ _) _ (Set.mem_insert_of_mem _ hbest.1))

/-- **A cell holds the best score of the turns.** If it breaks ties, scores that tie must be
the same. -/
theorem Cell.Has.isBest {type : CellType} {size : Nat} {history : History LogReal J}
    {c : Cell LogReal} (h : c.Has J type .viterbi size history)
    (hweights : ∀ turn ∈ history.turns, turn.score.IsWeight) {sym : Symbol}
    (hdiscern : type = .tieBreaking → ∀ x ∈ scoresOf (history.turnsOf sym),
      ∀ y ∈ scoresOf (history.turnsOf sym), x.Discernible y) :
    IsBest (scoresOf (history.turnsOf sym)) (c.value? sym) := by
  by_cases htype : type = .tieBreaking
  · subst htype
    rw [value?, (h.find?_contested sym).1, Option.map_map]
    refine contested_isBest (fun x hx => ?_) (hdiscern rfl)
    obtain ⟨turn, hturn, rfl⟩ := hx
    exact hweights turn (History.mem_turnsOf.mp hturn).1
  · have hanswers := h.answers htype fun turn hturn => (hweights turn hturn).isUndefined_eq
    cases hv : c.value? sym with
    | none =>
      have habsent : history.turnsOf sym = [] := by
        by_contra hsome
        obtain ⟨v, hv'⟩ := contains_iff_value?.mp ((hanswers.contains_iff sym).mpr hsome)
        cases hv.symm.trans hv'
      rw [habsent]
      exact scoresOf_nil
    | some v =>
      have hsome := (hanswers.contains_iff sym).mp (contains_iff_value?.mpr ⟨v, hv⟩)
      obtain ⟨turn, hbest, hscore, -⟩ := hanswers.best rfl sym hsome
      rw [score_eq_of_value? hv] at hscore
      refine ⟨⟨turn, hbest.mem, hscore.symm⟩, fun x hx => ?_⟩
      obtain ⟨t, ht, rfl⟩ := hx
      rw [hscore, Bool.eq_false_iff]
      exact hbest.not_beats Turn.Beats.asymm ht

end ChartParsing
