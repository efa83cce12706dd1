import ChartParsing.Proofs.LoopOrder.Scores
import ChartParsing.Proofs.Removal.Rules
import ChartParsing.Proofs.Score.Exact

/-!
# Scores without the impossible rules

A symbol's score over a span is joined from what its rules score at their places, as far
as they apply. Where a rule or a part of it is impossible, what comes of it is
impossible too. So the impossible scores among those joined are left out if impossible
rules and impossible parts are. By induction on spans and ranks, the chart of a grammar
without its impossible rules holds what the chart of the whole grammar does, except for
impossible scores.
-/

namespace ChartParsing

variable {S C J : Type} [Score S]

/-! ## The scores that are joined -/

/-- What a step scores, if the symbols it is made from are present. -/
def Step.score? (V : Values S) (st : Step S) : Option S :=
  match st.rule.rhs with
  | .lexical _ => some st.rule.score
  | .unary y => (V y st.start st.stop).map fun v => Score.combine v st.rule.score
  | .binary y z =>
    ((V y st.start st.mid).bind fun v => (V z st.mid st.stop).map (Score.combine v)).map
      fun v => Score.combine v st.rule.score

/-- It is the score of the step's application. -/
theorem Step.map_score_application? (V : Values S) (st : Step S) :
    (st.application? V).map (fun a => a.score .static st.start st.stop) = st.score? V := by
  unfold application? score?
  cases st.rule.rhs with
  | lexical t => rfl
  | unary y => exact Option.map_map ..
  | binary y z =>
    simp only [Option.map_bind, Option.map_map, Function.comp_def]
    rfl

/-- What a rule scores at the places where it applies over a span. -/
def Rule.scores (sentence : List Symbol) (V : Values S) (start stop : Nat) (r : Rule S) : List S :=
  (r.rhs.mids sentence start stop).filterMap fun mid => Step.score? V ⟨r, start, mid, stop⟩

/-- What the rules for a symbol score over a span. -/
def scoresFor (rules : List (Rule S)) (sentence : List Symbol) (V : Values S) (sym : Symbol)
    (start stop : Nat) : List S :=
  rules.flatMap fun r => if r.parent = sym then r.scores sentence V start stop else []

/-- The scores do not depend on how the rules are numbered. -/
theorem scoresFor_numbered (rules : Array (Rule S)) (sentence : List Symbol) (V : Values S)
    (sym : Symbol) (start stop : Nat) :
    scoresFor (Grammar.numbered rules).toList sentence V sym start stop =
      scoresFor rules.toList sentence V sym start stop :=
  Grammar.flatMap_numbered (fun _ _ => rfl) rules

/-- They are the scores of the applications. -/
theorem map_score_applications (g : Grammar S) (sentence : List Symbol) (V : Values S)
    (sym : Symbol) (start stop : Nat) :
    ((applications g sentence V start stop).filter fun a => a.rule.parent = sym).map
        (fun a => a.score .static start stop) =
      scoresFor g.rules.toList sentence V sym start stop := by
  unfold applications Grammar.steps scoresFor
  rw [List.filterMap_flatMap, List.filter_flatMap, List.map_flatMap]
  refine List.flatMap_congr fun r _ => ?_
  rw [List.filterMap_map]
  have hrule : ∀ a ∈ (r.rhs.mids sentence start stop).filterMap
      (Step.application? V ∘ fun mid => ⟨r, start, mid, stop⟩), a.rule = r := by
    intro a ha
    obtain ⟨mid, -, ha⟩ := List.mem_filterMap.mp ha
    exact (Step.application?_eq_some ha).1
  split
  · rename_i hparent
    rw [List.filter_eq_self.mpr fun a ha => by rw [hrule a ha]; exact decide_eq_true hparent,
      List.map_filterMap]
    exact List.filterMap_congr fun mid _ => Step.map_score_application? V ⟨r, start, mid, stop⟩
  · rename_i hparent
    rw [List.filter_eq_nil_iff.mpr fun a ha => by rw [hrule a ha]; simpa using hparent]
    rfl

/-- What is scored over a span depends on the scores over narrower ones, and on those of
unary children. -/
theorem scoresFor_congr {rules : List (Rule S)} {sentence : List Symbol} {V W : Values S}
    {sym : Symbol} {start stop : Nat}
    (hunary : ∀ r ∈ rules, r.parent = sym → ∀ y, r.rhs = .unary y →
      V y start stop = W y start stop)
    (hnarrow : ∀ sym s e, e - s < stop - start → V sym s e = W sym s e) :
    scoresFor rules sentence V sym start stop = scoresFor rules sentence W sym start stop := by
  refine List.flatMap_congr fun r hr => ?_
  split
  case isFalse => rfl
  rename_i hparent
  refine List.filterMap_congr fun mid hmid => ?_
  unfold Step.score?
  cases hrhs : r.rhs with
  | lexical t => rfl
  | unary y => simp only [hunary r hr hparent y hrhs]
  | binary y z =>
    rw [hrhs] at hmid
    obtain ⟨h₁, h₂⟩ := Span.mem_splits.mp hmid
    simp only [hnarrow y start mid (by omega), hnarrow z mid stop (by omega)]

/-! ## Leaving out what is impossible -/

/-- The scores that are possible. -/
def Values.possible (V : Values S) : Values S := fun sym start stop =>
  (V sym start stop).filter isPossible

section

variable [ExactScore S]

theorem filter_map_combine (x : Option S) (c : S) :
    (x.map fun v => Score.combine v c).filter isPossible =
      if isPossible c then (x.filter isPossible).map fun v => Score.combine v c else none := by
  cases x with
  | none => simp
  | some v =>
    cases hv : isPossible v <;> cases hc : isPossible c <;>
      simp [Option.filter_some, ExactScore.isPossible_combine, hv, hc]

theorem filter_bind_combine (x y : Option S) :
    (x.bind fun v => y.map (Score.combine v)).filter isPossible =
      (x.filter isPossible).bind fun v => (y.filter isPossible).map (Score.combine v) := by
  cases x with
  | none => rfl
  | some v =>
    cases y with
    | none => simp
    | some w =>
      cases hv : isPossible v <;> cases hw : isPossible w <;>
        simp [Option.filter_some, ExactScore.isPossible_combine, hv, hw]

/-- What a step scores is possible exactly if its rule and its parts are. -/
theorem Step.filter_score? (V : Values S) (st : Step S) :
    (st.score? V).filter isPossible =
      if isPossible st.rule.score then st.score? V.possible else none := by
  unfold score? Values.possible
  cases st.rule.rhs with
  | lexical t => exact Option.filter_some
  | unary y => exact filter_map_combine _ _
  | binary y z =>
    simp only [filter_map_combine, filter_bind_combine]

/-- A rule scores something possible only if it is possible itself, and then over what
is possible. -/
theorem Rule.filter_scores (sentence : List Symbol) (V : Values S) (start stop : Nat)
    (r : Rule S) :
    (r.scores sentence V start stop).filter isPossible =
      if isPossible r.score then r.scores sentence V.possible start stop else [] := by
  unfold Rule.scores
  rw [List.filter_filterMap]
  cases hrule : isPossible r.score with
  | false =>
    refine List.filterMap_eq_nil_iff.mpr fun mid _ => ?_
    rw [Step.filter_score?, hrule]
    rfl
  | true =>
    refine List.filterMap_congr fun mid _ => ?_
    rw [Step.filter_score?, hrule]
    rfl

/-- **What is scored over a span, without the impossible scores,** is what the possible
rules score over the possible scores. -/
theorem filter_scoresFor (rules : List (Rule S)) (sentence : List Symbol) (V : Values S)
    (sym : Symbol) (start stop : Nat) :
    (scoresFor rules sentence V sym start stop).filter isPossible =
      scoresFor (rules.filter fun r => isPossible r.score) sentence V.possible sym start stop := by
  unfold scoresFor
  induction rules with
  | nil => rfl
  | cons r rules ih =>
    have hrule : (if r.parent = sym then r.scores sentence V start stop else []).filter isPossible =
        if isPossible r.score then
          if r.parent = sym then r.scores sentence V.possible start stop else []
        else [] := by
      split
      · exact r.filter_scores sentence V start stop
      · split <;> rfl
    rw [List.flatMap_cons, List.filter_append, ih, hrule, List.filter_cons]
    split
    · rw [List.flatMap_cons]
    · rw [List.nil_append]

end

end ChartParsing
