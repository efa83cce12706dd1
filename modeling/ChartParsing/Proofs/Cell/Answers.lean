import ChartParsing.Proofs.Cell.FirstBest
import ChartParsing.Proofs.Cell.Serving
import ChartParsing.Proofs.Score.Real

/-!
# What cells answer

Cells without ties differ in how they store entries, and in nothing that can be asked.
Whatever calls have been made, a cell answers from its history alone: a symbol is
present if it had a turn since the last reset, and its entry is the first of the best of
these offers, or all of them pooled in order.

This is so as long as the calls fit. For dense cells with pooled scores it is not enough
that every score offered is defined, as two offers of plus infinity show.
-/

namespace ChartParsing

variable {S C J : Type} [Score S]

/-- The score of the first turn exceeds that of the second. -/
def Turn.Beats (t t' : Turn S J) : Prop := Score.exceeds t.score t'.score = true

theorem Turn.Beats.asymm [RankedScore S] {t t' : Turn S J} (h : t.Beats t') : ¬ t'.Beats t :=
  fun h' => Bool.false_ne_true ((RankedScore.exceeds_asymm h).symm.trans h')

/-- The cell answers from its history. -/
structure Cell.Answers (aggregation : Aggregation) (history : History S J) (c : Cell S) : Prop where
  isClosed_eq : c.isClosed = history.closed
  contains_iff : ∀ sym, c.contains sym = true ↔ history.turnsOf sym ≠ []
  absent : ∀ sym, history.turnsOf sym = [] →
    c.score sym = aggregation.zero ∧ c.backPointer? sym = none
  best : aggregation = .viterbi → ∀ sym, history.turnsOf sym ≠ [] →
    ∃ turn, FirstBest Turn.Beats (history.turnsOf sym) turn ∧ c.score sym = turn.score ∧
      c.backPointer? sym = some (.derivation turn.rule.id turn.mid)
  total : aggregation = .inside → ∀ sym total, history.total sym = some total →
    c.score sym = total ∧ c.backPointer? sym = some .untracked
  symbols : history.closed = true → ∃ syms, c.symbols = .ok syms ∧
    syms.Pairwise (fun a b => a.index < b.index) ∧ ∀ sym, sym ∈ syms ↔ history.turnsOf sym ≠ []

/-! ## Merged entries -/

/-- A symbol has a merged entry if it had a turn. -/
theorem gather_eq_none_iff {aggregation : Aggregation} {turns : List (Turn S J)} {sym : Symbol} :
    gather aggregation (offersOf turns) sym = none ↔
      (turns.filter fun turn => turn.rule.parent = sym) = [] := by
  induction turns using List.reverseRecOn with
  | nil => exact ⟨fun _ => rfl, fun _ => rfl⟩
  | append_singleton turns turn ih =>
    rw [offersOf_concat, gather_concat, List.filter_append]
    by_cases hp : turn.rule.parent = sym
    · simp [hp]
    · simp [hp, ih]

/-- **A best entry is that of the first of the best turns.** -/
theorem gather_firstBest [RankedScore S] {turns : List (Turn S J)} {sym : Symbol} {e : Entry S}
    (hdefined : ∀ turn ∈ turns, Score.isUndefined turn.score = false)
    (h : gather .viterbi (offersOf turns) sym = some e) :
    ∃ turn, FirstBest Turn.Beats (turns.filter fun turn => turn.rule.parent = sym) turn ∧
      e = turn.entry .viterbi := by
  induction turns using List.reverseRecOn generalizing e with
  | nil => cases h
  | append_singleton turns turn ih =>
    have hdefined' := fun t ht => hdefined t (List.mem_append_left _ ht)
    rw [offersOf_concat, gather_concat] at h
    rw [List.filter_append]
    by_cases hp : turn.rule.parent = sym
    case neg =>
      rw [if_neg hp] at h
      rw [List.filter_cons_of_neg (by simpa using hp), List.filter_nil, List.append_nil]
      exact ih hdefined' h
    rw [if_pos hp] at h
    rw [List.filter_cons_of_pos (by simpa using hp), List.filter_nil]
    have he := Option.some.inj h
    cases hold : gather .viterbi (offersOf turns) sym with
    | none =>
      rw [hold] at he
      rw [gather_eq_none_iff.mp hold]
      exact ⟨turn, .singleton _ turn, he.symm⟩
    | some old =>
      obtain ⟨best, hbest, rfl⟩ := ih hdefined' hold
      rw [hold] at he
      simp only [Offer.merge] at he
      split at he
      · rename_i hexceeds
        refine ⟨turn, .replace ?_, he.symm⟩
        -- none of the others beats the best one, so the newcomer beats them all
        intro t ht
        have ht' := hdefined' t (List.mem_of_mem_filter ht)
        exact (RankedScore.exceeds_or_exceeds hexceeds ht').resolve_right
          (hbest.not_beats Turn.Beats.asymm ht)
      · rename_i hexceeds
        exact ⟨best, hbest.keep hexceeds, he.symm⟩

/-- **A cell without ties answers from its history.** -/
theorem Cell.Has.answers [RankedScore S] [JitterSource J] {type : CellType}
    {aggregation : Aggregation} {size : Nat} {history : History S J} {c : Cell S}
    (h : c.Has J type aggregation size history) (htype : type ≠ .tieBreaking)
    (hdefined : ∀ turn ∈ history.turns, Score.isUndefined turn.score = false) :
    c.Answers aggregation history := by
  have hclosed := h.isClosed_eq
  obtain ⟨used, htook, hc⟩ := h
  have hfind : ∀ sym, c.find? sym = gather aggregation (offersOf history.turns) sym := by
    intro sym
    rw [← htook.after.find?_eq_gather htype, hc]
    cases history.closed <;> rfl
  have hagg : c.aggregation = aggregation := by
    rw [hc, ← htook.after.shape.2.1]
    cases history.closed <;> rfl
  have hnone : ∀ sym, c.find? sym = none ↔ history.turnsOf sym = [] := by
    intro sym
    rw [hfind, gather_eq_none_iff, History.turnsOf]
  have hcontains : ∀ sym, (c.find? sym).isSome = true ↔ history.turnsOf sym ≠ [] := by
    intro sym
    rw [Option.isSome_iff_ne_none, Ne, hnone]
  refine ⟨hclosed, hcontains, ?_, ?_, ?_, ?_⟩
  · intro sym hempty
    rw [score, backPointer?, (hnone sym).mpr hempty, hagg]
    exact ⟨rfl, rfl⟩
  · intro hviterbi sym hsome
    subst hviterbi
    obtain ⟨e, he⟩ := Option.isSome_iff_exists.mp ((hcontains sym).mpr hsome)
    obtain ⟨turn, hbest, rfl⟩ := gather_firstBest hdefined ((hfind sym).symm.trans he)
    refine ⟨turn, hbest, ?_, ?_⟩
    · rw [score, he]
      rfl
    · rw [backPointer?, he]
      rfl
  · intro hinside sym total htotal
    subst hinside
    rw [← History.gather_inside_score, ← hfind, Option.map_eq_some_iff] at htotal
    obtain ⟨e, he, rfl⟩ := htotal
    refine ⟨by rw [score, he], ?_⟩
    rw [backPointer?, he, Option.map_some, gather_untracked ((hfind sym).symm.trans he)]
  · intro hclosed'
    rw [hclosed', if_pos rfl] at hc
    subst hc
    have htidy := htook.after.shape.2.2.1
    refine ⟨used.store.symbols, rfl, htidy.pairwise_symbols, fun sym => ?_⟩
    rw [htidy.mem_symbols, ← hcontains]
    rfl

/-! ## Cells behind a constraint -/

section

variable [CellConstraint C S]

/-- The calls that reach a cell behind a constraint: all but the offers that are not
admitted. -/
def reaching (constraint : Option C) (start stop : Nat) (calls : List (CellCall S J)) :
    List (CellCall S J) :=
  calls.filter fun
    | .offer turn => admits constraint start stop turn.toOffer
    | .close | .reset => true

omit [Score S] in
theorem reaching_append (constraint : Option C) (start stop : Nat)
    (calls more : List (CellCall S J)) :
    reaching constraint start stop (calls ++ more) =
      reaching constraint start stop calls ++ reaching constraint start stop more :=
  List.filter_append _ _

omit [Score S] in
theorem reaching_offer_cons (constraint : Option C) (start stop : Nat) (turn : Turn S J)
    (calls : List (CellCall S J)) :
    reaching constraint start stop (.offer turn :: calls) =
      if admits constraint start stop turn.toOffer then
        .offer turn :: reaching constraint start stop calls
      else reaching constraint start stop calls :=
  List.filter_cons

omit [Score S] in
/-- The calls that do not reach the cell would neither have closed it nor opened it. -/
theorem History.closed_reaching (constraint : Option C) (start stop : Nat)
    (calls : List (CellCall S J)) {history history' : History S J}
    (h : history.closed = history'.closed) :
    (callAll call history (reaching constraint start stop calls)).2.closed =
      (callAll call history' calls).2.closed := by
  induction calls generalizing history history' with
  | nil => exact h
  | cons a calls ih =>
    cases a with
    | offer turn =>
      have hkeeps := closed_call_offer history' turn
      rw [reaching_offer_cons, callAll_cons _ history']
      split
      · exact ih (((closed_call_offer history turn).trans h).trans hkeeps.symm)
      · exact ih (h.trans hkeeps.symm)
    | close => exact ih rfl
    | reset => exact ih rfl

variable [JitterSource J]

/-- **The cell behind a constraint is the cell after the calls that reach it.** -/
theorem Site.callAll_eq (constraint : Option C) (start stop : Nat) (filter : Option Nat)
    (c : Cell S) (calls : List (CellCall S J)) :
    (callAll (call constraint) ⟨start, stop, c, filter⟩ calls).2 =
      ⟨start, stop, (callAll Cell.call c (reaching constraint start stop calls)).2, filter⟩ := by
  induction calls generalizing c with
  | nil => rfl
  | cons a calls ih =>
    cases a with
    | offer turn =>
      rw [reaching_offer_cons, callAll_cons]
      by_cases hadmits : admits constraint start stop turn.toOffer = true
      · rw [if_pos hadmits, call_of_admits hadmits]
        exact ih _
      · have hsite : (call constraint ⟨start, stop, c, filter⟩ (.offer turn)).2 =
            ⟨start, stop, c, filter⟩ := call_of_not_admits (Bool.eq_false_iff.mpr hadmits)
        rw [if_neg hadmits, hsite]
        exact ih c
    | close => exact ih c.close
    | reset => exact ih c.reset

/-- **Behind a constraint, too, an offer is a fault if the cell is closed**, admitted or
not, and no other call is. -/
theorem Site.callAll_ends {type : CellType} {aggregation : Aggregation} {size : Nat} {c : C}
    {start stop : Nat} {filter : Option Nat} {calls : List (CellCall S J)}
    (hsupports : type.supports aggregation = true)
    (hfits : Fits type aggregation size (reaching (some c) start stop calls))
    (hanswers : ∀ turn, .offer turn ∈ calls → ∃ accepted,
      CellConstraint.accepts c start stop turn.mid turn.rule turn.score = .ok accepted) :
    (callAll (call (some c)) ⟨start, stop, .empty type aggregation size, filter⟩ calls).1 =
      (callAll History.call .new calls).1 := by
  induction calls using List.reverseRecOn with
  | nil => rfl
  | append_singleton calls a ih =>
    rw [reaching_append] at hfits
    have hends := ih hfits.left fun turn hturn => hanswers turn (List.mem_append_left _ hturn)
    have hhas := (Cell.has_callAll hfits.left hsupports).2
    have hclosed := History.closed_reaching (some c) start stop calls
      (rfl : (History.new : History S J).closed = _)
    rw [callAll_concat, callAll_concat, hends, callAll_eq]
    refine congrArg (fun ended => _ ++ [ended]) ?_
    cases a with
    | close => rfl
    | reset => rfl
    | offer turn =>
      obtain ⟨accepted, haccepts⟩ := hanswers turn (by simp)
      rw [History.call_offer_fst, ← hclosed]
      cases accepted with
      | false => rw [call_of_rejects haccepts, hhas.isClosed_eq]
      | true =>
        have hadmits : admits (some c) start stop turn.toOffer = true := by simp [admits, haccepts]
        rw [reaching_offer_cons, if_pos hadmits] at hfits
        rw [call_of_admits hadmits, (hhas.call hfits hsupports).1, History.call_offer_fst]

/-- **Cells without ties answer from their history.** Calls that fit end as the history
says, so only offers to the closed cell are at fault; and all that can be asked
afterwards is answered from what was offered since the last reset. A closed cell is at
fault for an offer, and stays as it is. Behind a constraint that answers, the cell is the
one after the calls that reach it, and an offer to it is still at fault if it is closed,
even one that does not reach it. -/
theorem Cell.answers_calls [RankedScore S] {type : CellType} (htype : type ≠ .tieBreaking)
    (aggregation : Aggregation) (size : Nat) (calls : List (CellCall S J)) :
    (Fits type aggregation size calls →
      (callAll call (.empty type aggregation size) calls).1 = (callAll History.call .new calls).1 ∧
        (callAll call (.empty type aggregation size) calls).2.Answers aggregation
          (callAll History.call .new calls).2) ∧
    (∀ (c : Cell S) (turn : Turn S J), c.isClosed = true →
      c.call (.offer turn) = (.error .closedCell, c)) ∧
    ∀ (constraint : C) (start stop : Nat) (filter : Option Nat),
      (callAll (Site.call (some constraint))
          ⟨start, stop, .empty type aggregation size, filter⟩ calls).2 =
        ⟨start, stop, (callAll call (.empty type aggregation size)
          (reaching (some constraint) start stop calls)).2, filter⟩ ∧
      (Fits type aggregation size (reaching (some constraint) start stop calls) →
        (∀ turn, .offer turn ∈ calls → ∃ accepted,
          CellConstraint.accepts constraint start stop turn.mid turn.rule turn.score =
            .ok accepted) →
        (callAll (Site.call (some constraint))
          ⟨start, stop, .empty type aggregation size, filter⟩ calls).1 =
            (callAll History.call .new calls).1) := by
  have hsupports : type.supports aggregation = true := by
    cases type <;> first | rfl | exact absurd rfl htype
  refine ⟨?_, fun c turn hclosed => call_of_isClosed hclosed turn, ?_⟩
  · intro hfits
    obtain ⟨hends, hhas⟩ := has_callAll hfits hsupports
    exact ⟨hends, hhas.answers htype fun turn hturn =>
      hfits.defined turn (History.mem_of_mem_turns hturn)⟩
  · intro constraint start stop filter
    exact ⟨Site.callAll_eq (some constraint) start stop filter _ calls,
      fun hfits hanswers => Site.callAll_ends hsupports hfits hanswers⟩

end

/-- An offer made twice, and once more when the cell is closed, to a dense cell, and to
one behind a constraint that rejects everything. -/
theorem Cell.answers_calls_small :
    let turn : Turn (WithBot ℚ) Jitter :=
      ⟨⟨0, .ofRhs (.ofNat 0) (.lexical (.ofNat 0)) 0, 0⟩, .ofSeed 0⟩
    let calls : List (CellCall (WithBot ℚ) Jitter) :=
      [.offer turn, .offer turn, .close, .offer turn]
    let nothing : CellPredicate (WithBot ℚ) := ⟨fun _ _ _ _ _ => false⟩
    CellType.full ≠ .tieBreaking ∧ Fits .full .viterbi 1 calls ∧
      (callAll call (.empty .full .viterbi 1) calls).1 =
        [.ok (), .ok (), .ok (), .error .closedCell] ∧
      (callAll call (.empty .full .viterbi 1) calls).2.Answers .viterbi
        (callAll History.call .new calls).2 ∧
      Fits .full .viterbi 1 (reaching (some nothing) 0 1 calls) ∧
      (callAll (Site.call (some nothing)) ⟨0, 1, .empty .full .viterbi 1, some 0⟩ calls).1 =
        [.ok (), .ok (), .ok (), .error .closedCell] := by
  intro turn calls nothing
  have hfits : ∀ made ⊆ calls, Fits .full .viterbi 1 made := by
    intro made hmade
    refine ⟨fun _ _ => rfl, fun _ turn' hturn => ?_, fun _ hinside => by cases hinside⟩
    have hturn' := hmade hturn
    simp only [calls, List.mem_cons, CellCall.offer.injEq, List.not_mem_nil, or_false, reduceCtorEq,
      false_or, or_self] at hturn'
    subst hturn'
    decide
  have hall := hfits calls (List.Subset.refl _)
  have hreached := hfits (reaching (some nothing) 0 1 calls) (List.filter_subset_self _)
  have htype : CellType.full ≠ .tieBreaking := by decide
  obtain ⟨hends, -, hsite⟩ :=
    Cell.answers_calls (C := CellPredicate (WithBot ℚ)) htype .viterbi 1 calls
  refine ⟨htype, hall, (hends hall).1, (hends hall).2, hreached, ?_⟩
  exact (hsite nothing 0 1 (some 0)).2 hreached fun _ _ => ⟨false, rfl⟩

/-- **Pooling may leave what a dense cell can hold.** Plus infinity is offered twice to an
open cell, and both offers are defined. Pooled they are not, and the second offer is
refused, so the cell does not answer from its history. -/
theorem Cell.not_answers_unbounded :
    let turn : Turn LogReal Jitter :=
      ⟨⟨0, .ofRhs (.ofNat 0) (.lexical (.ofNat 0)) (.real 0), .posInfinity⟩, .ofSeed 0⟩
    let calls : List (CellCall LogReal Jitter) := [.offer turn, .offer turn]
    turn.rule.parent.index < 1 ∧ Score.isUndefined turn.score = false ∧
      (callAll History.call .new calls).1 = [.ok (), .ok ()] ∧
      (callAll call (.empty .full .inside 1) calls).1 = [.ok (), .error .undefinedScore] ∧
      ¬ (callAll call (.empty .full .inside 1) calls).2.Answers .inside
        (callAll History.call .new calls).2 := by
  intro turn calls
  refine ⟨by decide, rfl, rfl, rfl, fun h => ?_⟩
  have htotal := (h.total rfl (.ofNat 0) .undefined rfl).1
  cases htotal

end ChartParsing
