import ChartParsing.Proofs.Cell.FirstBest
import ChartParsing.Proofs.Cell.Tolerance

/-!
# Fair contests

Among exact ties the seat of a symbol goes to the largest draw. Draws are made late: the
first contender draws only when the second one comes, and one that is clearly worse than
another never draws at all. Even so each contender draws once, at a time that does not
depend on what is drawn, and the seat is that of the first of the largest draws. So no
contender is preferred for when it comes.

Scores are exactly tied or clearly different if they are `Apart`. A group of equally good
offers may then have its contest decided and give way to a better offer, which starts
afresh.
-/

namespace ChartParsing

variable {S J : Type} [JitterSource J]

/-! ## Contests among ties -/

/-- The draws of several contenders. The first two draw when the second has its turn, and
all others at their own. -/
def contestDraws : List (Turn S J) → List Draw
  | _ :: second :: rest =>
    (JitterSource.draw second.source).1 ::
      (JitterSource.draw (JitterSource.draw second.source).2).1 ::
        rest.map fun turn => (JitterSource.draw turn.source).1
  | _ => []

/-- How many draws are made when a contender comes after so many others. -/
def drawsAfter : Nat → Nat
  | 0 => 0
  | 1 => 2
  | _ + 2 => 1

/-- The first contender has the larger draw. -/
def OutDraws (x y : Turn S J × Draw) : Prop := y.2 < x.2

theorem length_contestDraws {contenders : List (Turn S J)} (h : 2 ≤ contenders.length) :
    (contestDraws contenders).length = contenders.length := by
  match contenders, h with
  | first :: second :: rest, _ => simp [contestDraws]

/-- One more contender draws for itself. -/
theorem contestDraws_concat {contenders : List (Turn S J)} (h : 2 ≤ contenders.length)
    (turn : Turn S J) : contestDraws (contenders ++ [turn]) =
      contestDraws contenders ++ [(JitterSource.draw turn.source).1] := by
  match contenders, h with
  | first :: second :: rest, _ => simp [contestDraws]

theorem zip_contestDraws_concat {contenders : List (Turn S J)} (h : 2 ≤ contenders.length)
    (turn : Turn S J) : (contenders ++ [turn]).zip (contestDraws (contenders ++ [turn])) =
      contenders.zip (contestDraws contenders) ++ [(turn, (JitterSource.draw turn.source).1)] := by
  rw [contestDraws_concat h, List.zip_append (length_contestDraws h).symm]
  rfl

/-- Who holds the seat among contenders that tie: the only one, without a draw, or the
first of those with the largest draw. -/
inductive Seated : List (Turn S J) → Incumbent S → Prop where
  | alone (turn : Turn S J) : Seated [turn] ⟨turn.entry .viterbi, none⟩
  | drawn {contenders : List (Turn S J)} {winner : Turn S J × Draw} : 2 ≤ contenders.length →
      FirstBest OutDraws (contenders.zip (contestDraws contenders)) winner →
      Seated contenders ⟨winner.1.entry .viterbi, some winner.2⟩

/-- The draw of the incumbent says whether there was a contest. -/
theorem Seated.drawCount [Score S] {contenders : List (Turn S J)} {i : Incumbent S}
    (h : Seated contenders i) {turn : Turn S J}
    (hclear : Score.clearlyExceeds turn.score i.entry.score = false)
    (hties : Score.ties turn.score i.entry.score = true) :
    turn.drawCount (some i) = drawsAfter contenders.length := by
  simp only [Turn.drawCount, hclear, hties, Bool.false_eq_true, if_false, if_true]
  cases h with
  | alone => rfl
  | @drawn contenders _ hlength _ =>
    obtain ⟨n, hn⟩ := Nat.exists_eq_add_of_le' hlength
    rw [hn]
    rfl

/-- **One more contender.** -/
theorem Seated.challenge [Score S] {contenders : List (Turn S J)} {i : Incumbent S}
    (h : Seated contenders i) {turn : Turn S J}
    (hclear : Score.clearlyExceeds turn.score i.entry.score = false)
    (hties : Score.ties turn.score i.entry.score = true) :
    Seated (contenders ++ [turn]) (turn.challenge (some i)).1 := by
  rw [Turn.challenge_of_ties hclear hties]
  cases h with
  | alone first =>
    -- the first contest, for which both draw
    have hzip : ([first] ++ [turn]).zip (contestDraws ([first] ++ [turn])) =
        [(first, (JitterSource.draw turn.source).1)] ++
          [(turn, (JitterSource.draw (JitterSource.draw turn.source).2).1)] := rfl
    simp only
    split
    · rename_i hlt
      have hfirst : FirstBest OutDraws (([first] ++ [turn]).zip (contestDraws ([first] ++ [turn])))
          (turn, (JitterSource.draw (JitterSource.draw turn.source).2).1) := by
        rw [hzip]
        refine .replace fun z hz => ?_
        rw [List.mem_singleton.mp hz]
        exact hlt
      exact .drawn (by simp) hfirst
    · rename_i hge
      have hfirst : FirstBest OutDraws (([first] ++ [turn]).zip (contestDraws ([first] ++ [turn])))
          (first, (JitterSource.draw turn.source).1) := by
        rw [hzip]
        exact (FirstBest.singleton _ _).keep hge
      exact .drawn (by simp) hfirst
  | @drawn contenders winner hlength hbest =>
    have hlength' : 2 ≤ (contenders ++ [turn]).length := by
      rw [List.length_append]
      omega
    simp only
    split
    · rename_i hlt
      have hfirst : FirstBest OutDraws ((contenders ++ [turn]).zip
          (contestDraws (contenders ++ [turn]))) (turn, (JitterSource.draw turn.source).1) := by
        rw [zip_contestDraws_concat hlength]
        -- no draw so far is larger than the winner's, so the new one is larger than all
        refine .replace fun z hz => ?_
        have hle := Nat.le_of_not_lt (hbest.not_beats (fun h h' => Nat.lt_asymm h h') hz)
        exact Nat.lt_of_le_of_lt hle hlt
      exact .drawn hlength' hfirst
    · rename_i hge
      refine .drawn hlength' ?_
      rw [zip_contestDraws_concat hlength]
      exact hbest.keep hge

/-! ## Scores that are apart -/

open LogReal (real tolerance)

/-- Finite scores that are offered for the same symbol are equal or clearly different. -/
def Apart (turns : List (Turn LogReal J)) : Prop :=
  ∀ turn ∈ turns, ∀ turn' ∈ turns, turn.rule.parent = turn'.rule.parent →
    turn.score.Discernible turn'.score

/-- The turns with a score. -/
noncomputable def contenders (turns : List (Turn LogReal J)) (x : ℝ) : List (Turn LogReal J) :=
  turns.filter fun turn => turn.score = real x

omit [JitterSource J] in
theorem contenders_eq_nil {turns : List (Turn LogReal J)} {best x : ℝ}
    (hbest : IsGreatest (offered turns) best) (hlt : best < x) : contenders turns x = [] := by
  rw [contenders, List.filter_eq_nil_iff]
  intro t ht hscore
  exact absurd (hbest.2 ⟨t, ht, of_decide_eq_true hscore⟩) (not_le.mpr hlt)

omit [JitterSource J] in
/-- Discernible scores are compared as if there was no tolerance. -/
theorem Turn.compare_real {turn : Turn LogReal J} {i : Incumbent LogReal} {x s : ℝ}
    (hx : turn.score = real x) (hs : i.entry.score = real s)
    (h : turn.score.Discernible i.entry.score) :
    s < x ∧ Score.clearlyExceeds turn.score i.entry.score = true ∨
      x = s ∧ Score.clearlyExceeds turn.score i.entry.score = false ∧
        Score.ties turn.score i.entry.score = true ∨
      x < s ∧ Score.clearlyExceeds turn.score i.entry.score = false ∧
        Score.ties turn.score i.entry.score = false := by
  rw [hx, hs] at h ⊢
  have hclear := h.clearlyExceeds_eq (LogReal.isWeight_real x) (LogReal.isWeight_real s)
  have hties := h.ties_iff (LogReal.isWeight_real x) (LogReal.isWeight_real s)
  rw [hclear, Bool.eq_false_iff, Bool.eq_false_iff, Ne, Ne, hties, LogReal.exceeds_real]
  rcases lt_trichotomy s x with hlt | rfl | hlt
  · exact Or.inl ⟨hlt, hlt⟩
  · exact Or.inr (Or.inl ⟨rfl, lt_irrefl s, s, rfl, rfl⟩)
  · refine Or.inr (Or.inr ⟨hlt, lt_asymm hlt, fun hsame => ?_⟩)
    obtain ⟨z, hz, hz'⟩ := hsame
    cases hz
    cases hz'
    exact lt_irrefl x hlt

/-- **The seat belongs to one of the best**, as if all others had not been there. -/
theorem contested_seated {turns : List (Turn LogReal J)} {best : ℝ}
    (hfinite : ∀ turn ∈ turns, ∃ x, turn.score = real x)
    (hapart : ∀ turn ∈ turns, ∀ turn' ∈ turns, turn.score.Discernible turn'.score)
    (hbest : IsGreatest (offered turns) best) :
    ∃ i, contested turns = some i ∧ i.entry.score = real best ∧
      Seated (contenders turns best) i := by
  induction turns using List.reverseRecOn generalizing best with
  | nil =>
    obtain ⟨⟨t, ht, -⟩, -⟩ := hbest
    cases ht
  | append_singleton turns turn ih =>
    obtain ⟨x, hx⟩ := hfinite turn (by simp)
    rw [offered_concat turns hx] at hbest
    have hlater : ∀ y, contenders (turns ++ [turn]) y =
        contenders turns y ++ if x = y then [turn] else [] := by
      intro y
      rw [contenders, List.filter_append, List.filter_singleton, hx]
      simp [contenders]
    cases hold : contested turns with
    | none =>
      cases contested_eq_none_iff.mp hold
      have heq : best = x := hbest.1.resolve_right fun h => by
        obtain ⟨t, ht, -⟩ := h
        cases ht
      rw [heq, hlater, if_pos rfl]
      exact ⟨_, rfl, hx, .alone turn⟩
    | some old =>
      have hfinite' := fun t ht => hfinite t (List.mem_append_left [turn] ht)
      obtain ⟨-, best', -, hbest', -, -⟩ := contested_near_best hfinite' hold
      obtain ⟨i, hi, hscore, hseated⟩ := ih hfinite' (fun t ht t' ht' =>
        hapart t (List.mem_append_left _ ht) t' (List.mem_append_left _ ht')) hbest'
      cases hold.symm.trans hi
      obtain rfl := hbest.unique (hbest'.insert x)
      have hdiscern : turn.score.Discernible old.entry.score := by
        obtain ⟨t, ht, hscore'⟩ := hbest'.1
        rw [hscore, ← hscore']
        exact hapart turn (by simp) t (List.mem_append_left _ ht)
      rw [contested_concat, hold, hlater]
      rcases turn.compare_real hx hscore hdiscern with
        ⟨hlt, hclear⟩ | ⟨heq, hclear, hties⟩ | ⟨hlt, hclear, hties⟩
      · -- all contenders so far are left behind
        rw [max_eq_left hlt.le, contenders_eq_nil hbest' hlt, if_pos rfl,
          Turn.challenge_of_clearlyExceeds hclear]
        exact ⟨_, rfl, hx, .alone turn⟩
      · rw [← heq, max_self, if_pos rfl]
        rw [← heq] at hseated hscore
        refine ⟨_, rfl, ?_, hseated.challenge hclear hties⟩
        rcases turn.challenge_entry old with hseat | hseat
        · rw [hseat]
          exact hx
        · rw [hseat]
          exact hscore
      · rw [max_eq_right hlt.le, if_neg hlt.ne, List.append_nil,
          Turn.challenge_of_not_ties hclear hties]
        exact ⟨old, rfl, hscore, hseated⟩

/-- **How many draws the next turn makes**: none if it is worse than another one, and else
as many as are due after its equals. -/
theorem drawCount_contested {turns : List (Turn LogReal J)} {turn : Turn LogReal J} {x : ℝ}
    (hfinite : ∀ t ∈ turns, ∃ x, t.score = real x) (hx : turn.score = real x)
    (hapart : ∀ t ∈ turns ++ [turn], ∀ t' ∈ turns ++ [turn], t.score.Discernible t'.score) :
    turn.drawCount (contested turns) =
      if turns.any fun t => Score.exceeds t.score turn.score then 0
      else drawsAfter (contenders turns x).length := by
  cases hold : contested turns with
  | none =>
    cases contested_eq_none_iff.mp hold
    rfl
  | some old =>
    obtain ⟨-, best, -, hbest, -, -⟩ := contested_near_best hfinite hold
    obtain ⟨i, hi, hscore, hseated⟩ := contested_seated hfinite (fun t ht t' ht' =>
      hapart t (List.mem_append_left _ ht) t' (List.mem_append_left _ ht')) hbest
    cases hold.symm.trans hi
    obtain ⟨t, ht, hscore'⟩ := hbest.1
    have hdiscern : turn.score.Discernible old.entry.score := by
      rw [hscore, ← hscore']
      exact hapart turn (by simp) t (List.mem_append_left _ ht)
    rcases turn.compare_real hx hscore hdiscern with
      ⟨hlt, hclear⟩ | ⟨rfl, hclear, hties⟩ | ⟨hlt, hclear, hties⟩
    · rw [contenders_eq_nil hbest hlt, Turn.drawCount, if_pos hclear]
      split
      · rfl
      · rfl
    · have hnone : ¬ turns.any (fun t => Score.exceeds t.score turn.score) = true := by
        rw [List.any_eq_true]
        intro h
        obtain ⟨t', ht', hexceeds⟩ := h
        obtain ⟨y, hy⟩ := hfinite t' ht'
        rw [hy, hx, LogReal.exceeds_real] at hexceeds
        exact absurd (hbest.2 ⟨t', ht', hy⟩) (not_le.mpr hexceeds)
      rw [if_neg hnone]
      exact hseated.drawCount hclear hties
    · have hsome : turns.any (fun t => Score.exceeds t.score turn.score) = true := by
        refine List.any_eq_true.mpr ⟨t, ht, ?_⟩
        rw [hx, hscore', LogReal.exceeds_real]
        exact hlt
      rw [if_pos hsome, Turn.drawCount]
      simp only [hclear, hties, Bool.false_eq_true, if_false]

omit [JitterSource J] in
/-- The scores of one symbol are discernible if all are apart. -/
theorem Apart.discernible {history : History LogReal J} (h : Apart history.turns) {sym : Symbol}
    {turn turn' : Turn LogReal J} (hturn : turn ∈ history.turnsOf sym)
    (hturn' : turn' ∈ history.turnsOf sym) : turn.score.Discernible turn'.score := by
  obtain ⟨hmem, hsym⟩ := History.mem_turnsOf.mp hturn
  obtain ⟨hmem', hsym'⟩ := History.mem_turnsOf.mp hturn'
  exact h turn hmem turn' hmem' (hsym.trans hsym'.symm)

namespace Cell.Has

variable {size : Nat} {history : History LogReal J} {c : Cell LogReal}

/-- The seat of a symbol goes to the only one of its best turns, or to the largest
draw. -/
theorem contest (h : c.Has J .tieBreaking .viterbi size history)
    (hfinite : ∀ turn ∈ history.turns, ∃ x, turn.score = real x) (hapart : Apart history.turns)
    {sym : Symbol} {x : ℝ} (hbest : IsGreatest (offered (history.turnsOf sym)) x) :
    c.score sym = real x ∧
      (∀ turn, contenders (history.turnsOf sym) x = [turn] →
        c.jitter? sym = none ∧ c.backPointer? sym = some (turn.backPointer .viterbi)) ∧
      (2 ≤ (contenders (history.turnsOf sym) x).length → ∃ winner : Turn LogReal J × Draw,
        FirstBest OutDraws ((contenders (history.turnsOf sym) x).zip
          (contestDraws (contenders (history.turnsOf sym) x))) winner ∧
        c.jitter? sym = some winner.2 ∧
          c.backPointer? sym = some (winner.1.backPointer .viterbi)) := by
  obtain ⟨i, hi, hscore, hseated⟩ := contested_seated
    (fun turn hturn => hfinite turn (History.mem_turnsOf.mp hturn).1)
    (fun turn hturn turn' hturn' => hapart.discernible hturn hturn') hbest
  obtain ⟨hfind, hjitter⟩ := h.find?_contested sym
  rw [hi] at hfind hjitter
  rw [score, backPointer?, hfind, hjitter]
  generalize contenders (history.turnsOf sym) x = best at hseated ⊢
  refine ⟨hscore, ?_, ?_⟩
  · intro turn hone
    subst hone
    cases hseated with
    | alone => exact ⟨rfl, rfl⟩
    | drawn hlength => exact absurd hlength (by simp)
  · intro hlength
    cases hseated with
    | alone => exact absurd hlength (by simp)
    | @drawn _ winner _ hfirst => exact ⟨winner, hfirst, rfl, rfl⟩

/-- The next turn draws if it is one of the best so far, and not the first of these. -/
theorem draws (h : c.Has J .tieBreaking .viterbi size history)
    (hfinite : ∀ turn ∈ history.turns, ∃ x, turn.score = real x) (hopen : history.closed = false)
    {turn : Turn LogReal J} {x : ℝ} (hlt : turn.rule.parent.index < size)
    (hx : turn.score = real x) (hapart : Apart (history.turns ++ [turn])) :
    ∃ c', c.offer turn.toOffer turn.source = .ok (c', JitterSource.skip
      (if (history.turnsOf turn.rule.parent).any fun t => Score.exceeds t.score turn.score then 0
        else drawsAfter (contenders (history.turnsOf turn.rule.parent) x).length) turn.source) := by
  let next : History LogReal J := ⟨history.turns ++ [turn], false⟩
  have hnext : next.turnsOf turn.rule.parent = history.turnsOf turn.rule.parent ++ [turn] := by
    simp [next, History.turnsOf]
  have hdefined : ∀ o ∈ offersOf history.turns ++ [turn.toOffer],
      Score.isUndefined o.score = false := by
    intro o ho
    rw [← offersOf_concat] at ho
    obtain ⟨t, ht, rfl⟩ := List.mem_map.mp ho
    rcases List.mem_append.mp ht with ht | ht
    · obtain ⟨y, hy⟩ := hfinite t ht
      rw [hy, LogReal.isUndefined_real]
    · rw [List.mem_singleton.mp ht, hx, LogReal.isUndefined_real]
  obtain ⟨c', source, hoffer⟩ := (h.took hopen).after.takes rfl (fun _ => hlt) hdefined
    (fun hfull => by cases hfull) turn.source
  refine ⟨c', ?_⟩
  rw [hoffer, h.source_eq hoffer, drawCount_contested
    (fun t ht => hfinite t (History.mem_turnsOf.mp ht).1) hx ?_]
  rw [← hnext]
  exact fun t ht t' ht' => Apart.discernible hapart ht ht'

end Cell.Has

/-- **Contests among exact ties are fair.** Let all finite scores of a symbol since the
last reset be equal or clearly different. Its score is the best one, and its back pointer
is that of the first one with the largest draw among the turns with this score; an only
one does not draw. These draws are made as `contestDraws` says: the next turn makes two if
it is the second of the best so far, one if it is a later one, and none if it is the first
or worse. Whatever the scores, no draw is made unless a turn ties with the incumbent. -/
theorem Cell.contest_fair {size : Nat} {calls : List (CellCall LogReal J)}
    (hslots : ∀ turn, .offer turn ∈ calls → turn.rule.parent.index < size)
    (hfinite : ∀ turn, .offer turn ∈ calls → ∃ x, turn.score = real x)
    (hapart : Apart (callAll History.call .new calls).2.turns) :
    let cell := (callAll call (.empty .tieBreaking .viterbi size) calls).2
    let history := (callAll History.call .new calls).2
    (callAll call (.empty .tieBreaking .viterbi size) calls).1 =
        (callAll History.call .new calls).1 ∧
      (∀ sym x, IsGreatest (offered (history.turnsOf sym)) x →
        cell.score sym = real x ∧
        (∀ turn, contenders (history.turnsOf sym) x = [turn] →
          cell.jitter? sym = none ∧ cell.backPointer? sym = some (turn.backPointer .viterbi)) ∧
        (2 ≤ (contenders (history.turnsOf sym) x).length → ∃ winner : Turn LogReal J × Draw,
          FirstBest OutDraws ((contenders (history.turnsOf sym) x).zip
            (contestDraws (contenders (history.turnsOf sym) x))) winner ∧
          cell.jitter? sym = some winner.2 ∧
            cell.backPointer? sym = some (winner.1.backPointer .viterbi))) ∧
      (∀ (turn : Turn LogReal J) (x : ℝ), history.closed = false →
        turn.rule.parent.index < size → turn.score = real x → Apart (history.turns ++ [turn]) →
        ∃ cell', cell.offer turn.toOffer turn.source = .ok (cell', JitterSource.skip
          (if (history.turnsOf turn.rule.parent).any fun t => Score.exceeds t.score turn.score
            then 0 else drawsAfter (contenders (history.turnsOf turn.rule.parent) x).length)
          turn.source)) ∧
      ∀ (turn : Turn LogReal J) (cell' : Cell LogReal) (source : J),
        cell.offer turn.toOffer turn.source = .ok (cell', source) →
        (∀ e, cell.find? turn.rule.parent = some e → Score.ties turn.score e.score = false) →
        source = turn.source := by
  intro cell history
  obtain ⟨hends, hhas⟩ := has_callAll (Fits.of_finite hslots hfinite) rfl
  have hfinite' : ∀ turn ∈ history.turns, ∃ x, turn.score = real x :=
    fun turn hturn => hfinite turn (History.mem_of_mem_turns hturn)
  refine ⟨hends, fun sym x hbest => hhas.contest hfinite' hapart hbest,
    fun turn x hopen hlt hx hapart' => hhas.draws hfinite' hopen hlt hx hapart', ?_⟩
  intro turn cell' source hoffer hties
  rw [hhas.source_eq hoffer, Turn.drawCount_of_not_ties]
  · rfl
  · intro i hi
    refine hties i.entry ?_
    rw [(hhas.find?_contested _).1, hi]
    rfl

/-- Two offers of the same score, which both draw, and a third one that would draw for
itself alone. -/
theorem Cell.contest_fair_small :
    let turn := NearTies.turn 0 NearTies.source
    let calls : List (CellCall LogReal Jitter) := [.offer turn, .offer turn]
    let cell := (callAll call (.empty .tieBreaking .viterbi 1) calls).2
    (∀ t, .offer t ∈ calls → t.rule.parent.index < 1) ∧
      (∀ t, .offer t ∈ calls → ∃ x, t.score = real x) ∧
      Apart (callAll History.call .new calls).2.turns ∧
      IsGreatest (offered ((callAll History.call .new calls).2.turnsOf (.ofNat 0))) 0 ∧
      (∃ winner : Turn LogReal Jitter × Draw,
        FirstBest OutDraws ([turn, turn].zip (contestDraws [turn, turn])) winner ∧
        cell.jitter? (.ofNat 0) = some winner.2 ∧
          cell.backPointer? (.ofNat 0) = some (winner.1.backPointer .viterbi)) ∧
      ∃ cell', cell.offer turn.toOffer turn.source =
        .ok (cell', JitterSource.skip 1 turn.source) := by
  intro turn calls cell
  have hcalls : ∀ t, .offer t ∈ calls → t = turn := by
    intro t ht
    simpa [calls] using ht
  have hslots : ∀ t, .offer t ∈ calls → t.rule.parent.index < 1 := by
    intro t ht
    rw [hcalls t ht]
    exact Nat.zero_lt_one
  have hfinite : ∀ t, .offer t ∈ calls → ∃ x, t.score = real x := by
    intro t ht
    rw [hcalls t ht]
    exact ⟨0, rfl⟩
  have hapart : ∀ turns : List (Turn LogReal Jitter), (∀ t ∈ turns, t = turn) → Apart turns := by
    intro turns hturns t ht t' ht' _ x y hx hy
    rw [hturns t ht] at hx
    rw [hturns t' ht'] at hy
    cases hx
    cases hy
    exact Or.inl rfl
  have hgreatest : IsGreatest (offered [turn, turn]) 0 := by
    refine ⟨⟨turn, by simp, rfl⟩, ?_⟩
    intro y hy
    obtain ⟨t, ht, hscore⟩ := hy
    rw [show t = turn by simpa using ht] at hscore
    cases hscore
    exact le_refl 0
  have hcontenders : contenders [turn, turn] 0 = [turn, turn] :=
    List.filter_eq_self.mpr fun t ht => by
      rw [show t = turn by simpa using ht]
      exact decide_eq_true rfl
  have hworse : ([turn, turn].any fun t => Score.exceeds t.score turn.score) = false := by
    have hself : Score.exceeds turn.score turn.score = false := by
      rw [Bool.eq_false_iff, Ne, show turn.score = real 0 from rfl, LogReal.exceeds_real]
      exact lt_irrefl 0
    simp [hself]
  have hturns : (callAll History.call .new calls).2.turnsOf (.ofNat 0) = [turn, turn] := rfl
  have hboth : Apart (callAll History.call .new calls).2.turns := hapart [turn, turn] (by simp)
  obtain ⟨-, hcontest, hdraws, -⟩ := Cell.contest_fair hslots hfinite hboth
  obtain ⟨-, -, hwinner⟩ := hcontest (.ofNat 0) 0 hgreatest
  have hthird := hdraws turn 0 rfl Nat.zero_lt_one rfl (hapart [turn, turn, turn] (by simp))
  rw [hturns, hcontenders] at hwinner
  rw [show turn.rule.parent = .ofNat 0 from rfl, hturns, hcontenders, hworse] at hthird
  exact ⟨hslots, hfinite, hboth, hgreatest, hwinner (le_refl 2), hthird⟩

end ChartParsing
