import ChartParsing.Proofs.Cell.Contest
import ChartParsing.Proofs.Score.Real

/-!
# How far ties may lead

Whether an offer ties is judged against the incumbent, which may have taken its seat
from a slightly better one. A challenger with a lower score that wins its tie costs as
much as the tolerance, and such losses add up: the score of a symbol may fall behind the
best offer by the tolerance once, and once more for each time that it was lowered.

Scores are real numbers here, so that sums are exact.
-/

namespace ChartParsing

variable {S J : Type} [JitterSource J]

/-! ## Scores that are lowered -/

section

variable [Score S]

/-- With turn number `n` the score of the symbol becomes lower. -/
def Lowers (turns : List (Turn S J)) (n : Nat) : Bool :=
  match contested (turns.take n), contested (turns.take (n + 1)) with
  | some i, some i' => Score.exceeds i.entry.score i'.entry.score
  | _, _ => false

/-- How many of the turns of a symbol have lowered its score. -/
def lowerings (turns : List (Turn S J)) : Nat := (List.range turns.length).countP (Lowers turns)

theorem lowerings_concat {turns : List (Turn S J)} {turn : Turn S J} {i : Incumbent S}
    (h : contested turns = some i) :
    lowerings (turns ++ [turn]) = lowerings turns +
      if Score.exceeds i.entry.score (turn.challenge (some i)).1.entry.score then 1 else 0 := by
  have hlast : Lowers (turns ++ [turn]) turns.length =
      Score.exceeds i.entry.score (turn.challenge (some i)).1.entry.score := by
    rw [Lowers, List.take_left, List.take_of_length_le (by simp), contested_concat, h]
  have hbefore : ∀ n ∈ List.range turns.length, Lowers (turns ++ [turn]) n = true ↔
      Lowers turns n = true := by
    intro n hn
    have hlt := List.mem_range.mp hn
    rw [Lowers, Lowers, List.take_append_of_le_length (by omega),
      List.take_append_of_le_length (by omega)]
  rw [lowerings, List.length_append, List.length_singleton, List.range_succ, List.countP_append,
    List.countP_congr hbefore, List.countP_singleton, hlast]
  rfl

end

/-! ## Finite scores -/

open LogReal (real tolerance tolerance_pos)

/-- The finite scores offered in turns. -/
def offered (turns : List (Turn LogReal J)) : Set ℝ := {x | real x ∈ scoresOf turns}

omit [JitterSource J] in
theorem offered_concat (turns : List (Turn LogReal J)) {turn : Turn LogReal J} {x : ℝ}
    (hx : turn.score = real x) : offered (turns ++ [turn]) = insert x (offered turns) := by
  ext y
  rw [offered, scoresOf_concat, hx]
  simp [offered]

/-- **One turn.** The seat is held by the challenger or by the incumbent before it, and
neither of the two is better by more than the tolerance. -/
theorem Turn.challenge_near {turn : Turn LogReal J} {i : Incumbent LogReal} {x s : ℝ}
    (hx : turn.score = real x) (hs : i.entry.score = real s) :
    ∃ score, (turn.challenge (some i)).1.entry.score = real score ∧ (score = x ∨ score = s) ∧
      x ≤ score + tolerance ∧ s ≤ score + tolerance := by
  have hpos := tolerance_pos
  cases hclear : Score.clearlyExceeds turn.score i.entry.score with
  | true =>
    rw [challenge_of_clearlyExceeds hclear]
    rw [hx, hs, LogReal.clearlyExceeds_real] at hclear
    exact ⟨x, hx, Or.inl rfl, by linarith, by linarith⟩
  | false =>
    have hbelow : x ≤ s + tolerance := by
      rw [hx, hs, Bool.eq_false_iff, Ne, LogReal.clearlyExceeds_real] at hclear
      exact not_lt.mp hclear
    cases hties : Score.ties turn.score i.entry.score with
    | true =>
      have hnear : |x - s| ≤ tolerance := by rwa [hx, hs, LogReal.ties_real] at hties
      obtain ⟨hlow, -⟩ := abs_le.mp hnear
      rcases turn.challenge_entry i with hseat | hseat
      · exact ⟨x, by rw [hseat]; exact hx, Or.inl rfl, by linarith, by linarith⟩
      · exact ⟨s, by rw [hseat]; exact hs, Or.inr rfl, hbelow, by linarith⟩
    | false =>
      rw [challenge_of_not_ties hclear hties]
      exact ⟨s, hs, Or.inr rfl, hbelow, by linarith⟩

/-- **The score of a symbol stays near the best offer**: it is behind by no more than the
tolerance, and the tolerance again for each time that it was lowered. -/
theorem contested_near_best {turns : List (Turn LogReal J)} {i : Incumbent LogReal}
    (hfinite : ∀ turn ∈ turns, ∃ x, turn.score = real x) (h : contested turns = some i) :
    ∃ score best, i.entry.score = real score ∧ IsGreatest (offered turns) best ∧ score ≤ best ∧
      best ≤ score + (1 + lowerings turns) * tolerance := by
  have hpos := tolerance_pos
  induction turns using List.reverseRecOn generalizing i with
  | nil => cases h
  | append_singleton turns turn ih =>
    obtain ⟨x, hx⟩ := hfinite turn (by simp)
    rw [contested_concat] at h
    have hi := Option.some.inj h
    cases hold : contested turns with
    | none =>
      rw [hold] at hi
      rw [contested_eq_none_iff.mp hold, offered_concat [] hx, ← hi]
      refine ⟨x, x, hx, by simp [offered, scoresOf_nil], le_refl x, ?_⟩
      have hcount : (0 : ℝ) ≤ (1 + lowerings ([] ++ [turn])) * tolerance := by positivity
      linarith
    | some old =>
      obtain ⟨s, best, hs, hgreatest, hle, hnear⟩ :=
        ih (fun t ht => hfinite t (List.mem_append_left _ ht)) hold
      obtain ⟨score, hscore, hmember, hx', hs'⟩ := turn.challenge_near hx hs
      rw [hold] at hi
      rw [offered_concat turns hx, lowerings_concat hold, hs, hscore, ← hi]
      generalize hlowered : (if Score.exceeds (real s) (real score) = true then 1 else 0) = k
      -- a score that falls is counted, and falls by the tolerance at most
      have hfall : s ≤ score + k * tolerance := by
        by_cases hlower : score < s
        · rw [if_pos ((LogReal.exceeds_real s score).mpr hlower)] at hlowered
          rw [← hlowered, Nat.cast_one, one_mul]
          exact hs'
        · have hk : (0 : ℝ) ≤ k * tolerance := by positivity
          linarith
      have hsum : (1 + ((lowerings turns + k : ℕ) : ℝ)) * tolerance =
          (1 + lowerings turns) * tolerance + k * tolerance := by
        push_cast
        ring
      refine ⟨score, max x best, hscore, hgreatest.insert x, ?_, max_le ?_ ?_⟩
      · rcases hmember with rfl | rfl
        · exact le_max_left _ _
        · exact hle.trans (le_max_right _ _)
      · have hcount : (0 : ℝ) ≤ (lowerings turns + k : ℕ) * tolerance := by positivity
        rw [one_add_mul]
        linarith
      · rw [hsum]
        linarith

omit [JitterSource J] in
/-- Finite scores of symbols with slots fit into a cell with ties. -/
theorem Fits.of_finite {size : Nat} {calls : List (CellCall LogReal J)}
    (hslots : ∀ turn, .offer turn ∈ calls → turn.rule.parent.index < size)
    (hfinite : ∀ turn, .offer turn ∈ calls → ∃ x, turn.score = real x) :
    Fits .tieBreaking .viterbi size calls where
  defined turn hturn := by
    obtain ⟨x, hx⟩ := hfinite turn hturn
    rw [hx, LogReal.isUndefined_real]
  slots _ := hslots
  totals hfull := by cases hfull

/-- **Tie-breaking stays near the best offer.** Whatever the calls and whatever is drawn,
the score of a symbol is the best one offered in its turns, or falls behind it by the
tolerance, and once more for each turn that has lowered it. -/
theorem Cell.score_near_best {size : Nat} {calls : List (CellCall LogReal J)}
    (hslots : ∀ turn, .offer turn ∈ calls → turn.rule.parent.index < size)
    (hfinite : ∀ turn, .offer turn ∈ calls → ∃ x, turn.score = real x) {sym : Symbol}
    (hturns : (callAll History.call .new calls).2.turnsOf sym ≠ []) :
    (callAll call (.empty .tieBreaking .viterbi size) calls).1 =
        (callAll History.call .new calls).1 ∧
      ∃ score best, (callAll call (.empty .tieBreaking .viterbi size) calls).2.score sym =
          real score ∧
        IsGreatest (offered ((callAll History.call .new calls).2.turnsOf sym)) best ∧
        score ≤ best ∧
        best - (1 + lowerings ((callAll History.call .new calls).2.turnsOf sym)) * tolerance ≤
          score := by
  obtain ⟨hends, hhas⟩ := has_callAll (Fits.of_finite hslots hfinite) rfl
  obtain ⟨i, hi⟩ := Option.ne_none_iff_exists'.mp (mt contested_eq_none_iff.mp hturns)
  obtain ⟨score, best, hscore, hgreatest, hle, hnear⟩ := contested_near_best
    (fun turn hturn => hfinite turn (History.mem_of_mem_turns (History.mem_turnsOf.mp hturn).1)) hi
  refine ⟨hends, score, best, ?_, hgreatest, hle, sub_le_iff_le_add.mpr hnear⟩
  rw [Cell.score, (hhas.find?_contested sym).1, hi]
  exact hscore

/-! ## Losses that add up -/

namespace NearTies

/-- A turn of the first symbol with a score, drawing from a source. -/
noncomputable def turn (x : ℝ) (source : Jitter) : Turn LogReal Jitter :=
  ⟨⟨0, .ofRhs (.ofNat 0) (.lexical (.ofNat 0)) (real 0), real x⟩, source⟩

/-- The first three draws of this source are increasing. -/
def source : Jitter := .ofSeed 15

theorem draws_lt : source.draw.1 < source.draw.2.draw.1 ∧
    source.draw.2.draw.1 < source.draw.2.draw.2.draw.1 := by
  decide +kernel

/-- A challenger that is worse by the tolerance wins with the larger draw. -/
theorem challenge_lower {x s : ℝ} (hdiff : x - s = -tolerance) {i : Incumbent LogReal}
    (hi : i.entry.score = real s) {j : Jitter}
    (hlt : (i.contest j).1 < (JitterSource.draw (i.contest j).2).1) :
    ((turn x j).challenge (some i)).1 =
      ⟨(turn x j).entry .viterbi, some (JitterSource.draw (i.contest j).2).1⟩ := by
  have hclear : Score.clearlyExceeds (turn x j).score i.entry.score = false := by
    rw [hi, Bool.eq_false_iff, Ne, turn, LogReal.clearlyExceeds_real]
    linarith [tolerance_pos]
  have hties : Score.ties (turn x j).score i.entry.score = true := by
    rw [hi, turn, LogReal.ties_real, hdiff, abs_neg, abs_of_pos tolerance_pos]
  rw [Turn.challenge_of_ties hclear hties]
  exact if_pos hlt

/-- Three turns, each with a score that is lower than the one before, and ties with it. -/
noncomputable def turns : List (Turn LogReal Jitter) :=
  [turn 0 source] ++ [turn (-tolerance) source] ++
    [turn (-tolerance - tolerance) source.draw.2.draw.2]

/-- The last of them comes to hold the seat. -/
theorem contested_turns :
    contested turns = some ⟨(turn (-tolerance - tolerance) source.draw.2.draw.2).entry .viterbi,
      some source.draw.2.draw.2.draw.1⟩ := by
  have hsecond : contested ([turn 0 source] ++ [turn (-tolerance) source]) =
      some ⟨(turn (-tolerance) source).entry .viterbi, some source.draw.2.draw.1⟩ := by
    rw [contested_concat]
    exact congrArg some (challenge_lower (sub_zero _) rfl draws_lt.1)
  rw [turns, contested_concat, hsecond]
  exact congrArg some (challenge_lower (by ring) rfl draws_lt.2)

/-- The turns in a row. -/
noncomputable def calls : List (CellCall LogReal Jitter) := turns.map .offer

theorem exists_turn {t : Turn LogReal Jitter} (h : t ∈ turns) : ∃ x ≤ 0, ∃ j, t = turn x j := by
  have hpos := tolerance_pos
  simp only [turns, List.cons_append, List.nil_append, List.mem_cons, List.not_mem_nil,
    or_false] at h
  rcases h with rfl | rfl | rfl
  · exact ⟨0, le_refl 0, _, rfl⟩
  · exact ⟨-tolerance, by linarith, _, rfl⟩
  · exact ⟨-tolerance - tolerance, by linarith, _, rfl⟩

theorem exists_of_mem_calls {t : Turn LogReal Jitter} (h : .offer t ∈ calls) :
    ∃ x j, t = turn x j := by
  obtain ⟨t', ht', heq⟩ := List.mem_map.mp h
  cases heq
  obtain ⟨x, -, j, rfl⟩ := exists_turn ht'
  exact ⟨x, j, rfl⟩

theorem slots : ∀ t, .offer t ∈ calls → t.rule.parent.index < 1 := by
  intro t h
  obtain ⟨x, j, rfl⟩ := exists_of_mem_calls h
  exact Nat.zero_lt_one

theorem finite : ∀ t, .offer t ∈ calls → ∃ x, t.score = real x := by
  intro t h
  obtain ⟨x, j, rfl⟩ := exists_of_mem_calls h
  exact ⟨x, rfl⟩

end NearTies

theorem Cell.score_near_best_small :
    (∀ turn, .offer turn ∈ NearTies.calls → turn.rule.parent.index < 1) ∧
      (∀ turn, .offer turn ∈ NearTies.calls → ∃ x, turn.score = real x) ∧
      (callAll History.call .new NearTies.calls).2.turnsOf (.ofNat 0) ≠ [] ∧
      (callAll call (.empty .tieBreaking .viterbi 1) NearTies.calls).1 =
        [.ok (), .ok (), .ok ()] ∧
      ∃ score best,
        (callAll call (.empty .tieBreaking .viterbi 1) NearTies.calls).2.score (.ofNat 0) =
          real score ∧
        IsGreatest (offered NearTies.turns) best ∧ score ≤ best ∧
        best - (1 + lowerings NearTies.turns) * tolerance ≤ score := by
  have hturns : (callAll History.call .new NearTies.calls).2.turnsOf (.ofNat 0) ≠ [] :=
    List.cons_ne_nil _ _
  obtain ⟨hends, hnear⟩ := Cell.score_near_best NearTies.slots NearTies.finite hturns
  exact ⟨NearTies.slots, NearTies.finite, hturns, hends, hnear⟩

/-- **Losses add up.** Of three offers the last is worse than the first by more than the
tolerance. Still it wins, as each of them ties with the one before it. -/
theorem Cell.score_far_from_best :
    (∀ turn, .offer turn ∈ NearTies.calls → turn.rule.parent.index < 1) ∧
      (∀ turn, .offer turn ∈ NearTies.calls → ∃ x, turn.score = real x) ∧
      ∃ score best,
        (callAll call (.empty .tieBreaking .viterbi 1) NearTies.calls).2.score (.ofNat 0) =
          real score ∧
        IsGreatest (offered ((callAll History.call .new NearTies.calls).2.turnsOf (.ofNat 0)))
          best ∧
        score < best - tolerance := by
  have hturns : (callAll History.call .new NearTies.calls).2.turnsOf (.ofNat 0) =
      NearTies.turns := rfl
  obtain ⟨-, hhas⟩ := has_callAll (Fits.of_finite NearTies.slots NearTies.finite) rfl
  refine ⟨NearTies.slots, NearTies.finite, -tolerance - tolerance, 0, ?_, ?_, ?_⟩
  · rw [Cell.score, (hhas.find?_contested _).1, hturns, NearTies.contested_turns]
    rfl
  · rw [hturns]
    refine ⟨⟨NearTies.turn 0 NearTies.source, by simp [NearTies.turns], rfl⟩, ?_⟩
    intro y hy
    obtain ⟨t, ht, hscore⟩ := hy
    obtain ⟨x, hx, j, rfl⟩ := NearTies.exists_turn ht
    cases hscore
    exact hx
  · linarith [tolerance_pos]

end ChartParsing
