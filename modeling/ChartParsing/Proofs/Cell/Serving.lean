import ChartParsing.Proofs.Cell.Calls
import ChartParsing.Proofs.Cell.Twin
import ChartParsing.Proofs.LoopOrder.Gathering

/-!
# Cells serve calls

A cell can be called in any order. As long as the calls stay within what cells of its
type can hold, the only ones at fault are offers to the closed cell, and the cell is an
empty one after the turns taken since the last reset.

A dense cell has slots for its own symbols only and refuses undefined scores. Pooling can
lead to these even if all scores that are offered are defined.
-/

namespace ChartParsing

variable {S C J : Type} [Score S]

/-! ## Pooling in order -/

/-- The scores pooled in order. -/
def pooled : List S → Option S
  | [] => none
  | first :: rest => some (rest.foldl Score.pool first)

/-- What the turns of a symbol are pooled to. -/
def History.total (history : History S J) (sym : Symbol) : Option S :=
  pooled ((history.turnsOf sym).map (·.score))

/-- Joining scores from nothing is pooling them. -/
theorem foldl_join_inside (scores : List S) :
    scores.foldl Aggregation.inside.join none = pooled scores := by
  have hsome : ∀ (scores : List S) (x : S),
      scores.foldl Aggregation.inside.join (some x) = some (scores.foldl Score.pool x) := by
    intro scores
    induction scores with
    | nil => intro x; rfl
    | cons y scores ih => intro x; exact ih (Score.pool x y)
  cases scores with
  | nil => rfl
  | cons x scores => exact hsome scores x

/-- The offers made in turns. -/
def offersOf (turns : List (Turn S J)) : List (Offer S) := turns.map (·.toOffer)

omit [Score S] in
theorem offersOf_concat (turns : List (Turn S J)) (turn : Turn S J) :
    offersOf (turns ++ [turn]) = offersOf turns ++ [turn.toOffer] :=
  List.map_append

omit [Score S] in
theorem filter_offersOf (turns : List (Turn S J)) (sym : Symbol) :
    ((offersOf turns).filter fun o => o.rule.parent = sym) =
      offersOf (turns.filter fun turn => turn.rule.parent = sym) := by
  rw [offersOf, List.filter_map]
  rfl

/-- **A pooled entry is its offers pooled in order.** -/
theorem History.gather_inside_score (history : History S J) (sym : Symbol) :
    (gather .inside (offersOf history.turns) sym).map (·.score) = history.total sym := by
  rw [gather_score, foldl_join_inside, filter_offersOf, offersOf, List.map_map]
  rfl

/-! ## Calls that fit -/

/-- The calls stay within what cells of the type can hold: there is a slot for every
symbol, the scores offered are defined, and pooled ones stay so. -/
structure Fits (type : CellType) (aggregation : Aggregation) (size : Nat)
    (calls : List (CellCall S J)) : Prop where
  defined : ∀ turn, .offer turn ∈ calls → Score.isUndefined turn.score = false
  slots : type.isDense = true → ∀ turn, .offer turn ∈ calls → turn.rule.parent.index < size
  totals : type = .full → aggregation = .inside → ∀ before, before <+: calls → ∀ sym total,
    (callAll History.call .new before).2.total sym = some total → Score.isUndefined total = false

namespace Fits

variable {type : CellType} {aggregation : Aggregation} {size : Nat} {calls : List (CellCall S J)}

theorem left {more : List (CellCall S J)} (h : Fits type aggregation size (calls ++ more)) :
    Fits type aggregation size calls where
  defined turn hturn := h.defined turn (List.mem_append_left _ hturn)
  slots hdense turn hturn := h.slots hdense turn (List.mem_append_left _ hturn)
  totals hfull hinside before hbefore :=
    h.totals hfull hinside before (hbefore.trans (List.prefix_append _ _))

theorem offer_defined (h : Fits type aggregation size calls) :
    ∀ o ∈ offersOf (callAll History.call .new calls).2.turns,
      Score.isUndefined o.score = false := by
  intro o ho
  obtain ⟨turn, hturn, rfl⟩ := List.mem_map.mp ho
  exact h.defined turn (History.mem_of_mem_turns hturn)

/-- What a dense cell comes to hold is defined. -/
theorem gather_defined (h : Fits type aggregation size calls) (hfull : type = .full) {sym : Symbol}
    {e : Entry S}
    (he : gather aggregation (offersOf (callAll History.call .new calls).2.turns) sym = some e) :
    Score.isUndefined e.score = false := by
  cases aggregation with
  | viterbi =>
    obtain ⟨o, ho, -, rfl⟩ := gather_viterbi he
    exact h.offer_defined o ho
  | inside =>
    refine h.totals hfull rfl calls (List.prefix_refl _) sym e.score ?_
    rw [← History.gather_inside_score, he]
    rfl

end Fits

/-! ## Cells with a history -/

namespace Cell

variable [JitterSource J] {type : CellType} {aggregation : Aggregation} {size : Nat}

/-- The cell is an empty one after the turns, each with its own source. -/
inductive Took (J : Type) [JitterSource J] (type : CellType) (aggregation : Aggregation)
    (size : Nat) : List (Turn S J) → Cell S → Prop where
  | empty : Took J type aggregation size [] (.empty type aggregation size)
  | offer {turns : List (Turn S J)} {c c' : Cell S} {turn : Turn S J} {source : J} :
      Took J type aggregation size turns c →
      c.offer turn.toOffer turn.source = .ok (c', source) →
      Took J type aggregation size (turns ++ [turn]) c'

theorem Took.after {turns : List (Turn S J)} {c : Cell S}
    (h : c.Took J type aggregation size turns) :
    c.After J type aggregation size (offersOf turns) := by
  induction h with
  | empty => exact .empty
  | offer _ hoffer ih =>
    rw [offersOf_concat]
    exact ih.offer hoffer

/-- Offers are always taken in some turns. -/
theorem After.exists_turns {offers : List (Offer S)} {c : Cell S}
    (h : c.After J type aggregation size offers) :
    ∃ turns, offersOf turns = offers ∧ c.Took J type aggregation size turns := by
  induction h with
  | empty => exact ⟨[], rfl, .empty⟩
  | @offer offers c c' o source source' _ hoffer ih =>
    obtain ⟨turns, rfl, htook⟩ := ih
    let turn : Turn S J := ⟨o, source⟩
    have hturn : c.offer turn.toOffer turn.source = .ok (c', source') := hoffer
    exact ⟨turns ++ [turn], offersOf_concat turns turn, htook.offer hturn⟩

/-- A cell takes an offer if its score and the merged entry are ones it can hold. -/
theorem After.takes {offers : List (Offer S)} {c : Cell S} {o : Offer S}
    (h : c.After J type aggregation size offers) (hsupports : type.supports aggregation = true)
    (hslot : type.isDense = true → o.rule.parent.index < size)
    (hdefined : ∀ o' ∈ offers ++ [o], Score.isUndefined o'.score = false)
    (htotal : type = .full → ∀ e, gather aggregation (offers ++ [o]) o.rule.parent = some e →
      Score.isUndefined e.score = false) (source : J) :
    ∃ c' source', c.offer o source = .ok (c', source') := by
  obtain ⟨hpresent, hagg, htidy, hclear⟩ := h.shape
  have hstored : ∀ {store : CellStore S},
      c.store.offer c.aggregation o source = .ok (store, source) →
        ∃ c' source', c.offer o source = .ok (c', source') := by
    intro store hstore
    refine ⟨{ c with store }, source, ?_⟩
    rw [Cell.offer, isClosed, hpresent, hstore]
    rfl
  cases type with
  | full =>
    have hmerged : gather aggregation (offers ++ [o]) o.rule.parent =
        some (o.merge c.aggregation (c.store.find? o.rule.parent)) := by
      rw [gather_concat, if_pos rfl, ← h.find?_eq_gather (by decide), hagg]
      rfl
    have htaken := CellStore.offer_plain (by decide) c.aggregation htidy hclear
      (hslot rfl) source
    rw [if_neg fun hundef => by rw [htotal rfl _ hmerged] at hundef; cases hundef.2] at htaken
    obtain ⟨store, hstore⟩ := htaken
    exact hstored hstore
  | hashed | doubleHashed =>
    cases hs : c.store <;> simp [hs, CellStore.clear, CellStore.empty] at hclear
    exact hstored (by rw [hs]; rfl)
  | tieBreaking =>
    cases aggregation with
    | inside => cases hsupports
    | viterbi =>
      rcases h.offer_ends (hslot rfl) source with hok | ⟨-, -, hundef | ⟨hinside, -⟩⟩
      · exact hok
      · exact absurd hundef (by simp [hdefined o (by simp)])
      · cases hinside

/-- The cell has the history: it is an empty one after the turns, and is closed if the
history is. -/
def Has (J : Type) [JitterSource J] (type : CellType) (aggregation : Aggregation) (size : Nat)
    (history : History S J) (c : Cell S) : Prop :=
  ∃ used : Cell S, used.Took J type aggregation size history.turns ∧
    c = if history.closed then used.close else used

theorem has_empty : (Cell.empty type aggregation size : Cell S).Has J type aggregation size .new :=
  ⟨_, .empty, rfl⟩

theorem Has.isClosed_eq {history : History S J} {c : Cell S}
    (h : c.Has J type aggregation size history) : c.isClosed = history.closed := by
  obtain ⟨used, htook, rfl⟩ := h
  cases history.closed with
  | true => rfl
  | false => exact congrArg Option.isSome htook.after.shape.1

/-- An open cell has taken the turns. -/
theorem Has.took {history : History S J} {c : Cell S} (h : c.Has J type aggregation size history)
    (hopen : history.closed = false) : c.Took J type aggregation size history.turns := by
  obtain ⟨used, htook, rfl⟩ := h
  rw [if_neg (Bool.eq_false_iff.mp hopen)]
  exact htook

/-- **One call** after others, all of which fit. It ends as the history says, and makes
the history longer. -/
theorem Has.call {calls : List (CellCall S J)} {a : CellCall S J} {c : Cell S}
    (h : c.Has J type aggregation size (callAll History.call .new calls).2)
    (hfits : Fits type aggregation size (calls ++ [a]))
    (hsupports : type.supports aggregation = true) :
    (c.call a).1 = ((callAll History.call .new calls).2.call a).1 ∧
      (c.call a).2.Has J type aggregation size ((callAll History.call .new calls).2.call a).2 := by
  have hclosed := h.isClosed_eq
  have hdefined := hfits.offer_defined
  have htotal : type = .full → ∀ sym e, gather aggregation
      (offersOf (callAll History.call .new (calls ++ [a])).2.turns) sym = some e →
        Score.isUndefined e.score = false := fun hfull sym e he => hfits.gather_defined hfull he
  rw [callAll_concat] at hdefined htotal
  generalize (callAll History.call .new calls).2 = history at h hclosed hdefined htotal ⊢
  cases a with
  | offer turn =>
    by_cases hc : history.closed = true
    · rw [call_of_isClosed (hclosed.trans hc), History.call, if_pos hc]
      exact ⟨rfl, h⟩
    · obtain ⟨used, htook, rfl⟩ := h
      simp only [History.call, if_neg hc] at hdefined htotal ⊢
      obtain ⟨c', source', hoffer⟩ := htook.after.takes hsupports
        (fun hdense => hfits.slots hdense turn (by simp))
        (by rw [← offersOf_concat]; exact hdefined)
        (fun hfull e he => htotal hfull _ e (by rw [offersOf_concat]; exact he)) turn.source
      rw [Cell.call, hoffer]
      exact ⟨rfl, c', htook.offer hoffer, (if_neg hc).symm⟩
  | close =>
    obtain ⟨used, htook, rfl⟩ := h
    refine ⟨rfl, used, htook, ?_⟩
    cases history.closed <;> rfl
  | reset =>
    obtain ⟨used, htook, rfl⟩ := h
    refine ⟨rfl, _, .empty, ?_⟩
    rw [← htook.after.reset_eq]
    cases history.closed <;> rfl

/-- **Calls in a row** end as the history says, and make it. -/
theorem has_callAll {calls : List (CellCall S J)} (hfits : Fits type aggregation size calls)
    (hsupports : type.supports aggregation = true) :
    (callAll call (.empty type aggregation size) calls).1 =
        (callAll History.call .new calls).1 ∧
      (callAll call (.empty type aggregation size) calls).2.Has J type aggregation size
        (callAll History.call .new calls).2 := by
  induction calls using List.reverseRecOn with
  | nil => exact ⟨rfl, has_empty⟩
  | append_singleton calls a ih =>
    obtain ⟨hends, hhas⟩ := ih hfits.left
    obtain ⟨hend, hhas'⟩ := hhas.call hfits hsupports
    rw [callAll_concat, callAll_concat, hends, hend]
    exact ⟨rfl, hhas'⟩

end Cell

end ChartParsing
