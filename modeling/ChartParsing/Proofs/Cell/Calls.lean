import ChartParsing.Proofs.Chart.Applying
import ChartParsing.Proofs.Lockstep
import Mathlib.Data.List.Induction
import Mathlib.Data.Set.Insert

/-!
# Calls to a cell

A cell lives through a sequence of calls: it takes offers, is closed, and is reset. A
call that is at fault leaves the cell as it was, and the next one is served all the
same. `callAll` makes calls in a row to anything that serves them, and keeps how each
of them ended.

`History` is the least that serves these calls: the turns taken since the last reset,
and whether it is closed. Also a site serves them. It asks a constraint about each offer,
so that it does with all offers what its cell does with those that are admitted.
-/

namespace ChartParsing

variable {S C J σ α : Type}

/-- An offer, and the source that ties would be broken with. -/
structure Turn (S J : Type) extends Offer S where
  source : J

/-- The scores offered in turns. -/
def scoresOf (turns : List (Turn S J)) : Set S := {x | ∃ turn ∈ turns, turn.score = x}

theorem scoresOf_nil : scoresOf ([] : List (Turn S J)) = ∅ := by
  simp [scoresOf]

theorem scoresOf_concat (turns : List (Turn S J)) (turn : Turn S J) :
    scoresOf (turns ++ [turn]) = insert turn.score (scoresOf turns) := by
  ext x
  simp [scoresOf, or_and_right, exists_or, or_comm, eq_comm]

/-- A call to a cell. -/
inductive CellCall (S J : Type) where
  | offer (turn : Turn S J)
  | close
  | reset

/-- Makes calls in a row. -/
def callAll (call : σ → α → Except Fault Unit × σ) (s : σ) : List α → List (Except Fault Unit) × σ
  | [] => ([], s)
  | a :: calls =>
    let (ended, s) := call s a
    let (rest, s) := callAll call s calls
    (ended :: rest, s)

theorem callAll_cons (call : σ → α → Except Fault Unit × σ) (s : σ) (a : α) (calls : List α) :
    callAll call s (a :: calls) =
      ((call s a).1 :: (callAll call (call s a).2 calls).1,
        (callAll call (call s a).2 calls).2) := rfl

/-- One more call. -/
theorem callAll_concat (call : σ → α → Except Fault Unit × σ) (s : σ) (calls : List α) (a : α) :
    callAll call s (calls ++ [a]) =
      ((callAll call s calls).1 ++ [(call (callAll call s calls).2 a).1],
        (call (callAll call s calls).2 a).2) := by
  induction calls generalizing s with
  | nil => rfl
  | cons b calls ih =>
    rw [List.cons_append, callAll_cons, ih, callAll_cons]
    rfl

/-! ## Histories -/

/-- What a cell has been through since it was last empty. -/
structure History (S J : Type) where
  turns : List (Turn S J)
  closed : Bool

namespace History

/-- Nothing yet. -/
def new : History S J := ⟨[], false⟩

/-- Turns are written down until the history is closed. -/
def call (history : History S J) : CellCall S J → Except Fault Unit × History S J
  | .offer turn =>
    if history.closed then (.error .closedCell, history)
    else (.ok (), { history with turns := history.turns ++ [turn] })
  | .close => (.ok (), { history with closed := true })
  | .reset => (.ok (), new)

theorem call_offer_fst (history : History S J) (turn : Turn S J) :
    (history.call (.offer turn)).1 = if history.closed then .error .closedCell else .ok () := by
  rw [call]
  split
  · rfl
  · rfl

/-- An offer neither closes a history nor opens it. -/
theorem closed_call_offer (history : History S J) (turn : Turn S J) :
    (history.call (.offer turn)).2.closed = history.closed := by
  rw [call]
  split
  · rfl
  · rfl

/-- What is on record was offered. -/
theorem mem_of_mem_turns {calls : List (CellCall S J)} {turn : Turn S J}
    (h : turn ∈ (callAll call .new calls).2.turns) : .offer turn ∈ calls := by
  induction calls using List.reverseRecOn with
  | nil => cases h
  | append_singleton calls a ih =>
    rw [callAll_concat] at h
    cases a with
    | offer turn' =>
      rw [call] at h
      split at h
      · exact List.mem_append_left _ (ih h)
      · rcases List.mem_append.mp h with h | h
        · exact List.mem_append_left _ (ih h)
        · rw [List.mem_singleton.mp h]
          simp
    | close => exact List.mem_append_left _ (ih h)
    | reset => cases h

/-- The turns of a symbol. -/
def turnsOf (history : History S J) (sym : Symbol) : List (Turn S J) :=
  history.turns.filter fun turn => turn.rule.parent = sym

theorem mem_turnsOf {history : History S J} {sym : Symbol} {turn : Turn S J} :
    turn ∈ history.turnsOf sym ↔ turn ∈ history.turns ∧ turn.rule.parent = sym := by
  rw [turnsOf, List.mem_filter, decide_eq_true_iff]

end History

/-! ## Cells and sites -/

variable [Score S] [JitterSource J]

/-- What a cell does in a call. At a fault it stays as it is. -/
def Cell.call (c : Cell S) : CellCall S J → Except Fault Unit × Cell S
  | .offer turn =>
    match c.offer turn.toOffer turn.source with
    | .ok (c', _) => (.ok (), c')
    | .error fault => (.error fault, c)
  | .close => (.ok (), c.close)
  | .reset => (.ok (), c.reset)

/-- A closed cell is at fault for any offer, and stays as it is. -/
theorem Cell.call_of_isClosed {c : Cell S} (h : c.isClosed = true) (turn : Turn S J) :
    c.call (.offer turn) = (.error .closedCell, c) := by
  rw [call, offer_of_isClosed h]

namespace Site

variable [CellConstraint C S]

/-- What a site does in a call. At a fault it stays as it is. -/
def call (constraint : Option C) (site : Site S) : CellCall S J → Except Fault Unit × Site S
  | .offer turn =>
    match (site.offer constraint turn.toOffer).outcome (.start turn.source) with
    | (.ok site', _) => (.ok (), site')
    | (.error fault, _) => (.error fault, site)
  | .close => (.ok (), site.close)
  | .reset => (.ok (), site.reset)

omit [Score S] [JitterSource J] in
/-- A constraint that answers is asked once. -/
theorem outcome_consult {c : C} {site : Site S} {o : Offer S} {accepted : Bool}
    (h : CellConstraint.accepts c site.start site.stop o.mid o.rule o.score = .ok accepted)
    (run : Run J S) :
    (site.consult (some c) o).outcome run =
      (.ok accepted,
        run.push (.consulted site.start site.stop o.mid o.rule.id o.score accepted)) := by
  unfold consult
  simp only [h]
  rw [Effect.outcome_bind, Effect.outcome_lift]
  rfl

/-- What enters goes to the cell. -/
theorem call_of_consult {constraint : Option C} {site : Site S} {turn : Turn S J} {run : Run J S}
    (h : (site.consult constraint turn.toOffer).outcome (.start turn.source) = (.ok true, run))
    (hsource : run.source = turn.source) :
    site.call constraint (.offer turn) =
      ((site.cell.call (.offer turn)).1,
        { site with cell := (site.cell.call (.offer turn)).2 }) := by
  rw [call, offer, Effect.outcome_bind, h]
  simp only [if_true]
  rw [Effect.outcome_bind, Effect.outcome_offer, hsource, Cell.call]
  cases site.cell.offer turn.toOffer turn.source with
  | ok result => rfl
  | error fault => rfl

/-- An offer that is admitted goes to the cell. -/
theorem call_of_admits {constraint : Option C} {site : Site S} {turn : Turn S J}
    (h : admits constraint site.start site.stop turn.toOffer = true) :
    site.call constraint (.offer turn) =
      ((site.cell.call (.offer turn)).1,
        { site with cell := (site.cell.call (.offer turn)).2 }) := by
  cases constraint with
  | none => exact call_of_consult rfl rfl
  | some c =>
    unfold admits at h
    cases haccepts : CellConstraint.accepts c site.start site.stop turn.mid turn.rule
        turn.score with
    | error fault => simp [haccepts] at h
    | ok accepted =>
      simp only [haccepts] at h
      subst h
      exact call_of_consult (outcome_consult haccepts _) rfl

/-- An offer that the constraint rejects is dropped, but is a fault of a closed cell. -/
theorem call_of_rejects {c : C} {site : Site S} {turn : Turn S J}
    (h : CellConstraint.accepts c site.start site.stop turn.mid turn.rule turn.score = .ok false) :
    site.call (some c) (.offer turn) =
      (if site.cell.isClosed then .error .closedCell else .ok (), site) := by
  rw [call, offer, Effect.outcome_bind, outcome_consult h]
  cases site.cell.isClosed with
  | true => rfl
  | false => rfl

/-- An offer for which the constraint has no answer changes nothing. -/
theorem call_of_unanswered {c : C} {site : Site S} {turn : Turn S J} {fault : Fault}
    (h : CellConstraint.accepts c site.start site.stop turn.mid turn.rule turn.score =
      .error fault) :
    site.call (some c) (.offer turn) = (.error fault, site) := by
  rw [call, offer, Effect.outcome_bind, consult]
  simp only [h]
  rw [Effect.outcome_bind, Effect.outcome_lift]

/-- An offer that is not admitted changes nothing. -/
theorem call_of_not_admits {constraint : Option C} {site : Site S} {turn : Turn S J}
    (h : admits constraint site.start site.stop turn.toOffer = false) :
    (site.call constraint (.offer turn)).2 = site := by
  cases constraint with
  | none => cases h
  | some c =>
    unfold admits at h
    cases haccepts : CellConstraint.accepts c site.start site.stop turn.mid turn.rule
        turn.score with
    | error fault => rw [call_of_unanswered haccepts]
    | ok accepted =>
      simp only [haccepts] at h
      subst h
      rw [call_of_rejects haccepts]

end Site

end ChartParsing
