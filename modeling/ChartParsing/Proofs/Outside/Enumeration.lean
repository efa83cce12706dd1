import ChartParsing.Posterior.OutsidePass
import Mathlib.Data.List.Basic

/-!
# The outside pass looks for binary rules as the inside pass does

The pass has its own loops over the two sides of a split, one for each loop order. They
have no scores to add up, and leave out what cannot apply a rule at a time rather than an
application at a time. What they list is the same all the same: the rules of the
applications that are made when the chart is filled, in the same order.
-/

namespace ChartParsing.Posterior

variable {S : Type}

/-- What is found for each of a list can be turned into something else at the end. -/
theorem mapM_flatten_map {ε α β γ : Type} {f : α → Except ε (List β)}
    {g : α → Except ε (List γ)} (h : γ → β) (hf : ∀ x, f x = (g x).map (List.map h))
    (xs : List α) :
    (do return (← xs.mapM f).flatten : Except ε (List β)) =
      (do return (← xs.mapM g).flatten : Except ε (List γ)).map (List.map h) := by
  have hmapM : xs.mapM f = (xs.mapM g).map (List.map (List.map h)) := by
    induction xs with
    | nil => rfl
    | cons x xs ih =>
      rw [List.mapM_cons, List.mapM_cons, hf, ih]
      cases g x with
      | error e => rfl
      | ok ys => cases xs.mapM g <;> rfl
  rw [hmapM]
  cases xs.mapM g with
  | error e => rfl
  | ok found => exact congrArg Except.ok List.map_flatten.symm

/-- A filter, where what is kept is turned into something that it can be read off. -/
theorem filter_eq_map_filterMap {α β : Type} {p : α → Bool} {f : α → Option β} {h : β → α}
    (hf : ∀ x, (f x).map h = if p x then some x else none) (xs : List α) :
    xs.filter p = (xs.filterMap f).map h := by
  rw [List.map_filterMap, ← List.filterMap_eq_filter]
  refine List.filterMap_congr fun x _ => ?_
  rw [hf, Option.guard]

variable [Score S]

theorem pairRules_eq (g : Grammar S) (mid : Nat) (left right : Cell S) :
    pairRules g left right =
      (Chart.pairApplications g mid left right).map (List.map (·.rule)) := by
  unfold pairRules Chart.pairApplications
  cases left.symbols with
  | error fault => rfl
  | ok leftSyms =>
    refine mapM_flatten_map _ (fun leftSym => ?_) leftSyms
    split
    · rfl
    cases right.symbols with
    | error fault => rfl
    | ok rightSyms =>
      refine mapM_flatten_map _ (fun rightSym => ?_) rightSyms
      split
      · rfl
      cases g.binaryRulesWithChildren leftSym rightSym with
      | error fault => rfl
      | ok ids =>
        show g.rulesAt ids = (g.rulesAt ids >>= fun rules => pure (rules.map _)).map _
        cases g.rulesAt ids with
        | error fault => rfl
        | ok rules => exact congrArg Except.ok (by rw [List.map_map]; exact (List.map_id _).symm)

theorem leftChildRules_eq (g : Grammar S) (mid : Nat) (left right : Cell S) :
    leftChildRules g left right =
      (Chart.leftChildApplications g mid left right).map (List.map (·.rule)) := by
  unfold leftChildRules Chart.leftChildApplications
  cases left.symbols with
  | error fault => rfl
  | ok leftSyms =>
    refine mapM_flatten_map _ (fun leftSym => ?_) leftSyms
    cases g.binaryRulesWithLeftChild leftSym with
    | error fault => rfl
    | ok ids =>
      show (g.rulesAt ids >>= fun rules => pure (rules.filter _)) =
        (g.rulesAt ids >>= fun rules => pure (rules.filterMap _)).map _
      cases g.rulesAt ids with
      | error fault => rfl
      | ok rules =>
        refine congrArg Except.ok (filter_eq_map_filterMap (fun rule => ?_) rules)
        cases rule.rightChild? with
        | none => rfl
        | some rightSym => cases hc : right.contains rightSym <;> simp [hc]

theorem rightChildRules_eq (g : Grammar S) (mid : Nat) (left right : Cell S) :
    rightChildRules g left right =
      (Chart.rightChildApplications g mid left right).map (List.map (·.rule)) := by
  unfold rightChildRules Chart.rightChildApplications
  cases right.symbols with
  | error fault => rfl
  | ok rightSyms =>
    refine mapM_flatten_map _ (fun rightSym => ?_) rightSyms
    cases g.binaryRulesWithRightChild rightSym with
    | error fault => rfl
    | ok ids =>
      show (g.rulesAt ids >>= fun rules => pure (rules.filter _)) =
        (g.rulesAt ids >>= fun rules => pure (rules.filterMap _)).map _
      cases g.rulesAt ids with
      | error fault => rfl
      | ok rules =>
        refine congrArg Except.ok (filter_eq_map_filterMap (fun rule => ?_) rules)
        cases left.contains rule.leftChild <;> rfl

/-- **The rules of a split are those of its applications**, in any loop order. -/
theorem splitRules_eq (g : Grammar S) (mid : Nat) (left right : Cell S) :
    splitRules g left right =
      (Chart.binaryApplications g mid left right g.loopOrder).map (List.map (·.rule)) := by
  unfold splitRules Chart.binaryApplications
  cases g.loopOrder with
  | cartesianProduct => exact pairRules_eq g mid left right
  | leftChild => exact leftChildRules_eq g mid left right
  | rightChild => exact rightChildRules_eq g mid left right

theorem splitRules_ok {g : Grammar S} {mid : Nat} {left right : Cell S}
    {found : List (Application S)}
    (h : Chart.binaryApplications g mid left right g.loopOrder = .ok found) :
    splitRules g left right = .ok (found.map (·.rule)) := by
  rw [splitRules_eq g mid, h]
  rfl

end ChartParsing.Posterior
