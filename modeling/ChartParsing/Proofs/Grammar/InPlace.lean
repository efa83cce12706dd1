import ChartParsing.Grammar
import ChartParsing.Proofs.Outcome

/-!
# Grammars changed in place

A grammar may be changed in place, one score after another. What such a call has
written when it fails stays written. The calls here do their checks first, so one that
fails has written nothing, and one that succeeds has written what the call that gives
another grammar returns.
-/

namespace ChartParsing.Grammar

variable {S α β : Type}

/-- A call on a grammar that it may write to. -/
abbrev InPlace (S : Type) := ExceptT (GrammarError S) (StateM (Grammar S))

namespace InPlace

/-- Writes the score of the rule at a position, if there is one. -/
def write (position : Nat) (score : S) : InPlace S Unit :=
  modify fun g => { g with rules := g.rules.modify position fun rule => { rule with score } }

/-- Lays the binary rules out for a loop order. -/
def reindex (order : LoopOrder) : InPlace S Unit := modify fun g => g.reindex order

/-- Gives one rule a new score. -/
def setRuleScore [Score S] (id : RuleId) (score : S) : InPlace S Unit := do
  let g ← get
  if g.rules.size ≤ id.index then
    throw (.unknownRule id.index g.rules.size)
  liftM (checkScore id.index score)
  write id.index score

/-- Gives every rule a new score, in order, once all of them are checked. -/
def setScores [Score S] (scores : Array S) : InPlace S Unit := do
  let g ← get
  if scores.size ≠ g.rules.size then
    throw (.scoreCountMismatch g.rules.size scores.size)
  scores.toList.zipIdx.forM fun (score, position) => liftM (checkScore position score)
  scores.toList.zipIdx.forM fun (score, position) => write position score

/-- A call that succeeds where the other returns a grammar, and leaves that one, and
that leaves the grammar it was given where the other fails. -/
def Performs (x : InPlace S Unit) (g : Grammar S) (call : Except (GrammarError S) (Grammar S)) :
    Prop :=
  endOf x g =
    match call with
    | .ok g' => (.ok (), g')
    | .error e => (.error e, g)

/-- A check that writes nothing may come first. -/
theorem Performs.check {c : InPlace S Unit} {check : Except (GrammarError S) Unit}
    {x : InPlace S Unit} {g : Grammar S} {call : Except (GrammarError S) (Grammar S)}
    (hc : endOf c g = (check, g)) (h : x.Performs g call) :
    (do c; x : InPlace S Unit).Performs g (do check; call) := by
  cases check with
  | error e => exact endOf_bind_error hc
  | ok u => exact (endOf_bind_ok hc).trans h

/-- Checks in a row write nothing. -/
theorem endOf_checks (check : α → Except (GrammarError S) Unit) (xs : List α) (g : Grammar S) :
    endOf (xs.forM fun x => (liftM (check x) : InPlace S Unit)) g = (xs.forM check, g) := by
  induction xs with
  | nil => rfl
  | cons x xs ih =>
    show endOf (do liftM (check x); xs.forM fun x => (liftM (check x) : InPlace S Unit)) g =
      (do check x; xs.forM check, g)
    cases check x with
    | error e => exact endOf_bind_error rfl
    | ok u => exact (endOf_bind_ok rfl).trans ih

/-! ## Scores written one by one -/

/-- The rules after some scores are written, from a position on. -/
def written (rules : Array (Rule S)) (scores : List S) (position : Nat) : Array (Rule S) :=
  (scores.zipIdx position).foldl
    (fun rules (score, i) => rules.modify i fun rule => { rule with score }) rules

theorem endOf_writes (scores : List S) :
    ∀ (position : Nat) (g : Grammar S),
      endOf ((scores.zipIdx position).forM fun (score, i) => (write i score : InPlace S Unit)) g =
        (.ok (), { g with rules := written g.rules scores position }) := by
  induction scores with
  | nil => intro position g; rfl
  | cons score scores ih =>
    intro position g
    exact (endOf_bind_ok (f := fun _ => (scores.zipIdx (position + 1)).forM
      fun (score, i) => (write i score : InPlace S Unit)) rfl).trans (ih (position + 1) _)

theorem getElem?_written (scores : List S) :
    ∀ (rules : Array (Rule S)) (position i : Nat),
      (written rules scores position)[i]? = rules[i]?.map fun rule =>
        { rule with score := if position ≤ i then scores[i - position]?.getD rule.score
                             else rule.score } := by
  induction scores with
  | nil => intro rules position i; simp [written]
  | cons score scores ih =>
    intro rules position i
    rw [written, List.zipIdx_cons, List.foldl_cons]
    show (written _ scores (position + 1))[i]? = _
    rw [ih, Array.getElem?_modify]
    rcases Nat.lt_trichotomy position i with hlt | rfl | hlt
    · have hsub : i - position = i - (position + 1) + 1 := by omega
      rw [if_neg (by omega), hsub, List.getElem?_cons_succ]
      simp only [if_pos (Nat.succ_le_of_lt hlt), if_pos (Nat.le_of_lt hlt)]
    · simp [Function.comp_def, show ¬ position + 1 ≤ position by omega]
    · rw [if_neg (by omega)]
      simp only [if_neg (Nat.not_le_of_lt hlt), if_neg (show ¬ position + 1 ≤ i by omega)]

/-- Writing a score for each rule is giving each rule its score. -/
theorem written_eq_zipWith {rules : Array (Rule S)} {scores : Array S}
    (hsize : scores.size = rules.size) :
    written rules scores.toList 0 =
      rules.zipWith (fun rule score => { rule with score }) scores := by
  refine Array.ext_getElem? fun i => ?_
  rw [getElem?_written, Array.getElem?_zipWith]
  rcases Nat.lt_or_ge i rules.size with hlt | hge
  · simp [hlt, hsize]
  · simp [Array.getElem?_eq_none hge]

/-! ## The calls -/

theorem performs_reindex (g : Grammar S) (order : LoopOrder) :
    (reindex order).Performs g (.ok (g.reindex order)) := rfl

theorem performs_setRuleScore [Score S] (g : Grammar S) (id : RuleId) (score : S) :
    (setRuleScore id score).Performs g (g.setRuleScore id score) := by
  have hwrite : (write id.index score).Performs g (.ok { g with
      rules := g.rules.modify id.index fun rule => { rule with score } }) := rfl
  have hchecked := hwrite.check (c := liftM (checkScore id.index score)) rfl
  unfold Performs setRuleScore Grammar.setRuleScore
  refine (endOf_bind_ok rfl).trans ?_
  by_cases hsize : g.rules.size ≤ id.index
  · rw [if_pos hsize, if_pos hsize]
    rfl
  · rw [if_neg hsize, if_neg hsize]
    exact hchecked

theorem performs_setScores [Score S] (g : Grammar S) (scores : Array S) :
    (setScores scores).Performs g (g.setScores scores) := by
  unfold Performs setScores Grammar.setScores
  refine (endOf_bind_ok rfl).trans ?_
  by_cases hsize : scores.size = g.rules.size
  · have hwrites : Performs
        (scores.toList.zipIdx.forM fun (score, i) => (write i score : InPlace S Unit)) g
        (.ok { g with
          rules :=
            g.rules.zipWith (fun (rule : Rule S) score => { rule with score }) scores }) := by
      rw [Performs, endOf_writes, written_eq_zipWith hsize]
    rw [if_neg fun h => h hsize, if_neg fun h => h hsize]
    exact hwrites.check
      (endOf_checks (fun (score, position) => checkScore position score) scores.toList.zipIdx g)
  · rw [if_pos hsize, if_pos hsize]
    rfl

end InPlace

end ChartParsing.Grammar
