import ChartParsing.Chart
import ChartParsing.ParseTree

/-!
# The best tree

The back pointers of a filled chart lead from the root over the whole sentence
down to the tokens. A unary rule stays on the span and a binary rule goes on to
two narrower ones, so the walk ends if no chain of unary rules on one span is
longer than the alphabet; a longer one would have to loop, and is given up.

Pooled scores have no back pointers to follow, so a chart of inside scores has
no best tree.
-/

namespace ChartParsing.Chart

variable {S C : Type}

/-- The tree of a symbol over a span, `depth` unary rules below the last binary
one. -/
def subtree? (chart : Chart S C) (sym : Symbol) (start stop depth : Nat) :
    Except Fault (Option ParseTree) :=
  if _hd : chart.grammar.nonterminalCount < depth then .ok none
  else do
    match ← chart.backPointer? sym start stop with
    | none => return none
    | some .untracked => return none
    | some (.derivation id mid) =>
      let rule ← chart.grammar.rule id
      match rule.rhs with
      | .lexical terminal => return some (.node sym start stop [.leaf terminal mid])
      | .unary child =>
        match ← chart.subtree? child start stop (depth + 1) with
        | none => return none
        | some tree => return some (.node sym start stop [tree])
      | .binary left right =>
        if _hm : start < mid ∧ mid < stop then
          match ← chart.subtree? left start mid 0 with
          | none => return none
          | some leftTree =>
            match ← chart.subtree? right mid stop 0 with
            | none => return none
            | some rightTree => return some (.node sym start stop [leftTree, rightTree])
        else throw (.spanOutsideSentence start mid chart.length)
termination_by (stop - start, chart.grammar.nonterminalCount + 1 - depth)
decreasing_by
  all_goals simp_wf
  all_goals first | (apply Prod.Lex.left; omega) | (apply Prod.Lex.right; omega)

/-- The best derivation of the sentence, if the root has one. -/
def viterbiParse? [Score S] (chart : Chart S C) : Except Fault (Option (ViterbiParse S)) :=
  if chart.length = 0 then .ok none
  else do
    match ← chart.subtree? chart.grammar.root 0 chart.length 0 with
    | none => return none
    | some tree => return some ⟨tree, ← chart.score chart.grammar.root 0 chart.length⟩

end ChartParsing.Chart
