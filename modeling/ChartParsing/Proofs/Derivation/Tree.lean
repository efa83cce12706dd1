import ChartParsing.ParseTree
import ChartParsing.Proofs.Derivation
import Mathlib.Data.List.Induction

/-!
# The tree of a derivation

A derivation drawn as a parse tree: a node for every rule, with the rule's parent and
the span of the derivation, and a leaf for every token. Its leaves from left to right
are the tokens of its span, each at its own position.
-/

namespace ChartParsing

namespace ParseTree

/-! ## Leaves -/

mutual

/-- The leaves with their positions, from left to right. -/
def fringe : ParseTree → List (Symbol × Nat)
  | leaf terminal position => [(terminal, position)]
  | node _ _ _ children => fringeAll children

/-- The leaves of several trees, one after another. -/
def fringeAll : List ParseTree → List (Symbol × Nat)
  | [] => []
  | tree :: trees => fringe tree ++ fringeAll trees

end

theorem fringeAll_append (trees more : List ParseTree) :
    fringeAll (trees ++ more) = fringeAll trees ++ fringeAll more := by
  induction trees with
  | nil => rfl
  | cons tree trees ih => rw [List.cons_append, fringeAll, fringeAll, ih, List.append_assoc]

theorem leavesLoop_eq (found : List Symbol) (work : List ParseTree) :
    leavesLoop found work = found.reverse ++ (fringeAll work).map Prod.fst := by
  -- the work still to be done is a part of the fringe
  induction found, work using leavesLoop.induct with
  | case1 found => simp [leavesLoop, fringeAll]
  | case2 found terminal position rest ih =>
    rw [leavesLoop, ih]
    simp [fringeAll, fringe]
  | case3 found symbol start stop children rest ih =>
    rw [leavesLoop, ih, fringeAll_append]
    rfl

/-- The walk over the leaves visits the fringe. -/
theorem leaves_eq (tree : ParseTree) : tree.leaves = tree.fringe.map Prod.fst := by
  rw [leaves, leavesLoop_eq]
  simp [fringeAll]

end ParseTree

/-! ## Trees of derivations -/

/-- The tokens between two gaps of a sentence, with their positions. -/
def tokensBetween (sentence : List Symbol) (start stop : Nat) : List (Symbol × Nat) :=
  (sentence.zipIdx.drop start).take (stop - start)

theorem tokensBetween_append (sentence : List Symbol) {start mid stop : Nat} (h₁ : start ≤ mid)
    (h₂ : mid ≤ stop) :
    tokensBetween sentence start mid ++ tokensBetween sentence mid stop =
      tokensBetween sentence start stop := by
  unfold tokensBetween
  have hdrop : sentence.zipIdx.drop mid = (sentence.zipIdx.drop start).drop (mid - start) := by
    rw [List.drop_drop, show start + (mid - start) = mid by omega]
  rw [hdrop, show stop - start = (mid - start) + (stop - mid) by omega, List.take_add]

theorem tokensBetween_succ {sentence : List Symbol} {position : Nat} {token : Symbol}
    (h : sentence[position]? = some token) :
    tokensBetween sentence position (position + 1) = [(token, position)] := by
  obtain ⟨hlt, rfl⟩ := List.getElem?_eq_some_iff.mp h
  have hlen : position < sentence.zipIdx.length := by simpa using hlt
  unfold tokensBetween
  rw [Nat.add_sub_cancel_left, List.drop_eq_getElem_cons hlen]
  simp

theorem tokensBetween_all (sentence : List Symbol) :
    tokensBetween sentence 0 sentence.length = sentence.zipIdx := by
  unfold tokensBetween
  rw [List.drop_zero, List.take_of_length_le (by simp)]

namespace Derivation

variable {S : Type}

/-- The derivation as a parse tree. -/
def tree : Derivation S → ParseTree
  | lexical rule position =>
    .node rule.parent position (position + 1) [.leaf rule.leftChild position]
  | unary rule child => .node rule.parent child.start child.stop [child.tree]
  | binary rule left right => .node rule.parent left.start right.stop [left.tree, right.tree]

@[simp]
theorem symbol_tree (d : Derivation S) : d.tree.symbol = d.symbol := by
  cases d <;> rfl

@[simp]
theorem start_tree (d : Derivation S) : d.tree.start = d.start := by
  cases d <;> rfl

@[simp]
theorem stop_tree (d : Derivation S) : d.tree.stop = d.stop := by
  cases d <;> rfl

/-- **The leaves of a derivation are the tokens of its span.** -/
theorem Valid.fringe_tree {g : Grammar S} {sentence : List Symbol} {d : Derivation S}
    (h : d.Valid g sentence) : d.tree.fringe = tokensBetween sentence d.start d.stop := by
  induction d with
  | lexical rule position =>
    obtain ⟨_, t, hrhs, ht⟩ := h
    rw [start, stop, tokensBetween_succ ht]
    simp [tree, ParseTree.fringe, ParseTree.fringeAll, Rule.leftChild, hrhs]
  | unary rule child ih =>
    rw [tree, ParseTree.fringe, ParseTree.fringeAll, ParseTree.fringeAll, List.append_nil,
      ih h.2.2]
    rfl
  | binary rule left right ihl ihr =>
    obtain ⟨_, _, hmid, hl, hr⟩ := h
    have h₁ := hl.span.1
    have h₂ := hr.span.1
    rw [tree, ParseTree.fringe, ParseTree.fringeAll, ParseTree.fringeAll, ParseTree.fringeAll,
      List.append_nil, ihl hl, ihr hr, ← hmid]
    exact tokensBetween_append sentence (by omega) (by omega)

end Derivation

end ChartParsing
