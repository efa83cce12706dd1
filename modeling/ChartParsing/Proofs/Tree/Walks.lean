import ChartParsing.Proofs.Derivation.Tree

/-!
# Walks and recursion

A tree is walked with a stack of what is still to be visited. What is found on the whole
stack, by recursion, together with what was found before, stays the same in every turn.
A walk takes as many turns as the tree has leaves and nodes. The leaves come out in
order, as their walk puts the first child on top of the stack; the splits come out in
some order and are sorted.
-/

namespace ChartParsing.ParseTree

/-! ## Splits by recursion -/

mutual

/-- The start, the end of the first child and the end of every node with two children,
from the top down. -/
def splits : ParseTree → List (Nat × Nat × Nat)
  | leaf _ _ => []
  | node _ start stop [left, right] => (start, left.stop, stop) :: (splits left ++ splits right)
  | node _ _ _ children => splitsAll children

/-- The same for several trees, one after another. -/
def splitsAll : List ParseTree → List (Nat × Nat × Nat)
  | [] => []
  | tree :: trees => splits tree ++ splitsAll trees

end

/-- The splits of a tree are its own and those below it. -/
theorem splits_eq (tree : ParseTree) :
    tree.splits = tree.split?.toList ++ splitsAll tree.children := by
  match tree with
  | leaf _ _ => simp [splits, split?, children, splitsAll]
  | node _ _ _ [] | node _ _ _ [_] | node _ _ _ (_ :: _ :: _ :: _) =>
    simp [splits, split?, children]
  | node _ _ _ [left, right] => simp [splits, split?, children, splitsAll]

theorem splitsAll_append (trees more : List ParseTree) :
    splitsAll (trees ++ more) = splitsAll trees ++ splitsAll more := by
  induction trees with
  | nil => rfl
  | cons tree trees ih => rw [List.cons_append, splitsAll, splitsAll, ih, List.append_assoc]

/-- In what order trees are visited makes no difference to the splits they have. -/
theorem splitsAll_reverse_perm (trees : List ParseTree) :
    (splitsAll trees.reverse).Perm (splitsAll trees) := by
  induction trees with
  | nil => rfl
  | cons tree trees ih =>
    rw [List.reverse_cons, splitsAll_append, splitsAll, splitsAll, splitsAll, List.append_nil]
    exact List.perm_append_comm.trans (ih.append_left _)

/-- What was found, and the splits of what is still to be visited, are found in the
end. -/
theorem binarySpansLoop_perm (found : List (Nat × Nat × Nat)) (work : List ParseTree) :
    (binarySpansLoop found work).Perm (found ++ splitsAll work) := by
  induction found, work using binarySpansLoop.induct with
  | case1 found => simp [binarySpansLoop, splitsAll]
  | case2 found tree rest ih =>
    rw [binarySpansLoop]
    refine ih.trans ?_
    have hbelow : (splitsAll (tree.children.reverse ++ rest)).Perm
        (splitsAll tree.children ++ splitsAll rest) := by
      rw [splitsAll_append]
      exact (splitsAll_reverse_perm tree.children).append_right _
    rw [splitsAll, splits_eq, List.append_assoc, List.append_assoc]
    exact ((hbelow.append_left found).append_left _).trans (List.perm_append_comm_assoc _ _ _)

/-- Triples are ordered by their parts from left to right. -/
def TripleLe (a b : Nat × Nat × Nat) : Prop :=
  a.1 < b.1 ∨ a.1 = b.1 ∧ (a.2.1 < b.2.1 ∨ a.2.1 = b.2.1 ∧ a.2.2 ≤ b.2.2)

theorem tripleLe_iff (a b : Nat × Nat × Nat) : tripleLe a b = true ↔ TripleLe a b := by
  simp [tripleLe, TripleLe]

theorem pairwise_binarySpans (tree : ParseTree) : tree.binarySpans.Pairwise TripleLe := by
  refine (List.pairwise_mergeSort (fun a b c hab hbc => ?_) (fun a b => ?_) _).imp
    fun h => (tripleLe_iff _ _).mp h
  · rw [tripleLe_iff] at *
    unfold TripleLe at *
    omega
  · rw [Bool.or_eq_true, tripleLe_iff, tripleLe_iff]
    unfold TripleLe
    omega

theorem binarySpans_perm (tree : ParseTree) : tree.binarySpans.Perm tree.splits := by
  refine (List.mergeSort_perm _ _).trans ((binarySpansLoop_perm [] [tree]).trans ?_)
  rw [List.nil_append, splitsAll, splitsAll, List.append_nil]

/-! ## Turns of a walk -/

variable {α β : Type}

/-- A walk of so many turns at most. A turn takes a tree from the top of the work, puts
what it finds there in front of what was found before, and puts the children on top of
the work in some order. Without enough turns there is no answer. -/
def walk? (find : ParseTree → List α) (order : List ParseTree → List ParseTree) :
    (turns : Nat) → (found : List α) → (work : List ParseTree) → Option (List α)
  | _, found, [] => some found
  | 0, _, _ :: _ => none
  | turns + 1, found, tree :: rest =>
    walk? find order turns (find tree ++ found) (order tree.children ++ rest)

theorem size_eq (tree : ParseTree) : tree.size = sizeAll tree.children + 1 := by
  cases tree <;> simp [children, size, sizeAll]

/-- **A loop that takes the turns of a walk is done** after as many turns as there are
leaves and nodes to be visited, and not before. -/
theorem walk?_eq {find : ParseTree → List α} {order : List ParseTree → List ParseTree}
    {finish : List α → β} (loop : List α → List ParseTree → β)
    (horder : ∀ trees, sizeAll (order trees) = sizeAll trees)
    (hdone : ∀ found, loop found [] = finish found)
    (hturn : ∀ found tree rest,
      loop found (tree :: rest) = loop (find tree ++ found) (order tree.children ++ rest))
    (turns : Nat) (found : List α) (work : List ParseTree) :
    (walk? find order turns found work).map finish =
      if sizeAll work ≤ turns then some (loop found work) else none := by
  induction turns generalizing found work with
  | zero =>
    cases work with
    | nil => simp [walk?, sizeAll, hdone]
    | cons tree rest => simp [walk?, sizeAll, size_eq]
  | succ turns ih =>
    cases work with
    | nil => simp [walk?, sizeAll, hdone]
    | cons tree rest =>
      have hsize : sizeAll (tree :: rest) = sizeAll (order tree.children ++ rest) + 1 := by
        rw [sizeAll, size_eq, sizeAll_append, horder, Nat.add_right_comm]
      rw [walk?, ih, hturn, hsize]
      simp only [Nat.add_le_add_iff_right]

/-- The terminal at a leaf. -/
def terminal? : ParseTree → Option Symbol
  | leaf terminal _ => some terminal
  | node _ _ _ _ => none

/-- The leaves, found in so many turns at most. -/
def leavesWithin? (turns : Nat) (tree : ParseTree) : Option (List Symbol) :=
  (walk? (·.terminal?.toList) id turns [] [tree]).map List.reverse

/-- The splits in order, found in so many turns at most. -/
def binarySpansWithin? (turns : Nat) (tree : ParseTree) : Option (List (Nat × Nat × Nat)) :=
  (walk? (·.split?.toList) List.reverse turns [] [tree]).map (·.mergeSort tripleLe)

theorem leavesWithin?_eq (turns : Nat) (tree : ParseTree) :
    tree.leavesWithin? turns = if tree.size ≤ turns then some tree.leaves else none := by
  have hturn : ∀ found tree rest, leavesLoop found (tree :: rest) =
      leavesLoop (tree.terminal?.toList ++ found) (id tree.children ++ rest) := by
    intro found tree rest
    cases tree <;> simp [leavesLoop, terminal?, children]
  refine (walk?_eq leavesLoop (fun _ => rfl) (fun found => ?_) hturn _ _ _).trans ?_
  · rw [leavesLoop]
  · rw [sizeAll, sizeAll, Nat.add_zero, leaves]

theorem binarySpansWithin?_eq (turns : Nat) (tree : ParseTree) :
    tree.binarySpansWithin? turns =
      if tree.size ≤ turns then some tree.binarySpans else none := by
  refine (walk?_eq (fun found work => (binarySpansLoop found work).mergeSort tripleLe)
    sizeAll_reverse (fun found => ?_) (fun found tree rest => ?_) _ _ _).trans ?_
  · rw [binarySpansLoop]
  · rw [binarySpansLoop]
  · rw [sizeAll, sizeAll, Nat.add_zero, binarySpans]

/-! ## Walks against recursion -/

/-- The positions that describe a tree fit words of 64 bits if its end does and those that
recursion names do. -/
theorem checkPositions_eq_ok_iff (tree : ParseTree) :
    tree.checkPositions = .ok () ↔
      tree.stop < UInt64.size ∧ ∀ split ∈ tree.splits, split.2.1 < UInt64.size := by
  have hnamed : tree.namedPositions.all (· < UInt64.size) = true ↔
      tree.stop < UInt64.size ∧ ∀ split ∈ tree.splits, split.2.1 < UInt64.size := by
    simp only [namedPositions, List.all_eq_true, List.forall_mem_cons, List.forall_mem_map,
      decide_eq_true_eq, (binarySpans_perm tree).mem_iff]
  rw [← hnamed, checkPositions]
  split
  · rename_i h
    exact iff_of_true rfl h
  · rename_i h
    exact iff_of_false (fun heq => by cases heq) h

/-- **Walks find what recursion finds**, for every tree. Both walks end, after as many
turns as the tree has leaves and nodes. The leaves are the terminals of the fringe from
left to right. The splits found are in order, and they are those of all nodes with two
children, each as often as it occurs. The ends named there fit words exactly if the ones
that recursion names do. -/
theorem walks_eq_recursion (tree : ParseTree) :
    (∀ turns, tree.leavesWithin? turns =
      if tree.size ≤ turns then some tree.leaves else none) ∧
    (∀ turns, tree.binarySpansWithin? turns =
      if tree.size ≤ turns then some tree.binarySpans else none) ∧
    tree.leaves = tree.fringe.map Prod.fst ∧
    tree.binarySpans.Pairwise TripleLe ∧ tree.binarySpans.Perm tree.splits ∧
    (tree.checkPositions = .ok () ↔
      tree.stop < UInt64.size ∧ ∀ split ∈ tree.splits, split.2.1 < UInt64.size) :=
  ⟨fun turns => leavesWithin?_eq turns tree, fun turns => binarySpansWithin?_eq turns tree,
    leaves_eq tree, pairwise_binarySpans tree, binarySpans_perm tree,
    checkPositions_eq_ok_iff tree⟩

end ChartParsing.ParseTree
