import ChartParsing.Grammar

/-!
# Parse trees

A tree over a sentence has tokens at its leaves and nonterminals with their
spans at its nodes. Trees that a chart gives have one child below lexical and
unary rules and two below binary ones, but any number is allowed.

`leaves` and `binarySpans` walk a tree with a list of what is still to be
visited, so that deep trees need no deep recursion. `bracketed` writes a tree as
in `(S (NP the) (VP runs))`.
-/

namespace ChartParsing

/-- A derivation tree. -/
inductive ParseTree where
  | leaf (terminal : Symbol) (position : Nat)
  | node (symbol : Symbol) (start stop : Nat) (children : List ParseTree)

namespace ParseTree

/-- The symbol at the top. -/
def symbol : ParseTree → Symbol
  | leaf terminal _ => terminal
  | node symbol _ _ _ => symbol

/-- The start of the span. -/
def start : ParseTree → Nat
  | leaf _ position => position
  | node _ start _ _ => start

/-- The end of the span. A leaf spans one token. -/
def stop : ParseTree → Nat
  | leaf _ position => position + 1
  | node _ _ stop _ => stop

/-- The trees below the top. -/
def children : ParseTree → List ParseTree
  | leaf _ _ => []
  | node _ _ _ children => children

/-! ## Sizes -/

mutual

/-- The number of leaves and nodes. -/
def size : ParseTree → Nat
  | leaf _ _ => 1
  | node _ _ _ children => sizeAll children + 1

/-- The number of leaves and nodes of several trees. -/
def sizeAll : List ParseTree → Nat
  | [] => 0
  | tree :: trees => size tree + sizeAll trees

end

theorem sizeAll_append (trees more : List ParseTree) :
    sizeAll (trees ++ more) = sizeAll trees + sizeAll more := by
  induction trees with
  | nil => simp [sizeAll]
  | cons tree trees ih => simp [sizeAll, ih, Nat.add_assoc]

theorem sizeAll_reverse (trees : List ParseTree) : sizeAll trees.reverse = sizeAll trees := by
  induction trees with
  | nil => simp
  | cons tree trees ih => simp [sizeAll_append, sizeAll, ih, Nat.add_comm]

theorem sizeAll_children_lt (tree : ParseTree) : sizeAll tree.children < tree.size := by
  cases tree <;> simp [children, size, sizeAll]

/-! ## Walks -/

/-- The terminals at the leaves of the trees still to be visited, behind those
already found, which are held in reverse. -/
def leavesLoop (found : List Symbol) (work : List ParseTree) : List Symbol :=
  match work with
  | [] => found.reverse
  | leaf terminal _ :: rest => leavesLoop (terminal :: found) rest
  | node _ _ _ children :: rest => leavesLoop found (children ++ rest)
termination_by sizeAll work
decreasing_by
  all_goals simp only [sizeAll, size, sizeAll_append]
  all_goals omega

/-- The terminals at the leaves, left to right. -/
def leaves (tree : ParseTree) : List Symbol := leavesLoop [] [tree]

/-- The start, the split and the end of a node with two children. -/
def split? : ParseTree → Option (Nat × Nat × Nat)
  | node _ start stop [left, _] => some (start, left.stop, stop)
  | _ => none

/-- The splits of the trees still to be visited, before those already found. -/
def binarySpansLoop (found : List (Nat × Nat × Nat)) (work : List ParseTree) :
    List (Nat × Nat × Nat) :=
  match work with
  | [] => found
  | tree :: rest =>
    binarySpansLoop (tree.split?.toList ++ found) (tree.children.reverse ++ rest)
termination_by sizeAll work
decreasing_by
  simp only [sizeAll, sizeAll_append, sizeAll_reverse]
  have := sizeAll_children_lt tree
  omega

/-- Triples are ordered by their first part, then by the second, then by the
third. -/
def tripleLe (a b : Nat × Nat × Nat) : Bool :=
  decide (a.1 < b.1) || (a.1 == b.1 &&
    (decide (a.2.1 < b.2.1) || (a.2.1 == b.2.1 && decide (a.2.2 ≤ b.2.2))))

/-- The start, the split and the end of every node with two children, in order.
-/
def binarySpans (tree : ParseTree) : List (Nat × Nat × Nat) :=
  (binarySpansLoop [] [tree]).mergeSort tripleLe

/-! ## Brackets -/

/-- The name of a symbol, or its number if it has none. -/
def nameText (alphabet : Alphabet) (sym : Symbol) : String :=
  match alphabet.name? sym with
  | some name => name
  | none => s!"#{sym.index}"

mutual

/-- The tree in brackets: a leaf is its name, a node its name and its children
in parentheses. -/
def bracketedWith (nonterminals terminals : Alphabet) : ParseTree → String
  | leaf terminal _ => nameText terminals terminal
  | node symbol _ _ children =>
    "(" ++ nameText nonterminals symbol ++ bracketedAll nonterminals terminals children ++ ")"

/-- Several trees in brackets, with a blank before each. -/
def bracketedAll (nonterminals terminals : Alphabet) : List ParseTree → String
  | [] => ""
  | tree :: trees =>
    " " ++ bracketedWith nonterminals terminals tree ++ bracketedAll nonterminals terminals trees

end

/-- The tree in brackets, with the names of a grammar. -/
def bracketed {S : Type} (tree : ParseTree) (g : Grammar S) : String :=
  tree.bracketedWith g.nonterminals g.terminals

/-! ## Words -/

/-- The positions that a description of the tree names: its end, and where its
binary nodes split. -/
def namedPositions (tree : ParseTree) : List Nat :=
  tree.stop :: tree.binarySpans.map fun (_, mid, _) => mid

/-- A tree can be described only if the positions named fit 64-bit words. A leaf
at the last position of all has no end that does. -/
def checkPositions (tree : ParseTree) : Except Fault Unit :=
  if tree.namedPositions.all (· < UInt64.size) then .ok () else .error .positionOverflow

end ParseTree

/-- The best derivation of a sentence, with its score. -/
structure ViterbiParse (S : Type) where
  tree : ParseTree
  score : S

end ChartParsing
