import ChartParsing.Rule
import ChartParsing.SymbolSet

/-!
# Indexes of rules

An index sorts rule numbers into numbered buckets by a key of the rule: its
terminal, its unary child, its parent, or the children of a binary rule. One
pass over the rules fills every bucket, so each lists its rules in increasing
order.

Binary rules are indexed for one order of the loops that combine two adjacent
spans: by both children, by the left one, or by the right one.
-/

namespace ChartParsing

/-- How the binary rules that combine two adjacent spans are found. -/
inductive LoopOrder where
  /-- Every pair of symbols, then the rules with those children. -/
  | cartesianProduct
  /-- Every symbol on the left, then the rules with that left child. -/
  | leftChild
  /-- Every symbol on the right, then the rules with that right child. -/
  | rightChild
  deriving DecidableEq, Inhabited

/-- The name of a loop order in messages. -/
def LoopOrder.name : LoopOrder → String
  | .cartesianProduct => "CartesianProduct"
  | .leftChild => "LeftChild"
  | .rightChild => "RightChild"

/-- The loop order of a name. -/
def LoopOrder.ofName? (text : String) : Option LoopOrder :=
  [cartesianProduct, leftChild, rightChild].find? (·.name = text)

/-- Rule numbers by key. -/
abbrev Buckets := Array (Array RuleId)

namespace Buckets

variable {S : Type}

/-- Adds a rule to the bucket of its key, if it has one. -/
def add (key : Rule S → Option Nat) (buckets : Buckets) (rule : Rule S) : Buckets :=
  match key rule with
  | some k => buckets.modify k (·.push rule.id)
  | none => buckets

/-- Sorts the rules that have a key into `count` buckets. -/
def ofRules (count : Nat) (key : Rule S → Option Nat) (rules : Array (Rule S)) : Buckets :=
  rules.foldl (add key) (Array.replicate count #[])

/-- The rules in a bucket, none if there is no such bucket. -/
def get (buckets : Buckets) (k : Nat) : Array RuleId := buckets[k]?.getD #[]

end Buckets

namespace Rule

variable {S : Type}

/-- The key of a lexical rule: its terminal. -/
def lexicalKey (r : Rule S) : Option Nat :=
  match r.rhs with
  | .lexical terminal => some terminal.index
  | _ => none

/-- A key of a unary rule: its child. -/
def unaryChildKey (r : Rule S) : Option Nat :=
  match r.rhs with
  | .unary child => some child.index
  | _ => none

/-- A key of a unary rule: its parent. -/
def unaryParentKey (r : Rule S) : Option Nat :=
  match r.rhs with
  | .unary _ => some r.parent.index
  | _ => none

/-- A key of a binary rule: both children, the left one first, among `count`
nonterminals. -/
def pairKey (count : Nat) (r : Rule S) : Option Nat :=
  match r.rhs with
  | .binary left right => some (left.index * count + right.index)
  | _ => none

/-- A key of a binary rule: its left child. -/
def leftChildKey (r : Rule S) : Option Nat :=
  match r.rhs with
  | .binary left _ => some left.index
  | _ => none

/-- A key of a binary rule: its right child. -/
def rightChildKey (r : Rule S) : Option Nat :=
  match r.rhs with
  | .binary _ right => some right.index
  | _ => none

end Rule

/-- Binary rules, laid out for one loop order. -/
inductive BinaryIndex where
  | byPair (buckets : Buckets)
  | byLeftChild (buckets : Buckets)
  | byRightChild (buckets : Buckets)

namespace BinaryIndex

variable {S : Type}

/-- The loop order the rules are laid out for. -/
def loopOrder : BinaryIndex → LoopOrder
  | .byPair _ => .cartesianProduct
  | .byLeftChild _ => .leftChild
  | .byRightChild _ => .rightChild

/-- Lays the binary rules out for a loop order, over `count` nonterminals. -/
def ofRules (rules : Array (Rule S)) (count : Nat) : LoopOrder → BinaryIndex
  | .cartesianProduct => .byPair (.ofRules (count * count) (Rule.pairKey count) rules)
  | .leftChild => .byLeftChild (.ofRules count Rule.leftChildKey rules)
  | .rightChild => .byRightChild (.ofRules count Rule.rightChildKey rules)

@[simp]
theorem loopOrder_ofRules (rules : Array (Rule S)) (count : Nat) (order : LoopOrder) :
    (ofRules rules count order).loopOrder = order := by
  cases order <;> rfl

end BinaryIndex

/-- The symbols that some rule has in a given position, among `count`
nonterminals. -/
def SymbolSet.ofRules {S : Type} (count : Nat) (position : Rule S → Option Symbol)
    (rules : Array (Rule S)) : SymbolSet :=
  rules.foldl (fun set rule => ((position rule).map set.insert).getD set)
    (.replicate count false)

end ChartParsing
