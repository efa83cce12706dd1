import ChartParsing.Fault
import ChartParsing.Score
import ChartParsing.Symbol

/-!
# Rules

A rule expands one nonterminal into a terminal, into a nonterminal or into two
nonterminals, and carries a score. Its number is its position in the grammar it
belongs to; a rule on its own has number zero.

Rules are often written down in groups that share a left-hand side. `RuleList`
is a list of rules together with the left-hand side that the next rule takes.
-/

namespace ChartParsing

/-- The right-hand side of a rule. -/
inductive Rhs where
  | lexical (terminal : Symbol)
  | unary (child : Symbol)
  | binary (left right : Symbol)
  deriving DecidableEq

/-- A rule with its score. -/
structure Rule (S : Type) where
  id : RuleId
  parent : Symbol
  rhs : Rhs
  score : S
  deriving DecidableEq

namespace Rule

variable {S : Type}

/-- A rule that belongs to no grammar yet. -/
def ofRhs (parent : Symbol) (rhs : Rhs) (score : S) : Rule S := ⟨RuleId.ofNat 0, parent, rhs, score⟩

/-- The first symbol on the right-hand side, a terminal if the rule is lexical.
-/
def leftChild (r : Rule S) : Symbol :=
  match r.rhs with
  | .lexical terminal => terminal
  | .unary child => child
  | .binary left _ => left

/-- The second symbol on the right-hand side. -/
def rightChild? (r : Rule S) : Option Symbol :=
  match r.rhs with
  | .binary _ right => some right
  | _ => none

/-- The right-hand side is a terminal. -/
def isLexical (r : Rule S) : Bool := r.rhs matches .lexical _

/-- The right-hand side is one nonterminal. -/
def isUnary (r : Rule S) : Bool := r.rhs matches .unary _

/-- The right-hand side is two nonterminals. -/
def isBinary (r : Rule S) : Bool := r.rhs matches .binary _ _

/-- A rule as text, such as `0 ::= 1 2 (-1)`. Terminals stand in quotes. -/
def text [ScoreText S] (r : Rule S) : String :=
  let rhs := match r.rhs with
    | .lexical terminal => s!"'{terminal.index}'"
    | .unary child => s!"{child.index}"
    | .binary left right => s!"{left.index} {right.index}"
  s!"{r.parent.index} ::= {rhs} ({ScoreText.plain r.score})"

end Rule

/-- Rules written down one after another, and the left-hand side that the next
one takes. -/
structure RuleList (S : Type) where
  lhs : Option Symbol
  rules : Array (Rule S)

namespace RuleList

variable {S : Type}

/-- No rules, and no left-hand side. -/
def empty : RuleList S := ⟨none, #[]⟩

/-- Chooses the left-hand side of the rules to come. -/
def withLhs (l : RuleList S) (lhs : Symbol) : RuleList S := { l with lhs := some lhs }

/-- Adds a rule for the left-hand side last chosen. -/
def add (l : RuleList S) (rhs : Rhs) (score : S) : Except Fault (RuleList S) :=
  match l.lhs with
  | some lhs => .ok { l with rules := l.rules.push (.ofRhs lhs rhs score) }
  | none => .error .missingLhs

/-- Keeps the rules that pass a test. -/
def retain (l : RuleList S) (keep : Rule S → Bool) : RuleList S :=
  { l with rules := l.rules.filter keep }

end RuleList

end ChartParsing
