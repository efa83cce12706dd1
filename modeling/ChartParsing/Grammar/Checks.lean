import ChartParsing.Alphabet
import ChartParsing.Rule

/-!
# Checking grammars

Rules are checked in order, and the first thing wrong is reported: rule by rule
the score, then the terminal if there is one, then the nonterminals from left to
right. A score must be a number below plus infinity; a rule that is impossible
is allowed.
-/

namespace ChartParsing

/-- What is wrong with a grammar, or with new scores for one. -/
inductive GrammarError (S : Type) where
  | rootOutOfRange (root nonterminals : Nat)
  | missingRoot
  | nonterminalOutOfRange (rule symbol nonterminals : Nat)
  | terminalOutOfRange (rule symbol terminals : Nat)
  | invalidScore (rule : Nat) (score : S)
  | unknownRule (rule rules : Nat)
  | scoreCountMismatch (expected got : Nat)
  | unaryCycle (symbol : Nat)
  deriving DecidableEq

/-- What an error says. -/
def GrammarError.message {S : Type} [ScoreText S] : GrammarError S → String
  | .rootOutOfRange root nonterminals =>
    s!"root symbol {root} is outside the alphabet of {nonterminals} nonterminals"
  | .missingRoot => "grammar has no root symbol"
  | .nonterminalOutOfRange rule symbol nonterminals =>
    s!"rule {rule} refers to nonterminal {symbol}, outside the alphabet of {nonterminals}"
  | .terminalOutOfRange rule symbol terminals =>
    s!"rule {rule} refers to terminal {symbol}, outside the alphabet of {terminals}"
  | .invalidScore rule score => s!"rule {rule} has invalid score {ScoreText.plain score}"
  | .unknownRule rule rules => s!"no rule with id {rule}; the grammar has {rules} rules"
  | .scoreCountMismatch expected got => s!"expected {expected} scores, got {got}"
  | .unaryCycle symbol => s!"unary rules form a cycle through nonterminal {symbol}"

namespace Grammar

variable {S : Type}

/-- A score is refused if it is undefined or unbounded. An impossible rule is
allowed. -/
def checkScore [Score S] (rule : Nat) (score : S) : Except (GrammarError S) Unit :=
  if Score.isUndefined score || Score.isUnbounded score then .error (.invalidScore rule score)
  else .ok ()

/-- A nonterminal has to be in the alphabet. -/
def checkNonterminal (nonterminals : Alphabet) (rule : Nat) (sym : Symbol) :
    Except (GrammarError S) Unit :=
  if nonterminals.contains sym then .ok ()
  else .error (.nonterminalOutOfRange rule sym.index nonterminals.size)

/-- A terminal has to be in the alphabet. -/
def checkTerminal (terminals : Alphabet) (rule : Nat) (sym : Symbol) :
    Except (GrammarError S) Unit :=
  if terminals.contains sym then .ok ()
  else .error (.terminalOutOfRange rule sym.index terminals.size)

/-- The symbols on a right-hand side, terminals checked against theirs. -/
def checkRhs (nonterminals terminals : Alphabet) (rule : Nat) (parent : Symbol) :
    Rhs → Except (GrammarError S) Unit
  | .lexical terminal => do
    checkTerminal terminals rule terminal
    checkNonterminal nonterminals rule parent
  | .unary child => do
    checkNonterminal nonterminals rule parent
    checkNonterminal nonterminals rule child
  | .binary left right => do
    checkNonterminal nonterminals rule parent
    checkNonterminal nonterminals rule left
    checkNonterminal nonterminals rule right

/-- A rule at its position: the score first, then the symbols. -/
def checkRule [Score S] (nonterminals terminals : Alphabet) (position : Nat) (rule : Rule S) :
    Except (GrammarError S) Unit := do
  checkScore position rule.score
  checkRhs nonterminals terminals position rule.parent rule.rhs

/-- The rules from a position on, in order. -/
def checkRules [Score S] (nonterminals terminals : Alphabet) :
    (position : Nat) → List (Rule S) → Except (GrammarError S) Unit
  | _, [] => .ok ()
  | position, rule :: rules => do
    checkRule nonterminals terminals position rule
    checkRules nonterminals terminals (position + 1) rules

end Grammar

end ChartParsing
