import ChartParsing.Grammar.Checks
import ChartParsing.Grammar.Index
import ChartParsing.Grammar.UnaryOrder
import ChartParsing.LogLine

/-!
# Grammars

A grammar has a nonterminal and a terminal alphabet, a root and a list of rules,
and it is indexed once, when it is built. Before that the root is checked, then
the rules, and last that there is no cycle of unary rules, which would have no
order to be applied in.

Afterwards the rules keep their shape. Their scores may be set anew, and the
binary rules may be laid out for another loop order; neither touches the other
indexes.
-/

namespace ChartParsing

/-- An indexed grammar. -/
structure Grammar (S : Type) where
  nonterminals : Alphabet
  terminals : Alphabet
  root : Symbol
  rules : Array (Rule S)
  /-- Lexical rules by terminal. -/
  lexicalByTerminal : Buckets
  /-- Unary rules by child. -/
  unaryByChild : Buckets
  /-- Unary rules by parent. -/
  unaryByParent : Buckets
  /-- Binary rules, laid out for one loop order. -/
  binary : BinaryIndex
  /-- The symbols of unary rules, each child before its parents. -/
  unaryOrder : Array Symbol
  /-- The left children of binary rules. -/
  leftChildren : SymbolSet
  /-- The right children of binary rules. -/
  rightChildren : SymbolSet

namespace Grammar

variable {S : Type}

/-! ## Building -/

/-- Numbers rules by position. -/
def numbered (rules : Array (Rule S)) : Array (Rule S) :=
  rules.mapIdx fun position rule => { rule with id := RuleId.ofNat position }

/-- The children of the unary rules of a parent. -/
def unaryChildren (rules : Array (Rule S)) (byParent : Buckets) (parent : Symbol) : List Symbol :=
  ((byParent.get parent.index).toList.filterMap fun id => rules[id.index]?).map Rule.leftChild

/-- Checks the rules, numbers them by position and builds all indexes. -/
def ofRules [Score S] (nonterminals terminals : Alphabet) (root : Symbol) (rules : Array (Rule S))
    (order : LoopOrder) : Except (GrammarError S) (Grammar S) := do
  if !nonterminals.contains root then
    throw (.rootOutOfRange root.index nonterminals.size)
  checkRules nonterminals terminals 0 rules.toList
  let rules := numbered rules
  let count := nonterminals.size
  let unaryByParent := Buckets.ofRules count Rule.unaryParentKey rules
  match ChartParsing.unaryOrder nonterminals.symbols (unaryChildren rules unaryByParent) with
  | .error sym => throw (.unaryCycle sym.index)
  | .ok unaryOrder =>
    return {
      nonterminals, terminals, root, rules, unaryByParent, unaryOrder
      lexicalByTerminal := .ofRules terminals.size Rule.lexicalKey rules
      unaryByChild := .ofRules count Rule.unaryChildKey rules
      binary := .ofRules rules count order
      leftChildren := .ofRules count (fun r => if r.isBinary then some r.leftChild else none) rules
      rightChildren := .ofRules count Rule.rightChild? rules }

/-! ## Looking up -/

/-- The loop order the binary rules are laid out for. -/
def loopOrder (g : Grammar S) : LoopOrder := g.binary.loopOrder

/-- The number of nonterminals. -/
def nonterminalCount (g : Grammar S) : Nat := g.nonterminals.size

/-- The number of terminals. -/
def terminalCount (g : Grammar S) : Nat := g.terminals.size

/-- The rule with a number. -/
def rule (g : Grammar S) (id : RuleId) : Except Fault (Rule S) :=
  match g.rules[id.index]? with
  | some rule => .ok rule
  | none => .error .noSlot

/-- The rules with the given numbers. -/
def rulesAt (g : Grammar S) (ids : Array RuleId) : Except Fault (List (Rule S)) :=
  ids.toList.mapM g.rule

/-- The lexical rules of a terminal. -/
def lexicalRules (g : Grammar S) (terminal : Symbol) : Array RuleId :=
  g.lexicalByTerminal.get terminal.index

/-- The unary rules with a child. -/
def unaryRulesWithChild (g : Grammar S) (child : Symbol) : Array RuleId :=
  g.unaryByChild.get child.index

/-- The unary rules with a parent. -/
def unaryRulesWithParent (g : Grammar S) (parent : Symbol) : Array RuleId :=
  g.unaryByParent.get parent.index

/-- The binary rules with both children. They have to be indexed by pair. -/
def binaryRulesWithChildren (g : Grammar S) (left right : Symbol) :
    Except Fault (Array RuleId) :=
  match g.binary with
  | .byPair buckets =>
    if left.index < g.nonterminalCount ∧ right.index < g.nonterminalCount then
      .ok (buckets.get (left.index * g.nonterminalCount + right.index))
    else .ok #[]
  | _ => .error (.notIndexedBy .pair)

/-- The binary rules with a left child. They have to be indexed by it. -/
def binaryRulesWithLeftChild (g : Grammar S) (left : Symbol) : Except Fault (Array RuleId) :=
  match g.binary with
  | .byLeftChild buckets => .ok (buckets.get left.index)
  | _ => .error (.notIndexedBy .leftChild)

/-- The binary rules with a right child. They have to be indexed by it. -/
def binaryRulesWithRightChild (g : Grammar S) (right : Symbol) : Except Fault (Array RuleId) :=
  match g.binary with
  | .byRightChild buckets => .ok (buckets.get right.index)
  | _ => .error (.notIndexedBy .rightChild)

/-- The pairs of children that some binary rule has, by left child, then by
right child, each with its rules. Nothing is listed unless binary rules are
indexed by pair. -/
def childPairs (g : Grammar S) : List (Symbol × Symbol × Array RuleId) :=
  let syms := g.nonterminals.symbols
  let pairs := syms.flatMap fun left => syms.map fun right =>
    (left, right, (g.binaryRulesWithChildren left right).toOption.getD #[])
  pairs.filter fun (_, _, ids) => !ids.isEmpty

/-- Some binary rule has the symbol on the left. -/
def isLeftChild (g : Grammar S) (sym : Symbol) : Bool := g.leftChildren.contains sym

/-- Some binary rule has the symbol on the right. -/
def isRightChild (g : Grammar S) (sym : Symbol) : Bool := g.rightChildren.contains sym

/-! ## Changing -/

/-- Lays the binary rules out for a loop order. -/
def reindex (g : Grammar S) (order : LoopOrder) : Grammar S :=
  if g.loopOrder = order then g
  else { g with binary := .ofRules g.rules g.nonterminalCount order }

/-- Gives one rule a new score. -/
def setRuleScore [Score S] (g : Grammar S) (id : RuleId) (score : S) :
    Except (GrammarError S) (Grammar S) := do
  if g.rules.size ≤ id.index then
    throw (.unknownRule id.index g.rules.size)
  checkScore id.index score
  return { g with rules := g.rules.modify id.index fun rule => { rule with score } }

/-- Gives every rule a new score, in order. -/
def setScores [Score S] (g : Grammar S) (scores : Array S) :
    Except (GrammarError S) (Grammar S) := do
  if scores.size ≠ g.rules.size then
    throw (.scoreCountMismatch g.rules.size scores.size)
  (scores.toList.zipIdx).forM fun (score, position) => checkScore position score
  return { g with rules := g.rules.zipWith (fun rule score => { rule with score }) scores }

/-! ## Log lines -/

/-- Says how large a grammar just built is. -/
def builtLine (g : Grammar S) : LogLine :=
  let lexical := g.rules.countP Rule.isLexical
  let unary := g.rules.countP Rule.isUnary
  let binary := g.rules.countP Rule.isBinary
  ⟨.debug, s!"indexed grammar: {g.nonterminalCount} nonterminals, {g.terminalCount} terminals, "
    ++ s!"{g.rules.size} rules ({lexical} lexical, {unary} unary, {binary} binary), "
    ++ g.loopOrder.name⟩

/-- Says that a grammar is about to be laid out for another loop order, if it
is. -/
def reindexLine? (g : Grammar S) (order : LoopOrder) : Option LogLine :=
  if g.loopOrder = order then none
  else some ⟨.debug, s!"reindexed binary rules from {g.loopOrder.name} to {order.name}"⟩

end Grammar

end ChartParsing
