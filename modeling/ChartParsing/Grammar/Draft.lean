import ChartParsing.Grammar

/-!
# Grammars in the making

A draft collects names, rules and the root in any order. Nothing is checked
until the draft is built.
-/

namespace ChartParsing

/-- What is known of a grammar so far. -/
structure GrammarDraft (S : Type) where
  nonterminals : Alphabet
  terminals : Alphabet
  root : Option Symbol
  rules : Array (Rule S)

namespace GrammarDraft

variable {S : Type}

/-- Nothing is known yet. -/
def empty : GrammarDraft S := ⟨.empty, .empty, none, #[]⟩

/-- Names a nonterminal. -/
def nonterminal (d : GrammarDraft S) (name : String) : Symbol × GrammarDraft S :=
  let (sym, nonterminals) := d.nonterminals.intern name
  (sym, { d with nonterminals })

/-- Names a terminal. -/
def terminal (d : GrammarDraft S) (name : String) : Symbol × GrammarDraft S :=
  let (sym, terminals) := d.terminals.intern name
  (sym, { d with terminals })

/-- Nonterminals and terminals named in order, and nothing else. -/
def ofNames (nonterminals terminals : List String) : GrammarDraft S :=
  { (empty : GrammarDraft S) with
    nonterminals := .ofNames nonterminals
    terminals := .ofNames terminals }

/-- Chooses the root. -/
def withRoot (d : GrammarDraft S) (root : Symbol) : GrammarDraft S := { d with root := some root }

/-- Adds a rule. -/
def add (d : GrammarDraft S) (parent : Symbol) (rhs : Rhs) (score : S) : GrammarDraft S :=
  { d with rules := d.rules.push (.ofRhs parent rhs score) }

/-- Keeps the rules that pass a test. -/
def retain (d : GrammarDraft S) (keep : Rule S → Bool) : GrammarDraft S :=
  { d with rules := d.rules.filter keep }

/-- Drops the rules that can never apply. -/
def removeImpossible [Score S] (d : GrammarDraft S) : GrammarDraft S :=
  d.retain fun rule => !Score.isImpossible rule.score

/-- Checks the draft and indexes it for a loop order. -/
def build [Score S] (d : GrammarDraft S) (order : LoopOrder) :
    Except (GrammarError S) (Grammar S) :=
  match d.root with
  | none => .error .missingRoot
  | some root => Grammar.ofRules d.nonterminals d.terminals root d.rules order

end GrammarDraft

end ChartParsing
