import ChartParsing.Constraint
import ChartParsing.Proofs.Grammar.Rules
import ChartParsing.Proofs.Step
import Mathlib.Data.Set.Basic

/-!
# Derivations

A derivation is a tree of rule applications over a part of the sentence: a lexical
rule at a position, a unary rule over a derivation of its child, or a binary rule
over derivations of its children side by side. Its score is evaluated from the
leaves up, in the order in which parsing combines scores.

Derivations know nothing of charts. What a chart holds is stated about the
derivations of a symbol over a span, all of whose applications a predicate admits
at their own scores.

A derivation of a symbol is made from derivations over narrower spans, or over the
same span and of symbols that rank lower. `Grammar.Indexed.span_induction` is the
induction this allows.
-/

namespace ChartParsing

/-- A tree of rule applications. -/
inductive Derivation (S : Type) where
  | lexical (rule : Rule S) (position : Nat)
  | unary (rule : Rule S) (child : Derivation S)
  | binary (rule : Rule S) (left right : Derivation S)

namespace Derivation

variable {S : Type}

/-- The rule applied at the top. -/
def rule : Derivation S → Rule S
  | lexical rule _ => rule
  | unary rule _ => rule
  | binary rule _ _ => rule

/-- The symbol derived. -/
def symbol (d : Derivation S) : Symbol := d.rule.parent

/-- The start of the span. -/
def start : Derivation S → Nat
  | lexical _ position => position
  | unary _ child => child.start
  | binary _ left _ => left.start

/-- The end of the span. -/
def stop : Derivation S → Nat
  | lexical _ position => position + 1
  | unary _ child => child.stop
  | binary _ _ right => right.stop

/-- Where the top splits the span: at its start for a lexical rule, at its end for
a unary one. -/
def mid : Derivation S → Nat
  | lexical _ position => position
  | unary _ child => child.stop
  | binary _ left _ => left.stop

/-- The step at the top. -/
def top (d : Derivation S) : Step S := ⟨d.rule, d.start, d.mid, d.stop⟩

/-- All steps, the top one first. -/
def steps : Derivation S → List (Step S)
  | lexical rule position => [(lexical rule position).top]
  | unary rule child => (unary rule child).top :: child.steps
  | binary rule left right => (binary rule left right).top :: (left.steps ++ right.steps)

theorem top_mem (d : Derivation S) : d.top ∈ d.steps := by
  cases d <;> exact List.mem_cons_self

/-- The score of a step. -/
def stepScore (scorer : Scorer S) (st : Step S) : S :=
  scorer.score st.rule st.start st.mid st.stop

/-- The score, evaluated from the leaves up: the children's scores combined first,
then the score of the rule. -/
def score [Score S] (scorer : Scorer S) : Derivation S → S
  | lexical rule position => stepScore scorer (lexical rule position).top
  | unary rule child =>
    Score.combine (child.score scorer) (stepScore scorer (unary rule child).top)
  | binary rule left right =>
    Score.combine (Score.combine (left.score scorer) (right.score scorer))
      (stepScore scorer (binary rule left right).top)

/-- Every rule is the grammar's and fits what is below it. -/
def Valid (g : Grammar S) (sentence : List Symbol) : Derivation S → Prop
  | lexical rule position =>
    rule ∈ g.rules ∧ ∃ t, rule.rhs = .lexical t ∧ sentence[position]? = some t
  | unary rule child => rule ∈ g.rules ∧ rule.rhs = .unary child.symbol ∧ child.Valid g sentence
  | binary rule left right =>
    rule ∈ g.rules ∧ rule.rhs = .binary left.symbol right.symbol ∧ left.stop = right.start ∧
      left.Valid g sentence ∧ right.Valid g sentence

/-- The predicate accepts the top at the derivation's own score. -/
def TopAdmitted [Score S] (scorer : Scorer S) (p : CellPredicate S) (d : Derivation S) : Prop :=
  p.test d.start d.stop d.mid d.rule (d.score scorer) = true

/-- The predicate accepts everything below the top. -/
def PartsAdmitted [Score S] (scorer : Scorer S) (p : CellPredicate S) : Derivation S → Prop
  | lexical _ _ => True
  | unary _ child => child.TopAdmitted scorer p ∧ child.PartsAdmitted scorer p
  | binary _ left right =>
    (left.TopAdmitted scorer p ∧ left.PartsAdmitted scorer p) ∧
      right.TopAdmitted scorer p ∧ right.PartsAdmitted scorer p

/-- The predicate accepts every application, each at the score of the derivation
that it is the top of. -/
def Admitted [Score S] (scorer : Scorer S) (p : CellPredicate S) (d : Derivation S) : Prop :=
  d.TopAdmitted scorer p ∧ d.PartsAdmitted scorer p

/-- A derivation spans at least one token of the sentence. -/
theorem Valid.span {g : Grammar S} {sentence : List Symbol} {d : Derivation S}
    (h : d.Valid g sentence) : d.start < d.stop ∧ d.stop ≤ sentence.length := by
  induction d with
  | lexical rule position =>
    obtain ⟨_, t, _, ht⟩ := h
    obtain ⟨hlt, _⟩ := List.getElem?_eq_some_iff.mp ht
    exact ⟨Nat.lt_succ_self _, hlt⟩
  | unary rule child ih => exact ih h.2.2
  | binary rule left right ihl ihr =>
    obtain ⟨_, _, hmid, hl, hr⟩ := h
    have := ihl hl
    have := ihr hr
    simp only [start, stop]
    omega

theorem Valid.rule_mem {g : Grammar S} {sentence : List Symbol} {d : Derivation S}
    (h : d.Valid g sentence) : d.rule ∈ g.rules := by
  cases d <;> exact h.1

end Derivation

/-- The derivations of a symbol over a span, all of whose applications are
admitted. -/
def derivations {S : Type} [Score S] (g : Grammar S) (sentence : List Symbol) (scorer : Scorer S)
    (p : CellPredicate S) (sym : Symbol) (start stop : Nat) : Set (Derivation S) :=
  { d | d.Valid g sentence ∧ d.Admitted scorer p ∧
    d.symbol = sym ∧ d.start = start ∧ d.stop = stop }

/-! ## Induction over spans and ranks -/

/-- What holds of a symbol over a span whenever it holds of all symbols over
narrower spans, and of those that rank lower over the span itself, holds of every
symbol over every span. -/
theorem Grammar.span_induction {S : Type} (g : Grammar S)
    {motive : (sym : Symbol) → (start stop : Nat) → Prop}
    (step : ∀ sym start stop,
      (∀ sym' start' stop', stop' - start' < stop - start → motive sym' start' stop') →
      (∀ sym', g.unaryRank sym' < g.unaryRank sym → motive sym' start stop) →
      motive sym start stop) (sym : Symbol) (start stop : Nat) : motive sym start stop := by
  -- by width first, and for one width by rank
  suffices h : ∀ width rank sym start stop, stop - start = width → g.unaryRank sym = rank →
      motive sym start stop from h _ _ sym start stop rfl rfl
  intro width
  induction width using Nat.strongRecOn with
  | ind width ihw =>
    intro rank
    induction rank using Nat.strongRecOn with
    | ind rank ihr =>
      intro sym start stop heq hsame
      subst heq
      subst hsame
      refine step sym start stop ?_ ?_
      · intro sym' start' stop' hlt
        exact ihw _ hlt _ sym' start' stop' rfl rfl
      · intro sym' hlt
        exact ihr _ hlt sym' start stop rfl rfl

end ChartParsing
