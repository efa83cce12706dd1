import ChartParsing.Rule

/-!
# Entries of a cell

A cell holds one entry per symbol it has been offered: the score so far, and a
back pointer to the derivation behind it. What an offer does to the entry
already there depends on the aggregation. The best derivation wins only if it is
strictly better, so of several equally good ones the first stays; pooled scores
add up, and no single derivation accounts for them.
-/

namespace ChartParsing

/-- How an entry got its score. -/
inductive BackPointer where
  /-- By applying a rule at the top. `mid` is where a binary rule splits the
  span, the position of the token for a lexical rule, and the end of the span
  for a unary rule. -/
  | derivation (rule : RuleId) (mid : Nat)
  /-- By pooling, which no single rule accounts for. -/
  | untracked
  deriving DecidableEq

/-- A derivation of `rule.parent` offered to a cell. -/
structure Offer (S : Type) where
  mid : Nat
  rule : Rule S
  score : S
  deriving DecidableEq

/-- What a cell holds of a symbol. -/
structure Entry (S : Type) where
  score : S
  backPointer : BackPointer
  deriving DecidableEq

variable {S : Type}

/-- The back pointer that an offer brings. -/
def Offer.backPointer (o : Offer S) : Aggregation → BackPointer
  | .viterbi => .derivation o.rule.id o.mid
  | .inside => .untracked

/-- The entry of a symbol that an offer is the first for. -/
def Offer.entry (o : Offer S) (aggregation : Aggregation) : Entry S :=
  ⟨o.score, o.backPointer aggregation⟩

/-- The entry of a symbol after an offer, from the one before it. -/
def Offer.merge [Score S] (o : Offer S) (aggregation : Aggregation) : Option (Entry S) → Entry S
  | none => o.entry aggregation
  | some e =>
    match aggregation with
    | .viterbi => if Score.exceeds o.score e.score then o.entry .viterbi else e
    | .inside => { e with score := Aggregation.inside.plus e.score o.score }

@[simp]
theorem Offer.merge_none [Score S] (o : Offer S) (aggregation : Aggregation) :
    o.merge aggregation none = o.entry aggregation := rfl

end ChartParsing
