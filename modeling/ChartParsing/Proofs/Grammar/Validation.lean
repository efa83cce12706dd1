import ChartParsing.Proofs.Grammar.UnaryCycle
import ChartParsing.Proofs.Score.Laws

/-!
# Well-formed grammars

What is required of a grammar is a list: of the root first, then of each rule in turn.
The checks go through it and report the first requirement that fails, with the rule,
the symbol and the alphabet that it is about. What is left is the order of the unary
rules, which there is unless a symbol is on a cycle.

So the grammars that are accepted are the well-formed ones, whatever the loop order.
The numbers that rules come with are not read: they are given anew, by position.
-/

namespace ChartParsing.Grammar

variable {S : Type}

/-! ## Requirements -/

/-- What has to hold, and the error where it does not. -/
structure Requirement (S : Type) where
  Holds : Prop
  error : GrammarError S

/-- The error is that of the first requirement that does not hold. -/
inductive FirstFailing : List (Requirement S) → GrammarError S → Prop
  | here {req : Requirement S} {reqs : List (Requirement S)} :
    ¬ req.Holds → FirstFailing (req :: reqs) req.error
  | there {req : Requirement S} {reqs : List (Requirement S)} {e : GrammarError S} :
    req.Holds → FirstFailing reqs e → FirstFailing (req :: reqs) e

theorem firstFailing_cons {req : Requirement S} {reqs : List (Requirement S)}
    {e : GrammarError S} :
    FirstFailing (req :: reqs) e ↔
      ¬ req.Holds ∧ e = req.error ∨ req.Holds ∧ FirstFailing reqs e := by
  refine ⟨?_, ?_⟩
  · intro h
    cases h with
    | here hfails => exact Or.inl ⟨hfails, rfl⟩
    | there hholds hrest => exact Or.inr ⟨hholds, hrest⟩
  · rintro (⟨hfails, rfl⟩ | ⟨hholds, hrest⟩)
    · exact .here hfails
    · exact .there hholds hrest

theorem not_firstFailing_nil {e : GrammarError S} : ¬ FirstFailing [] e := fun h => by cases h

theorem firstFailing_append {reqs reqs' : List (Requirement S)} {e : GrammarError S} :
    FirstFailing (reqs ++ reqs') e ↔
      FirstFailing reqs e ∨ (∀ req ∈ reqs, req.Holds) ∧ FirstFailing reqs' e := by
  induction reqs with
  | nil => simp [not_firstFailing_nil]
  | cons req reqs ih =>
    rw [List.cons_append, firstFailing_cons, firstFailing_cons, ih, List.forall_mem_cons]
    tauto

/-- The check succeeds if all the requirements hold, and fails with the error of the
first that does not. -/
structure Decides (check : Except (GrammarError S) Unit) (reqs : List (Requirement S)) :
    Prop where
  ok_iff : check = .ok () ↔ ∀ req ∈ reqs, req.Holds
  error_iff : ∀ e, check = .error e ↔ FirstFailing reqs e

namespace Decides

theorem nil : Decides (S := S) (.ok ()) [] where
  ok_iff := by simp
  error_iff := fun e => by simp [not_firstFailing_nil]

/-- A single check. -/
theorem one {check : Except (GrammarError S) Unit} {req : Requirement S}
    (hok : req.Holds → check = .ok ()) (herror : ¬ req.Holds → check = .error req.error) :
    Decides check [req] := by
  by_cases h : req.Holds
  · refine ⟨by simp [hok h, h], fun e => ?_⟩
    simp [hok h, firstFailing_cons, h, not_firstFailing_nil]
  · refine ⟨by simp [herror h, h], fun e => ?_⟩
    simp [herror h, firstFailing_cons, h, eq_comm]

/-- One check after another. -/
theorem seq {check check' : Except (GrammarError S) Unit} {reqs reqs' : List (Requirement S)}
    (h : Decides check reqs) (h' : Decides check' reqs') :
    Decides (do check; check') (reqs ++ reqs') := by
  refine ⟨?_, fun e => ?_⟩
  · rw [seq_eq_ok_iff, h.ok_iff, h'.ok_iff, List.forall_mem_append]
  rw [firstFailing_append, ← h.ok_iff, ← h.error_iff, ← h'.error_iff]
  cases check <;> simp [bind, Except.bind]

end Decides

/-! ## What is required of rules -/

/-- The symbol is one of the nonterminals. -/
def requireNonterminal (nonterminals position : Nat) (sym : Symbol) : Requirement S :=
  ⟨sym.index < nonterminals, .nonterminalOutOfRange position sym.index nonterminals⟩

/-- The symbol is one of the terminals. -/
def requireTerminal (terminals position : Nat) (sym : Symbol) : Requirement S :=
  ⟨sym.index < terminals, .terminalOutOfRange position sym.index terminals⟩

instance (nonterminals position : Nat) (sym : Symbol) :
    Decidable (requireNonterminal (S := S) nonterminals position sym).Holds :=
  inferInstanceAs (Decidable (_ < _))

instance (terminals position : Nat) (sym : Symbol) :
    Decidable (requireTerminal (S := S) terminals position sym).Holds :=
  inferInstanceAs (Decidable (_ < _))

/-- The symbols of a rule are in range, a terminal before the nonterminals, and these
from left to right. -/
def rhsRequirements (nonterminals terminals position : Nat) (parent : Symbol) :
    Rhs → List (Requirement S)
  | .lexical t =>
    [requireTerminal terminals position t, requireNonterminal nonterminals position parent]
  | .unary y =>
    [requireNonterminal nonterminals position parent, requireNonterminal nonterminals position y]
  | .binary y z =>
    [requireNonterminal nonterminals position parent, requireNonterminal nonterminals position y,
      requireNonterminal nonterminals position z]

/-- The score of a rule is valid, and then its symbols are in range. -/
def ruleRequirements [Score S] (nonterminals terminals position : Nat) (r : Rule S) :
    List (Requirement S) :=
  ⟨ValidScore r.score, .invalidScore position r.score⟩ ::
    rhsRequirements nonterminals terminals position r.parent r.rhs

/-- The requirements of the rules from a position on, in order. -/
def rulesRequirements [Score S] (nonterminals terminals position : Nat) (rules : List (Rule S)) :
    List (Requirement S) :=
  (rules.zipIdx position).flatMap fun (r, i) => ruleRequirements nonterminals terminals i r

/-- What is required of a grammar: that the root is a nonterminal, and what is required
of its rules. -/
def requirements [Score S] (nonterminals terminals : Nat) (root : Symbol)
    (rules : Array (Rule S)) : List (Requirement S) :=
  ⟨root.index < nonterminals, .rootOutOfRange root.index nonterminals⟩ ::
    rulesRequirements nonterminals terminals 0 rules.toList

theorem decides_checkScore [Score S] (position : Nat) (score : S) :
    Decides (checkScore position score)
      [⟨ValidScore score, .invalidScore position score⟩] := by
  refine .one checkScore_eq_ok_iff.mpr fun h => ?_
  unfold checkScore
  rw [if_pos]
  by_contra hvalid
  simp only [Bool.or_eq_true, not_or, Bool.not_eq_true] at hvalid
  exact h hvalid

theorem decides_checkNonterminal (nonterminals : Alphabet) (position : Nat) (sym : Symbol) :
    Decides (S := S) (checkNonterminal nonterminals position sym)
      [requireNonterminal nonterminals.size position sym] := by
  refine .one checkNonterminal_eq_ok_iff.mpr fun h => if_neg fun hin => ?_
  exact h (of_decide_eq_true hin)

theorem decides_checkTerminal (terminals : Alphabet) (position : Nat) (sym : Symbol) :
    Decides (S := S) (checkTerminal terminals position sym)
      [requireTerminal terminals.size position sym] := by
  refine .one checkTerminal_eq_ok_iff.mpr fun h => if_neg fun hin => ?_
  exact h (of_decide_eq_true hin)

theorem decides_checkRhs (nonterminals terminals : Alphabet) (position : Nat) (parent : Symbol)
    (rhs : Rhs) :
    Decides (S := S) (checkRhs nonterminals terminals position parent rhs)
      (rhsRequirements nonterminals.size terminals.size position parent rhs) := by
  have hnonterminal := decides_checkNonterminal (S := S) nonterminals position
  cases rhs with
  | lexical t => exact (decides_checkTerminal terminals position t).seq (hnonterminal parent)
  | unary y => exact (hnonterminal parent).seq (hnonterminal y)
  | binary y z => exact (hnonterminal parent).seq ((hnonterminal y).seq (hnonterminal z))

theorem decides_checkRules [Score S] (nonterminals terminals : Alphabet) (rules : List (Rule S)) :
    ∀ position, Decides (checkRules nonterminals terminals position rules)
      (rulesRequirements nonterminals.size terminals.size position rules) := by
  induction rules with
  | nil => exact fun _ => .nil
  | cons r rules ih =>
    intro position
    have hrule := (decides_checkScore position r.score).seq
      (decides_checkRhs nonterminals terminals position r.parent r.rhs)
    exact hrule.seq (ih (position + 1))

/-! ## Acceptance -/

theorem requirements_hold_iff [Score S] {nonterminals terminals : Alphabet} {root : Symbol}
    {rules : Array (Rule S)} :
    (∀ req ∈ requirements nonterminals.size terminals.size root rules, req.Holds) ↔
      root.index < nonterminals.size ∧
        ∀ r ∈ rules, ValidRule nonterminals.size terminals.size r := by
  rw [requirements, List.forall_mem_cons,
    ← (decides_checkRules nonterminals terminals rules.toList 0).ok_iff, checkRules_eq_ok_iff]
  simp only [Array.mem_toList_iff]

/-- A grammar is refused for its root, for a rule, or for a symbol at which there is no
going on with the order of the unary rules. -/
theorem ofRules_eq_error_iff [Score S] {nonterminals terminals : Alphabet} {root : Symbol}
    {rules : Array (Rule S)} {order : LoopOrder} {e : GrammarError S} :
    ofRules nonterminals terminals root rules order = .error e ↔
      FirstFailing (requirements nonterminals.size terminals.size root rules) e ∨
        (∀ req ∈ requirements nonterminals.size terminals.size root rules, req.Holds) ∧
          ∃ sym, unaryOrderOf (numbered rules) nonterminals.size = .error sym ∧
            e = .unaryCycle sym.index := by
  have hchecks := decides_checkRules nonterminals terminals rules.toList 0
  rw [requirements, firstFailing_cons, List.forall_mem_cons, ← hchecks.error_iff,
    ← hchecks.ok_iff]
  unfold ofRules
  by_cases hroot : root.index < nonterminals.size
  case neg =>
    simp [Alphabet.contains, hroot, bind, Except.bind, throw, throwThe, MonadExceptOf.throw,
      eq_comm]
  cases hcheck : checkRules nonterminals terminals 0 rules.toList with
  | error e' => simp [Alphabet.contains, hroot, bind, Except.bind]
  | ok _ =>
    have hsearch : ChartParsing.unaryOrder nonterminals.symbols (unaryChildren (numbered rules)
        (.ofRules nonterminals.size Rule.unaryParentKey (numbered rules))) =
          unaryOrderOf (numbered rules) nonterminals.size := rfl
    simp only [hsearch]
    cases hfound : unaryOrderOf (numbered rules) nonterminals.size with
    | ok unaryOrder =>
      simp [Alphabet.contains, hroot, bind, Except.bind, pure, Except.pure]
    | error sym =>
      simp [Alphabet.contains, hroot, bind, Except.bind, throw, throwThe, MonadExceptOf.throw,
        eq_comm]

/-! ## Numbers -/

/-- Unary rules replace the same symbols under other numbers. -/
theorem unaryEdge_numbered (rules : Array (Rule S)) :
    UnaryEdge (numbered rules) = UnaryEdge rules := by
  funext x y
  refine propext ⟨?_, ?_⟩
  · rintro ⟨r, hr, rfl, hy⟩
    obtain ⟨r', hr', hparent, hrhs, -⟩ := mem_numbered hr
    exact ⟨r', hr', hparent.symm, hrhs.symm.trans hy⟩
  · rintro ⟨r, hr, rfl, hy⟩
    obtain ⟨i, hi⟩ := Array.mem_iff_getElem?.mp hr
    refine ⟨{ r with id := RuleId.ofNat i }, ?_, rfl, hy⟩
    refine Array.mem_of_getElem? (i := i) ?_
    rw [getElem?_numbered, hi]
    rfl

/-- Rules in range, numbered by position, are found under their numbers. -/
theorem unaryListed_numbered [Score S] {rules : Array (Rule S)} {nonterminals terminals : Nat}
    (hsize : rules.size ≤ UInt32.size) (hvalid : ∀ r ∈ rules, ValidRule nonterminals terminals r) :
    UnaryListed (numbered rules) nonterminals where
  number := fun r hr _ _ => numbered_number hsize r hr
  parent_lt := by
    intro r hr _ _
    obtain ⟨r', hr', hparent, -, -⟩ := mem_numbered hr
    rw [hparent]
    exact (hvalid r' hr').2.1
  child_lt := by
    intro r hr y hy
    obtain ⟨r', hr', -, hrhs, -⟩ := mem_numbered hr
    have hrange := (hvalid r' hr').2.2
    rw [← hrhs, hy] at hrange
    exact hrange

/-- The rules with other numbers. -/
def renumbered (ids : Nat → RuleId) (rules : Array (Rule S)) : Array (Rule S) :=
  rules.mapIdx fun i r => { r with id := ids i }

theorem numbered_renumbered (ids : Nat → RuleId) (rules : Array (Rule S)) :
    numbered (renumbered ids rules) = numbered rules := by
  refine Array.ext_getElem? fun i => ?_
  rw [getElem?_numbered, getElem?_numbered, renumbered, Array.getElem?_mapIdx]
  cases rules[i]? <;> rfl

theorem checkRules_renumbered [Score S] (nonterminals terminals : Alphabet)
    (rules : List (Rule S)) :
    ∀ (ids : Nat → RuleId) (position : Nat),
      checkRules nonterminals terminals position
        (rules.mapIdx fun i r => { r with id := ids i }) =
          checkRules nonterminals terminals position rules := by
  induction rules with
  | nil => exact fun _ _ => rfl
  | cons r rules ih =>
    intro ids position
    rw [List.mapIdx_cons, checkRules, checkRules, ih fun i => ids (i + 1)]
    rfl

/-- **Exactly the well-formed grammars are accepted.** There is a grammar if the root is
a nonterminal, the rules have valid scores and symbols in range, and no symbol is
replaced by itself through unary rules. Otherwise the error is that of the first
requirement that fails, and if they all hold, it names a symbol on a cycle. So neither
the loop order nor the numbers of the rules have a say. -/
theorem ofRules_validates [Score S] (nonterminals terminals : Alphabet) (root : Symbol)
    (rules : Array (Rule S)) (hsize : rules.size ≤ UInt32.size) :
    (∀ order, (∃ g, ofRules nonterminals terminals root rules order = .ok g) ↔
      root.index < nonterminals.size ∧
      (∀ r ∈ rules, ValidRule nonterminals.size terminals.size r) ∧
      ∀ sym, ¬ OnUnaryCycle rules sym) ∧
    (∀ order e, ofRules nonterminals terminals root rules order = .error e ↔
      FirstFailing (requirements nonterminals.size terminals.size root rules) e ∨
      (∀ req ∈ requirements nonterminals.size terminals.size root rules, req.Holds) ∧
        ∃ sym, unaryOrderOf (numbered rules) nonterminals.size = .error sym ∧
          OnUnaryCycle rules sym ∧ e = .unaryCycle sym.index) ∧
    (∀ order order' e, ofRules nonterminals terminals root rules order = .error e →
      ofRules nonterminals terminals root rules order' = .error e) ∧
    ∀ ids order, ofRules nonterminals terminals root (renumbered ids rules) order =
      ofRules nonterminals terminals root rules order := by
  have hcycle : OnUnaryCycle (numbered rules) = OnUnaryCycle rules := by
    unfold OnUnaryCycle
    rw [unaryEdge_numbered]
  refine ⟨fun order => ⟨?_, ?_⟩, fun order e => ?_, fun order order' e => ?_, fun ids order => ?_⟩
  · rintro ⟨g, hg⟩
    obtain ⟨hroot, hvalid, unaryOrder, hfound, -⟩ := ofRules_eq_ok_iff.mp hg
    refine ⟨of_decide_eq_true hroot, hvalid, fun sym => ?_⟩
    rw [← hcycle]
    exact (unaryListed_numbered hsize hvalid).not_onUnaryCycle hfound sym
  · rintro ⟨hroot, hvalid, hacyclic⟩
    cases hfound : unaryOrderOf (numbered rules) nonterminals.size with
    | ok unaryOrder =>
      exact ⟨_, ofRules_eq_ok_iff.mpr ⟨decide_eq_true hroot, hvalid, unaryOrder, hfound, rfl⟩⟩
    | error sym =>
      have hon := (unaryListed_numbered hsize hvalid).unaryOrderOf_error hfound
      rw [hcycle] at hon
      exact absurd hon (hacyclic sym)
  · rw [ofRules_eq_error_iff]
    refine or_congr_right (and_congr_right fun hholds => exists_congr fun sym => ?_)
    refine and_congr_right fun hfound => (and_iff_right ?_).symm
    have hvalid := (requirements_hold_iff.mp hholds).2
    rw [← hcycle]
    exact (unaryListed_numbered hsize hvalid).unaryOrderOf_error hfound
  · rw [ofRules_eq_error_iff, ofRules_eq_error_iff]
    exact id
  · unfold ofRules
    rw [numbered_renumbered, renumbered, Array.toList_mapIdx, checkRules_renumbered]

/-- Over two nonterminals and one terminal: `S ::= S S`, then a rule for a missing parent
with a missing terminal, then `S ::= S`. -/
def Small.faulty : Array (Rule ℕ) :=
  #[.ofRhs (.ofNat 0) (.binary (.ofNat 0) (.ofNat 0)) 1,
    .ofRhs (.ofNat 7) (.lexical (.ofNat 9)) 1,
    .ofRhs (.ofNat 0) (.unary (.ofNat 0)) 1]

/-- The terminal is found first. -/
theorem ofRules_validates_faulty :
    Small.faulty.size ≤ UInt32.size ∧ ∀ order,
      ofRules Small.nonterminals Small.terminals (.ofNat 0) Small.faulty order =
        .error (.terminalOutOfRange 1 9 1) := by
  have hsize : Small.faulty.size ≤ UInt32.size := by decide
  refine ⟨hsize, fun order => ?_⟩
  refine ((ofRules_validates Small.nonterminals Small.terminals (.ofNat 0) Small.faulty
    hsize).2.1 order _).mpr (Or.inl ?_)
  -- the root, and the score and the symbols of the first rule
  refine .there (by decide) (.there ⟨rfl, rfl⟩ (.there ?_ (.there ?_ (.there ?_ ?_))))
  · decide
  · decide
  · decide
  · have hmissing : ¬ (requireTerminal (S := ℕ) 1 1 (.ofNat 9)).Holds := by decide
    exact .there ⟨rfl, rfl⟩ (.here hmissing)

end ChartParsing.Grammar
