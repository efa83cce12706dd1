import ChartParsing.Proofs.Grammar.Lookup

/-!
# Accepted grammars

A grammar that is accepted has its symbols in range, its rules numbered by
position, every index built from its rules, and the unary rules in an order with
children first. `Indexed` lists these facts, `Accepted.indexed` establishes them,
and nothing later opens `Grammar.ofRules` again.

With them a lookup is a filter: the rules found under a key are those of the
grammar with that key, in the order of the grammar. Rules are numbered by 32-bit
words, so two of more than `2 ^ 32` rules would share a number, and a lookup
would find the wrong one.
-/

namespace ChartParsing

variable {S : Type}

namespace Grammar

/-- The grammar was built from a list of rules, no more of them than there are
numbers for. -/
def Accepted [Score S] (g : Grammar S) : Prop :=
  ∃ nonterminals terminals root rules order, rules.size ≤ UInt32.size ∧
    ofRules nonterminals terminals root rules order = .ok g

/-- What building a grammar establishes. -/
structure Indexed (g : Grammar S) : Prop where
  root_lt : g.root.index < g.nonterminalCount
  number : ∀ (i : Nat) (r : Rule S), g.rules[i]? = some r → r.id.index = i
  parent_lt : ∀ r ∈ g.rules, r.parent.index < g.nonterminalCount
  lexical_lt : ∀ r ∈ g.rules, ∀ t, r.rhs = .lexical t → t.index < g.terminalCount
  unary_lt : ∀ r ∈ g.rules, ∀ y, r.rhs = .unary y → y.index < g.nonterminalCount
  binary_lt : ∀ r ∈ g.rules, ∀ y z, r.rhs = .binary y z →
    y.index < g.nonterminalCount ∧ z.index < g.nonterminalCount
  lexicalByTerminal_eq : g.lexicalByTerminal = .ofRules g.terminalCount Rule.lexicalKey g.rules
  unaryByChild_eq : g.unaryByChild = .ofRules g.nonterminalCount Rule.unaryChildKey g.rules
  unaryByParent_eq : g.unaryByParent = .ofRules g.nonterminalCount Rule.unaryParentKey g.rules
  binary_eq : g.binary = .ofRules g.rules g.nonterminalCount g.loopOrder
  leftChildren_eq : g.leftChildren =
    .ofRules g.nonterminalCount (fun r => if r.isBinary then some r.leftChild else none) g.rules
  rightChildren_eq : g.rightChildren = .ofRules g.nonterminalCount Rule.rightChild? g.rules
  unaryOrder_eq : ChartParsing.unaryOrder g.nonterminals.symbols
    (unaryChildren g.rules g.unaryByParent) = .ok g.unaryOrder

/-! ## What the checks say -/

/-- A score that a rule may have. -/
def ValidScore [Score S] (score : S) : Prop :=
  Score.isUndefined score = false ∧ Score.isUnbounded score = false

/-- The symbols of a right-hand side are in range. -/
def RhsInRange (nonterminals terminals : Nat) : Rhs → Prop
  | .lexical t => t.index < terminals
  | .unary y => y.index < nonterminals
  | .binary y z => y.index < nonterminals ∧ z.index < nonterminals

/-- A rule with a valid score and symbols in range. -/
def ValidRule [Score S] (nonterminals terminals : Nat) (r : Rule S) : Prop :=
  ValidScore r.score ∧ r.parent.index < nonterminals ∧ RhsInRange nonterminals terminals r.rhs

theorem checkScore_eq_ok_iff [Score S] {position : Nat} {score : S} :
    checkScore position score = .ok () ↔ ValidScore score := by
  unfold checkScore ValidScore
  cases Score.isUndefined score <;> cases Score.isUnbounded score <;> simp

/-- A check followed by others succeeds exactly if all do. -/
theorem seq_eq_ok_iff {ε : Type} {x y : Except ε Unit} :
    (do x; y) = .ok () ↔ x = .ok () ∧ y = .ok () := by
  cases x with
  | error e => exact iff_of_false (fun h => by cases h) (fun h => by cases h.1)
  | ok u => exact (and_iff_right rfl).symm

theorem checkNonterminal_eq_ok_iff {nonterminals : Alphabet} {position : Nat} {sym : Symbol} :
    (checkNonterminal nonterminals position sym : Except (GrammarError S) Unit) = .ok () ↔
      sym.index < nonterminals.size := by
  unfold checkNonterminal Alphabet.contains
  by_cases h : sym.index < nonterminals.size <;> simp [h]

theorem checkTerminal_eq_ok_iff {terminals : Alphabet} {position : Nat} {sym : Symbol} :
    (checkTerminal terminals position sym : Except (GrammarError S) Unit) = .ok () ↔
      sym.index < terminals.size := by
  unfold checkTerminal Alphabet.contains
  by_cases h : sym.index < terminals.size <;> simp [h]

theorem checkRhs_eq_ok_iff {nonterminals terminals : Alphabet} {position : Nat} {parent : Symbol}
    {rhs : Rhs} :
    (checkRhs nonterminals terminals position parent rhs : Except (GrammarError S) Unit) = .ok () ↔
      parent.index < nonterminals.size ∧ RhsInRange nonterminals.size terminals.size rhs := by
  cases rhs with
  | lexical t =>
    simp only [checkRhs, seq_eq_ok_iff, checkTerminal_eq_ok_iff, checkNonterminal_eq_ok_iff,
      RhsInRange]
    exact and_comm
  | unary y => simp only [checkRhs, seq_eq_ok_iff, checkNonterminal_eq_ok_iff, RhsInRange]
  | binary y z => simp only [checkRhs, seq_eq_ok_iff, checkNonterminal_eq_ok_iff, RhsInRange]

/-- Rules pass the checks exactly if each is valid, at whatever position they
start. -/
theorem checkRules_eq_ok_iff [Score S] {nonterminals terminals : Alphabet} {rules : List (Rule S)} :
    ∀ {position : Nat}, checkRules nonterminals terminals position rules = .ok () ↔
      ∀ r ∈ rules, ValidRule nonterminals.size terminals.size r := by
  induction rules with
  | nil => intro position; simp [checkRules]
  | cons rule rules ih =>
    intro position
    simp only [checkRules, checkRule, seq_eq_ok_iff, checkScore_eq_ok_iff, checkRhs_eq_ok_iff, ih,
      List.forall_mem_cons, ValidRule]

/-! ## Numbering -/

theorem getElem?_numbered (rules : Array (Rule S)) (i : Nat) :
    (numbered rules)[i]? = rules[i]?.map fun r => { r with id := RuleId.ofNat i } := by
  unfold numbered
  rw [Array.getElem?_mapIdx]

theorem mem_numbered {rules : Array (Rule S)} {r : Rule S} (h : r ∈ numbered rules) :
    ∃ r' ∈ rules, r.parent = r'.parent ∧ r.rhs = r'.rhs ∧ r.score = r'.score := by
  obtain ⟨i, hi⟩ := Array.mem_iff_getElem?.mp h
  rw [getElem?_numbered] at hi
  obtain ⟨r', hr', rfl⟩ := Option.map_eq_some_iff.mp hi
  exact ⟨r', Array.mem_of_getElem? hr', rfl, rfl, rfl⟩

/-! ## What building comes to -/

/-- The order that a grammar of these rules over `count` nonterminals gets for its
unary rules, or the symbol for which it is refused. -/
def unaryOrderOf (rules : Array (Rule S)) (count : Nat) : Except Symbol (Array Symbol) :=
  ChartParsing.unaryOrder ((List.range count).map Symbol.ofNat)
    (unaryChildren rules (.ofRules count Rule.unaryParentKey rules))

/-- The indexed grammar of numbered rules, with an order of its unary rules. -/
def assemble (nonterminals terminals : Alphabet) (root : Symbol) (rules : Array (Rule S))
    (order : LoopOrder) (unaryOrder : Array Symbol) : Grammar S where
  nonterminals := nonterminals
  terminals := terminals
  root := root
  rules := rules
  lexicalByTerminal := .ofRules terminals.size Rule.lexicalKey rules
  unaryByChild := .ofRules nonterminals.size Rule.unaryChildKey rules
  unaryByParent := .ofRules nonterminals.size Rule.unaryParentKey rules
  binary := .ofRules rules nonterminals.size order
  unaryOrder := unaryOrder
  leftChildren :=
    .ofRules nonterminals.size (fun r => if r.isBinary then some r.leftChild else none) rules
  rightChildren := .ofRules nonterminals.size Rule.rightChild? rules

@[simp]
theorem loopOrder_assemble {nonterminals terminals : Alphabet} {root : Symbol}
    {rules : Array (Rule S)} {order : LoopOrder} {unaryOrder : Array Symbol} :
    (assemble nonterminals terminals root rules order unaryOrder).loopOrder = order :=
  BinaryIndex.loopOrder_ofRules rules nonterminals.size order

/-- A grammar is built from a root in range and valid rules whose unary rules have
an order, and from nothing else. -/
theorem ofRules_eq_ok_iff [Score S] {nonterminals terminals : Alphabet} {root : Symbol}
    {rules : Array (Rule S)} {order : LoopOrder} {g : Grammar S} :
    ofRules nonterminals terminals root rules order = .ok g ↔
      nonterminals.contains root = true ∧
      (∀ r ∈ rules, ValidRule nonterminals.size terminals.size r) ∧
      ∃ unaryOrder, unaryOrderOf (numbered rules) nonterminals.size = .ok unaryOrder ∧
        g = assemble nonterminals terminals root (numbered rules) order unaryOrder := by
  have hchecks : (∀ r ∈ rules, ValidRule nonterminals.size terminals.size r) ↔
      checkRules nonterminals terminals 0 rules.toList = .ok () := by
    rw [checkRules_eq_ok_iff]
    simp only [Array.mem_toList_iff]
  rw [hchecks]
  unfold ofRules
  cases hroot : nonterminals.contains root with
  | false => simp [bind, Except.bind, throw, throwThe, MonadExceptOf.throw]
  | true =>
    cases hcheck : checkRules nonterminals terminals 0 rules.toList with
    | error e => simp [bind, Except.bind]
    | ok _ =>
      have hsearch : ChartParsing.unaryOrder nonterminals.symbols (unaryChildren (numbered rules)
          (.ofRules nonterminals.size Rule.unaryParentKey (numbered rules))) =
            unaryOrderOf (numbered rules) nonterminals.size := rfl
      simp only [hsearch, bind, Except.bind, pure, Except.pure]
      cases hfound : unaryOrderOf (numbered rules) nonterminals.size with
      | error sym => simp [throw, throwThe, MonadExceptOf.throw]
      | ok unaryOrder =>
        simp only [Bool.not_true, Bool.false_eq_true, if_false, true_and, Except.ok.injEq,
          exists_eq_left']
        exact eq_comm

/-- **An accepted grammar is indexed.** -/
theorem Accepted.indexed [Score S] {g : Grammar S} (h : g.Accepted) : g.Indexed := by
  obtain ⟨nonterminals, terminals, root, rules, order, hsize, hok⟩ := h
  obtain ⟨hroot, hvalid, unaryOrder, horder, rfl⟩ := ofRules_eq_ok_iff.mp hok
  have hrange : ∀ r ∈ numbered rules, r.parent.index < nonterminals.size ∧
      RhsInRange nonterminals.size terminals.size r.rhs := by
    intro r hr
    obtain ⟨r', hr', hp, hrhs, -⟩ := mem_numbered hr
    rw [hp, hrhs]
    exact (hvalid r' hr').2
  -- the grammar is known in full now, and its fields are what was checked and built
  exact {
    root_lt := of_decide_eq_true hroot
    number := by
      intro i r hi
      rw [assemble, getElem?_numbered] at hi
      obtain ⟨r', hr', rfl⟩ := Option.map_eq_some_iff.mp hi
      have hlt := (Array.getElem?_eq_some_iff.mp hr').1
      exact RuleId.index_ofNat_of_lt (by omega)
    parent_lt := fun r hr => (hrange r hr).1
    lexical_lt := by
      intro r hr t ht
      have := (hrange r hr).2
      rw [ht] at this
      exact this
    unary_lt := by
      intro r hr y hy
      have := (hrange r hr).2
      rw [hy] at this
      exact this
    binary_lt := by
      intro r hr y z hyz
      have := (hrange r hr).2
      rw [hyz] at this
      exact this
    lexicalByTerminal_eq := rfl
    unaryByChild_eq := rfl
    unaryByParent_eq := rfl
    binary_eq := by rw [loopOrder_assemble]; rfl
    leftChildren_eq := rfl
    rightChildren_eq := rfl
    unaryOrder_eq := horder }

/-! ## A small grammar

Two nonterminals and one terminal, with a rule of each kind: `S ::= S S`, `S ::= A`
and `A ::= 'a'`. It is accepted under any scores in which certainty is an ordinary
score.
-/

namespace Small

/-- `S` and `A`. -/
def nonterminals : Alphabet := ⟨#["S", "A"], .ofList [("S", .ofNat 0), ("A", .ofNat 1)]⟩

/-- `a`. -/
def terminals : Alphabet := ⟨#["a"], .ofList [("a", .ofNat 0)]⟩

/-- `S ::= S S`, `S ::= A` and `A ::= 'a'`, all certain. -/
def rules (S : Type) [Score S] : Array (Rule S) :=
  #[.ofRhs (.ofNat 0) (.binary (.ofNat 0) (.ofNat 0)) Score.certain,
    .ofRhs (.ofNat 0) (.unary (.ofNat 1)) Score.certain,
    .ofRhs (.ofNat 1) (.lexical (.ofNat 0)) Score.certain]

/-- The sentence `a a`. -/
def tokens : List Symbol := [.ofNat 0, .ofNat 0]

/-- The unary rule puts `A` before `S`. -/
theorem unaryOrder_eq (S : Type) [Score S] :
    ChartParsing.unaryOrder nonterminals.symbols (unaryChildren (numbered (rules S))
      (.ofRules nonterminals.size Rule.unaryParentKey (numbered (rules S)))) =
        .ok #[.ofNat 1, .ofNat 0] := by
  have hchildren : unaryChildren (numbered (rules S))
      (.ofRules nonterminals.size Rule.unaryParentKey (numbered (rules S))) =
        fun sym => match sym.index with | 0 => [.ofNat 1] | _ => [] := by
    funext sym
    unfold unaryChildren
    match sym.index with
    | 0 | 1 | _ + 2 => rfl
  rw [hchildren, show nonterminals.symbols = [.ofNat 0, .ofNat 1] from rfl]
  cbv

theorem accepted (S : Type) [Score S] (hdefined : Score.isUndefined (Score.certain : S) = false)
    (hbounded : Score.isUnbounded (Score.certain : S) = false) (order : LoopOrder) :
    ∃ g, ofRules nonterminals terminals (.ofNat 0) (rules S) order = .ok g ∧ g.Accepted ∧
      g.terminalCount = 1 ∧ g.loopOrder = order ∧ g.root = .ofNat 0 ∧
        g.rules = numbered (rules S) := by
  have hchecks : checkRules nonterminals terminals 0 (rules S).toList = .ok () := by
    simp [rules, checkRules, checkRule, checkScore, Rule.ofRhs, hdefined, hbounded]
    rfl
  have hok : ∃ g, ofRules nonterminals terminals (.ofNat 0) (rules S) order = .ok g ∧
      g.terminalCount = 1 ∧ g.loopOrder = order ∧ g.root = .ofNat 0 ∧
        g.rules = numbered (rules S) := by
    have hroot : nonterminals.contains (.ofNat 0) = true := rfl
    have horder := unaryOrder_eq S
    unfold ofRules
    rw [hchecks]
    simp [hroot, horder, bind, Except.bind, pure, Except.pure, terminalCount, loopOrder]
    rfl
  obtain ⟨g, hg, hfields⟩ := hok
  exact ⟨g, hg, ⟨_, _, _, _, _, by simp [rules, UInt32.size], hg⟩, hfields⟩

/-- There is a rule of each kind. -/
theorem exists_rules {S : Type} [Score S] {g : Grammar S} (h : g.rules = numbered (rules S)) :
    (∃ r ∈ g.rules, r.parent = .ofNat 0 ∧ r.rhs = .binary (.ofNat 0) (.ofNat 0)) ∧
    (∃ r ∈ g.rules, r.parent = .ofNat 0 ∧ r.rhs = .unary (.ofNat 1)) ∧
    ∃ r ∈ g.rules, r.parent = .ofNat 1 ∧ r.rhs = .lexical (.ofNat 0) := by
  rw [h]
  exact ⟨⟨_, Array.mem_of_getElem? (i := 0) rfl, rfl, rfl⟩,
    ⟨_, Array.mem_of_getElem? (i := 1) rfl, rfl, rfl⟩,
    ⟨_, Array.mem_of_getElem? (i := 2) rfl, rfl, rfl⟩⟩

end Small

end Grammar

end ChartParsing
