import Mathlib.Algebra.BigOperators.Ring.List
import Mathlib.Algebra.Ring.Nat
import Mathlib.Logic.Relation
import ChartParsing.Proofs.Grammar.Rules

/-!
# Cycles of unary rules

There is an order of the unary rules if and only if no symbol derives itself by
unary rules alone. The stack of the search that looks for the order is a path, so
every symbol on it leads to the one on top. A child of that one that is on the stack
itself therefore closes a cycle, and the search fails there only.

The other way, a child comes before its parents in an order that was found, so
along a chain of children the positions fall, and no chain comes back.

The turns of the search are counted as well. Done turn by turn, and given up when too many
were taken, it comes to what its loops come to, if there is a turn for every symbol and
one for every child.
-/

namespace ChartParsing

namespace UnaryOrder

variable {children : Symbol → List Symbol} {count : Nat}

/-- A symbol leads to another one through one or more children. -/
abbrev Leads (children : Symbol → List Symbol) : Symbol → Symbol → Prop :=
  Relation.TransGen fun parent child => child ∈ children parent

/-! ## Along an order -/

/-- What a listed symbol leads to is listed before it. -/
theorem ChildrenFirst.idxOf_lt_of_leads {order : List Symbol} (h : ChildrenFirst children order)
    {sym below : Symbol} (hs : sym ∈ order) (hleads : Leads children sym below) :
    below ∈ order ∧ order.idxOf below < order.idxOf sym := by
  induction hleads with
  | single hchild => exact ⟨h.closed hs hchild, h.idxOf_lt hs hchild⟩
  | tail _ hchild ih =>
    obtain ⟨hmem, hlt⟩ := ih
    have hnext := h.idxOf_lt hmem hchild
    exact ⟨h.closed hmem hchild, by omega⟩

/-! ## Along the search -/

/-- Every symbol on a path leads to the one above it. -/
theorem Path.leads {order : Array Symbol} {above : Option Symbol} {stack : List Frame}
    (h : Path children order above stack) {sym child : Symbol}
    (hsym : sym ∈ stack.map Frame.parent) (hchild : child ∈ above) : Leads children sym child := by
  induction h generalizing child with
  | nil => cases hsym
  | cons hlink _ _ ih =>
    rcases List.mem_cons.mp hsym with rfl | hsym
    · exact .single (hlink child hchild)
    · exact .tail (ih hsym rfl) (hlink child hchild)

section

variable {reached : Symbol → Prop} {search : Search} {stop : Symbol}

/-- **A turn fails on a cycle only.** The symbol it fails at leads back to itself. -/
theorem Searching.turn_error (h : Searching children reached count none search) {frame : Frame}
    {below : List Frame} (hstack : search.stack = frame :: below)
    (hturn : search.turn children frame below = .error stop) : Leads children stop stop := by
  rcases Search.turn_cases children search frame below with ⟨child, hchild, hcase⟩ | ⟨-, hlast⟩
  · rcases hcase with ⟨-, hnext⟩ | ⟨hmark, hnext⟩ | ⟨-, hnext⟩
    all_goals
      rw [hnext] at hturn
      cases hturn
    -- the child is on the stack, and above it
    have hon := (h.onStack_iff stop).mp hmark
    rw [hstack] at hon
    exact (h.follow hstack hchild).path.leads hon rfl
  · rw [hlast] at hturn
    cases hturn

variable (hclosed : ∀ sym, reached sym → ∀ child ∈ children sym, reached child)
  (hlt : ∀ sym, reached sym → sym.index < count)

include hclosed hlt

theorem Searching.run_error (h : Searching children reached count none search)
    (hrun : UnaryOrder.run children search = .error stop) : Leads children stop stop := by
  induction search using run.induct children with
  | case1 search hstack =>
    rw [run_of_nil hstack] at hrun
    cases hrun
  | case2 search frame below hstack sym hturn =>
    rw [run_of_cons hstack, hturn] at hrun
    cases hrun
    exact h.turn_error hstack hturn
  | case3 search frame below hstack next hturn ih =>
    rw [run_of_cons hstack, hturn] at hrun
    exact ih (h.turn hclosed hlt hstack hturn).1 hrun

theorem Searching.runFrom_error (h : Searching children reached count none search)
    (hstack : search.stack = []) {sym : Symbol} (hsym : children sym ≠ [] → reached sym)
    (hrun : UnaryOrder.runFrom children search sym = .error stop) : Leads children stop stop := by
  rcases runFrom_cases children search sym with ⟨-, hfrom⟩ | ⟨hmark, hne, hfrom⟩
  · rw [hfrom] at hrun
    cases hrun
  · rw [hfrom] at hrun
    exact (h.enter_first hstack hmark (hsym hne)).run_error hclosed hlt hrun

end

/-- **A search fails on a cycle only.** -/
theorem leads_of_unaryOrder_eq_error {symbols : List Symbol} {reached : Symbol → Prop}
    {stop : Symbol} (hclosed : ∀ sym, reached sym → ∀ child ∈ children sym, reached child)
    (hlt : ∀ sym, reached sym → sym.index < symbols.length)
    (hsymbols : ∀ sym ∈ symbols, children sym ≠ [] → reached sym)
    (h : unaryOrder symbols children = .error stop) : Leads children stop stop := by
  have hfold : symbols.foldlM (runFrom children) (.start symbols.length) = .error stop := by
    cases hfold : symbols.foldlM (runFrom children) (.start symbols.length) with
    | ok search =>
      rw [unaryOrder, hfold] at h
      cases h
    | error e =>
      rw [unaryOrder, hfold] at h
      cases h
      rfl
  obtain ⟨sym, hsym, search, ⟨hsearch, hstack⟩, hstep⟩ := of_foldlM_eq_error
    (fun search => Searching children reached symbols.length none search ∧ search.stack = [])
    (fun sym hsym search search' hinv hstep =>
      have hnext := hinv.1.runFrom hclosed hlt hinv.2 (hsymbols sym hsym) hstep
      ⟨hnext.1, hnext.2.1⟩)
    hfold ⟨.start children reached _, rfl⟩
  exact hsearch.runFrom_error hclosed hlt hstack (hsymbols sym hsym) hstep

/-! ## Turns of the search -/

/-- A search of so many turns at most. With an empty stack it goes on from the next symbol
that there is to start from, and with none left it is done. Without enough turns there
is no answer. -/
def searchWithin? (children : Symbol → List Symbol) (turns : Nat) (todo : List Symbol)
    (search : Search) : Option (Except Symbol (Array Symbol)) :=
  match search.stack with
  | [] =>
    match todo with
    | [] => some (.ok search.order)
    | sym :: todo =>
      if search.marks[sym.index]? ≠ some .unvisited ∨ (children sym).isEmpty then
        searchWithin? children turns todo search
      else searchWithin? children turns todo (search.enter sym)
  | frame :: below =>
    match turns with
    | 0 => none
    | turns + 1 =>
      match search.turn children frame below with
      | .error sym => some (.error sym)
      | .ok search' => searchWithin? children turns todo search'
termination_by turns + todo.length

/-- **With as many turns as are left the search is done**, and ends as its loops do. -/
theorem searchWithin?_eq (turns : Nat) (todo : List Symbol) (search : Search)
    (h : search.turnsLeft children ≤ turns) :
    searchWithin? children turns todo search = some (do
      let search ← todo.foldlM (runFrom children) (← run children search)
      return search.order) := by
  induction turns, todo, search using searchWithin?.induct children with
  | case1 turns search hstack =>
    unfold searchWithin?
    simp only [hstack, run_of_nil hstack]
    rfl
  | case2 turns search hstack sym todo hskip ih =>
    have hfrom : runFrom children search sym = .ok search := if_pos hskip
    unfold searchWithin?
    simp only [hstack, if_pos hskip]
    simp only [ih h, run_of_nil hstack, List.foldlM_cons, bind, Except.bind, hfrom]
  | case3 turns search hstack sym todo hskip ih =>
    have hfrom : runFrom children search sym = run children (search.enter sym) := if_neg hskip
    have hmark := Decidable.not_not.mp (not_or.mp hskip).1
    have hleft : (search.enter sym).turnsLeft children = search.turnsLeft children :=
      Search.turnsLeft_enter hmark
    unfold searchWithin?
    simp only [hstack, if_neg hskip]
    simp only [ih (by omega), run_of_nil hstack, List.foldlM_cons, bind, Except.bind, hfrom]
    cases run children (search.enter sym) <;> rfl
  | case4 todo search frame below hstack =>
    simp [Search.turnsLeft, Search.stackTurns, hstack] at h
  | case5 todo search frame below hstack turns stop hturn =>
    unfold searchWithin?
    simp only [hstack, hturn, run_of_cons hstack]
    rfl
  | case6 todo search frame below hstack turns next hturn ih =>
    have hless := Search.turnsLeft_turn hstack hturn
    unfold searchWithin?
    simp only [hstack, hturn, run_of_cons hstack, ih (by omega)]
    rfl

theorem unvisitedTurns_replicate (number count : Nat) :
    Search.unvisitedTurns children number (List.replicate count .unvisited) =
      ((List.range count).map fun n => (children (.ofNat (number + n))).length + 1).sum := by
  induction count generalizing number with
  | zero => rfl
  | succ count ih =>
    have hshift : ((fun n => (children (.ofNat (number + n))).length + 1) ∘ Nat.succ) =
        fun n => (children (.ofNat (number + 1 + n))).length + 1 := by
      funext n
      rw [Function.comp_apply, Nat.succ_eq_add_one, Nat.add_assoc, Nat.add_comm 1]
    rw [List.replicate_succ, Search.unvisitedTurns, if_pos rfl, ih, List.range_succ_eq_map,
      List.map_cons, List.sum_cons, List.map_map, hshift]
    rfl

/-- Before the search begins there is a turn for each symbol and one for each child. -/
theorem turnsLeft_start (count : Nat) :
    (Search.start count).turnsLeft children =
      ((List.range count).map fun n => (children (.ofNat n)).length + 1).sum := by
  simp only [Search.turnsLeft, Search.start, Array.toList_replicate, unvisitedTurns_replicate,
    Search.stackTurns, Nat.zero_add, Nat.add_zero]

end UnaryOrder

open UnaryOrder

/-! ## Unary rules -/

namespace Grammar

variable {S : Type}

/-- Some unary rule replaces the parent by the child. -/
def UnaryEdge (rules : Array (Rule S)) (parent child : Symbol) : Prop :=
  ∃ r ∈ rules, r.parent = parent ∧ r.rhs = .unary child

/-- The symbol is the parent or the child of some unary rule. -/
def OccursInUnary (rules : Array (Rule S)) (sym : Symbol) : Prop :=
  ∃ r ∈ rules, ∃ y, r.rhs = .unary y ∧ (sym = r.parent ∨ sym = y)

/-- One or more unary rules replace the symbol by itself. -/
def OnUnaryCycle (rules : Array (Rule S)) (sym : Symbol) : Prop :=
  Relation.TransGen (UnaryEdge rules) sym sym

/-- The unary rules are found under their numbers, and their symbols are among
`count` nonterminals. -/
structure UnaryListed (rules : Array (Rule S)) (count : Nat) : Prop where
  number : ∀ r ∈ rules, ∀ y, r.rhs = .unary y → rules[r.id.index]? = some r
  parent_lt : ∀ r ∈ rules, ∀ y, r.rhs = .unary y → r.parent.index < count
  child_lt : ∀ r ∈ rules, ∀ y, r.rhs = .unary y → y.index < count

variable {rules : Array (Rule S)} {count : Nat}

/-- Rules that were numbered by position are found under their numbers, if there
are enough numbers. -/
theorem numbered_number (hsize : rules.size ≤ UInt32.size) :
    ∀ r ∈ numbered rules, (numbered rules)[r.id.index]? = some r := by
  intro r hr
  obtain ⟨i, hi⟩ := Array.mem_iff_getElem?.mp hr
  have hnumbered := hi
  rw [getElem?_numbered] at hnumbered
  obtain ⟨old, hold, rfl⟩ := Option.map_eq_some_iff.mp hnumbered
  have hlt := (Array.getElem?_eq_some_iff.mp hold).1
  rw [RuleId.index_ofNat_of_lt (by omega)]
  exact hi

namespace UnaryListed

theorem mem_unaryChildren (h : UnaryListed rules count) {x y : Symbol} :
    y ∈ unaryChildren rules (.ofRules count Rule.unaryParentKey rules) x ↔ UnaryEdge rules x y :=
  mem_unaryChildren_ofRules h.number h.parent_lt

theorem leads_iff (h : UnaryListed rules count) {x y : Symbol} :
    Leads (unaryChildren rules (.ofRules count Rule.unaryParentKey rules)) x y ↔
      Relation.TransGen (UnaryEdge rules) x y := by
  have hedge : (fun parent child => child ∈
      unaryChildren rules (.ofRules count Rule.unaryParentKey rules) parent) = UnaryEdge rules :=
    funext fun _ => funext fun _ => propext h.mem_unaryChildren
  rw [Leads, hedge]

/-- A symbol with children is among those that the search starts from. -/
theorem mem_symbols (h : UnaryListed rules count) {sym child : Symbol}
    (hedge : UnaryEdge rules sym child) : sym ∈ (List.range count).map Symbol.ofNat := by
  obtain ⟨r, hr, rfl, hy⟩ := hedge
  exact List.mem_map.mpr
    ⟨_, List.mem_range.mpr (h.parent_lt r hr child hy), Symbol.ofNat_index _⟩

/-- A symbol that occurs in a unary rule is a nonterminal. -/
theorem index_lt_of_occurs (h : UnaryListed rules count) (sym : Symbol)
    (hsym : OccursInUnary rules sym) :
    sym.index < ((List.range count).map Symbol.ofNat).length := by
  obtain ⟨r, hr, y, hy, rfl | rfl⟩ := hsym
  · simpa using h.parent_lt r hr y hy
  · simpa using h.child_lt r hr sym hy

/-- A child occurs in a unary rule, -/
theorem occurs_of_child (h : UnaryListed rules count) (sym : Symbol) (_ : OccursInUnary rules sym) :
    ∀ child ∈ unaryChildren rules (.ofRules count Rule.unaryParentKey rules) sym,
      OccursInUnary rules child := by
  intro child hchild
  obtain ⟨r, hr, -, hy⟩ := h.mem_unaryChildren.mp hchild
  exact ⟨r, hr, child, hy, Or.inr rfl⟩

/-- and so does a symbol with children. -/
theorem occurs_of_children (h : UnaryListed rules count) (sym : Symbol)
    (hne : unaryChildren rules (.ofRules count Rule.unaryParentKey rules) sym ≠ []) :
    OccursInUnary rules sym := by
  obtain ⟨child, hchild⟩ := List.exists_mem_of_ne_nil _ hne
  obtain ⟨r, hr, hp, hy⟩ := h.mem_unaryChildren.mp hchild
  exact ⟨r, hr, child, hy, Or.inl hp.symm⟩

/-- What is found: a list of the symbols of the unary rules, children first. -/
theorem unaryOrderOf_ok (h : UnaryListed rules count) {order : Array Symbol}
    (hok : unaryOrderOf rules count = .ok order) :
    ChildrenFirst (unaryChildren rules (.ofRules count Rule.unaryParentKey rules)) order.toList ∧
      ∀ sym, sym ∈ order ↔ OccursInUnary rules sym := by
  obtain ⟨hfirst, hparents, hreached⟩ := unaryOrder_ok h.occurs_of_child h.index_lt_of_occurs
    (fun sym _ => h.occurs_of_children sym) hok
  refine ⟨hfirst, fun sym => ⟨hreached sym, ?_⟩⟩
  rintro ⟨r, hr, y, hy, hsym⟩
  have hchild := h.mem_unaryChildren.mpr ⟨r, hr, rfl, hy⟩
  have hparent : r.parent ∈ order :=
    hparents _ (h.mem_symbols ⟨r, hr, rfl, hy⟩) (List.ne_nil_of_mem hchild)
  rcases hsym with rfl | rfl
  · exact hparent
  · exact Array.mem_toList_iff.mp (hfirst.closed (Array.mem_toList_iff.mpr hparent) hchild)

/-- No symbol of a list with children first is on a cycle, and any on a cycle
would be listed. -/
theorem not_onUnaryCycle (h : UnaryListed rules count) {order : Array Symbol}
    (hok : unaryOrderOf rules count = .ok order) (sym : Symbol) : ¬ OnUnaryCycle rules sym := by
  intro hcycle
  obtain ⟨hfirst, hmem⟩ := h.unaryOrderOf_ok hok
  -- a cycle leaves its symbol by some rule
  obtain ⟨child, hedge, -⟩ := Relation.TransGen.head'_iff.mp hcycle
  obtain ⟨r, hr, hp, hy⟩ := hedge
  have hsym : sym ∈ order := (hmem sym).mpr ⟨r, hr, child, hy, Or.inl hp.symm⟩
  have hbefore := hfirst.idxOf_lt_of_leads (Array.mem_toList_iff.mpr hsym) (h.leads_iff.mpr hcycle)
  exact Nat.lt_irrefl _ hbefore.2

/-- The symbol at which the search fails is on a cycle. -/
theorem unaryOrderOf_error (h : UnaryListed rules count) {stop : Symbol}
    (herror : unaryOrderOf rules count = .error stop) : OnUnaryCycle rules stop :=
  h.leads_iff.mp (leads_of_unaryOrder_eq_error h.occurs_of_child h.index_lt_of_occurs
    (fun sym _ => h.occurs_of_children sym) herror)

end UnaryListed

/-- The search for an order of the unary rules, of so many turns at most. -/
def unaryOrderWithin? (rules : Array (Rule S)) (count turns : Nat) :
    Option (Except Symbol (Array Symbol)) :=
  searchWithin? (unaryChildren rules (.ofRules count Rule.unaryParentKey rules)) turns
    ((List.range count).map Symbol.ofNat) (.start count)

/-- The search ends after a turn for each symbol and each of its children at most. -/
theorem unaryOrderWithin?_eq {turns : Nat}
    (h : ((List.range count).map fun n =>
      (unaryChildren rules (.ofRules count Rule.unaryParentKey rules) (.ofNat n)).length + 1).sum ≤
        turns) :
    unaryOrderWithin? rules count turns = some (unaryOrderOf rules count) := by
  rw [unaryOrderWithin?, searchWithin?_eq turns _ _ (by rwa [turnsLeft_start]), run_of_nil rfl,
    unaryOrderOf, ChartParsing.unaryOrder, List.length_map, List.length_range]
  rfl

/-- **The order of the unary rules is a topological sort, and its search a test for
cycles.** Over any unary rules whose symbols are nonterminals: an order is found
exactly if no symbol is on a cycle. It lists the symbols of the unary rules, each
once, and every child before its parent. A symbol that the search fails at is on a
cycle. The search ends: with one turn for each nonterminal and one for each unary rule
of it, it has come to its result. -/
theorem unaryOrderOf_sorts (rules : Array (Rule S)) (count : Nat) (h : UnaryListed rules count) :
    ((∃ order, unaryOrderOf rules count = .ok order) ↔ ∀ sym, ¬ OnUnaryCycle rules sym) ∧
      (∀ order, unaryOrderOf rules count = .ok order →
        order.toList.Nodup ∧
        (∀ sym, sym ∈ order ↔ OccursInUnary rules sym) ∧
        ∀ r ∈ rules, ∀ y, r.rhs = .unary y →
          order.toList.idxOf y < order.toList.idxOf r.parent) ∧
      (∀ sym, unaryOrderOf rules count = .error sym → OnUnaryCycle rules sym) ∧
      ∀ turns, ((List.range count).map fun n => (unaryChildren rules
          (.ofRules count Rule.unaryParentKey rules) (.ofNat n)).length + 1).sum ≤ turns →
        unaryOrderWithin? rules count turns = some (unaryOrderOf rules count) := by
  refine ⟨⟨?_, ?_⟩, ?_, fun sym => h.unaryOrderOf_error, fun turns => unaryOrderWithin?_eq⟩
  · rintro ⟨order, hok⟩ sym
    exact h.not_onUnaryCycle hok sym
  · intro hacyclic
    cases hfound : unaryOrderOf rules count with
    | ok order => exact ⟨order, rfl⟩
    | error sym => exact absurd (h.unaryOrderOf_error hfound) (hacyclic sym)
  · intro order hok
    obtain ⟨hfirst, hmem⟩ := h.unaryOrderOf_ok hok
    refine ⟨hfirst.nodup, hmem, fun r hr y hy => ?_⟩
    have hparent : r.parent ∈ order := (hmem r.parent).mpr ⟨r, hr, y, hy, Or.inl rfl⟩
    exact hfirst.idxOf_lt (Array.mem_toList_iff.mpr hparent)
      (h.mem_unaryChildren.mpr ⟨r, hr, rfl, hy⟩)

/-- `S ::= A`, `S ::= B`, `A ::= C` and twice `B ::= C`: two ways down from `S`. -/
def diamond : Array (Rule Unit) :=
  numbered #[.ofRhs (.ofNat 0) (.unary (.ofNat 1)) (), .ofRhs (.ofNat 0) (.unary (.ofNat 2)) (),
    .ofRhs (.ofNat 1) (.unary (.ofNat 3)) (), .ofRhs (.ofNat 2) (.unary (.ofNat 3)) (),
    .ofRhs (.ofNat 2) (.unary (.ofNat 3)) ()]

theorem unaryListed_diamond : UnaryListed diamond 4 where
  number := fun r hr _ _ => numbered_number (by decide) r hr
  parent_lt := by
    have hlt : ∀ r ∈ diamond, r.parent.index < 4 := by decide
    exact fun r hr _ _ => hlt r hr
  child_lt := by
    have hlt : ∀ r ∈ diamond, r.leftChild.index < 4 := by decide
    intro r hr y hy
    have := hlt r hr
    rwa [Rule.leftChild, hy] at this

theorem unaryOrderOf_sorts_diamond :
    UnaryListed diamond 4 ∧
      unaryOrderOf diamond 4 = .ok #[.ofNat 3, .ofNat 1, .ofNat 2, .ofNat 0] ∧
      unaryOrderWithin? diamond 4 9 = some (unaryOrderOf diamond 4) ∧
      ∀ sym, ¬ OnUnaryCycle diamond sym := by
  have hfound : unaryOrderOf diamond 4 = .ok #[.ofNat 3, .ofNat 1, .ofNat 2, .ofNat 0] := by cbv
  obtain ⟨hacyclic, -, -, hturns⟩ := unaryOrderOf_sorts diamond 4 unaryListed_diamond
  -- four symbols and five rules
  exact ⟨unaryListed_diamond, hfound, hturns 9 (by decide), hacyclic.mp ⟨_, hfound⟩⟩

end Grammar

end ChartParsing
