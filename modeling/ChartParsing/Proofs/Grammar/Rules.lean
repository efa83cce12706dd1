import ChartParsing.Proofs.Grammar.Accepted
import ChartParsing.Proofs.Rows

/-!
# The rules found under a key

Over an indexed grammar every lookup of rules is a filter of the grammar's own
list of rules: by terminal, by unary child, by both children of a binary rule or
by one of them. The unary rules have a rank: the position of a symbol in the
order that lists children first. A rule's child ranks below its parent.
-/

namespace ChartParsing

variable {S : Type}

/-! ## Keys -/

namespace Rule

variable {r : Rule S} {k : Nat}

theorem lexicalKey_eq_some : r.lexicalKey = some k ↔ ∃ t, r.rhs = .lexical t ∧ t.index = k := by
  unfold lexicalKey
  cases r.rhs <;> simp

theorem unaryChildKey_eq_some :
    r.unaryChildKey = some k ↔ ∃ y, r.rhs = .unary y ∧ y.index = k := by
  unfold unaryChildKey
  cases r.rhs <;> simp

theorem unaryParentKey_eq_some :
    r.unaryParentKey = some k ↔ (∃ y, r.rhs = .unary y) ∧ r.parent.index = k := by
  unfold unaryParentKey
  cases r.rhs <;> simp

theorem leftChildKey_eq_some :
    r.leftChildKey = some k ↔ ∃ y z, r.rhs = .binary y z ∧ y.index = k := by
  unfold leftChildKey
  cases r.rhs <;> simp

theorem rightChildKey_eq_some :
    r.rightChildKey = some k ↔ ∃ y z, r.rhs = .binary y z ∧ z.index = k := by
  unfold rightChildKey
  cases r.rhs <;> simp [and_assoc]

theorem pairKey_eq_some {count : Nat} :
    r.pairKey count = some k ↔ ∃ y z, r.rhs = .binary y z ∧ y.index * count + z.index = k := by
  unfold pairKey
  cases r.rhs <;> simp [and_assoc]

end Rule

namespace Grammar

/-- The children of a parent are those that some unary rule gives it. For that
the unary rules have to be found under their numbers. -/
theorem mem_unaryChildren_ofRules {rules : Array (Rule S)} {count : Nat}
    (hnumber : ∀ r ∈ rules, ∀ y, r.rhs = .unary y → rules[r.id.index]? = some r)
    (hparent : ∀ r ∈ rules, ∀ y, r.rhs = .unary y → r.parent.index < count) {x y : Symbol} :
    y ∈ unaryChildren rules (.ofRules count Rule.unaryParentKey rules) x ↔
      ∃ r ∈ rules, r.parent = x ∧ r.rhs = .unary y := by
  unfold unaryChildren
  simp only [List.mem_map, List.mem_filterMap]
  refine ⟨?_, ?_⟩
  · rintro ⟨r, ⟨id, hid, hr⟩, rfl⟩
    rcases Nat.lt_or_ge x.index count with hx | hx
    case inr =>
      rw [Buckets.get_ofRules_of_le hx] at hid
      cases hid
    rw [Buckets.toList_get_ofRules hx] at hid
    -- the bucket has the number of a rule, and under that number the rule itself is found
    obtain ⟨r', hr', rfl⟩ := List.mem_map.mp hid
    obtain ⟨hmem, hkey⟩ := List.mem_filter.mp hr'
    obtain ⟨⟨child, hchild⟩, hp⟩ := Rule.unaryParentKey_eq_some.mp (of_decide_eq_true hkey)
    have hmem' : r' ∈ rules := Array.mem_toList_iff.mp hmem
    rw [hnumber r' hmem' child hchild] at hr
    cases hr
    refine ⟨r, hmem', Symbol.index_inj.mp hp, ?_⟩
    rw [hchild, Rule.leftChild, hchild]
  · rintro ⟨r, hr, rfl, hy⟩
    refine ⟨r, ⟨r.id, ?_, hnumber r hr y hy⟩, by rw [Rule.leftChild, hy]⟩
    rw [Buckets.toList_get_ofRules (hparent r hr y hy)]
    have hkey := Rule.unaryParentKey_eq_some.mpr ⟨⟨y, hy⟩, rfl⟩
    exact List.mem_map.mpr
      ⟨r, List.mem_filter.mpr ⟨Array.mem_toList_iff.mpr hr, decide_eq_true hkey⟩, rfl⟩

variable {g : Grammar S}

/-- The position of a symbol in the order that lists children first. -/
def unaryRank (g : Grammar S) (sym : Symbol) : Nat := g.unaryOrder.toList.idxOf sym

namespace Indexed

/-! ## Rules by number -/

theorem rule_eq (h : g.Indexed) {r : Rule S} (hr : r ∈ g.rules) : g.rule r.id = .ok r := by
  obtain ⟨i, hi⟩ := Array.mem_iff_getElem?.mp hr
  unfold rule
  rw [h.number i r hi, hi]

/-- Rules come in the order of their numbers. -/
theorem pairwise_number (h : g.Indexed) :
    g.rules.toList.Pairwise fun r r' => r.id.index < r'.id.index := by
  refine List.pairwise_iff_getElem.mpr ?_
  intro i j hi hj hij
  have hid : ∀ k (hk : k < g.rules.toList.length), g.rules.toList[k].id.index = k := fun k hk =>
    h.number k _ (by rw [← Array.getElem?_toList]; exact List.getElem?_eq_getElem hk)
  rw [hid i hi, hid j hj]
  exact hij

theorem nodup_rules (h : g.Indexed) : g.rules.toList.Nodup := by
  refine h.pairwise_number.imp fun {r r'} hlt heq => ?_
  rw [heq] at hlt
  exact Nat.lt_irrefl _ hlt

/-- A rule is known by its number. -/
theorem eq_of_id_eq (h : g.Indexed) {r r' : Rule S} (hr : r ∈ g.rules) (hr' : r' ∈ g.rules)
    (hid : r.id = r'.id) : r = r' := by
  have hrule := h.rule_eq hr
  rw [hid, h.rule_eq hr'] at hrule
  exact (Except.ok.inj hrule).symm

/-- Looking up the numbers of some rules of the grammar gives those rules. -/
theorem rulesAt_eq (h : g.Indexed) {ids : Array RuleId} {rules : List (Rule S)}
    (hids : ids.toList = rules.map Rule.id) (hrules : ∀ r ∈ rules, r ∈ g.rules) :
    g.rulesAt ids = .ok rules := by
  unfold rulesAt
  rw [hids]
  -- the numbers are given by the rules now, so the induction is on these alone
  clear hids
  induction rules with
  | nil => rfl
  | cons r rules ih =>
    rw [List.map_cons, List.mapM_cons, h.rule_eq (hrules r List.mem_cons_self),
      ih fun r' hr' => hrules r' (List.mem_cons_of_mem _ hr')]
    rfl

/-- The bucket of a key gives the rules with the key. A key that is out of range
is no rule's. -/
theorem rulesAt_get (h : g.Indexed) {count : Nat} {key : Rule S → Option Nat} {k : Nat}
    (hkey : ∀ r ∈ g.rules, ∀ k, key r = some k → k < count) :
    g.rulesAt ((Buckets.ofRules count key g.rules).get k) =
      .ok (g.rules.toList.filter fun r => key r = some k) := by
  refine h.rulesAt_eq ?_ fun r hr => Array.mem_toList_iff.mp (List.mem_filter.mp hr).1
  rcases Nat.lt_or_ge k count with hk | hk
  · exact Buckets.toList_get_ofRules hk
  · rw [Buckets.get_ofRules_of_le hk]
    have hnone : g.rules.toList.filter (fun r => key r = some k) = [] := by
      rw [List.filter_eq_nil_iff]
      intro r hr hkr
      have := hkey r (Array.mem_toList_iff.mp hr) k (of_decide_eq_true hkr)
      omega
    rw [hnone]
    rfl

/-- The rules whose right-hand side is the given one. -/
theorem filter_key_eq {key : Rule S → Option Nat} {k : Nat} {rhs : Rhs}
    (hkey : ∀ r ∈ g.rules, key r = some k ↔ r.rhs = rhs) :
    (g.rules.toList.filter fun r => key r = some k) =
      g.rules.toList.filter fun r => r.rhs = rhs := by
  refine List.filter_congr fun r hr => ?_
  simp only [hkey r (Array.mem_toList_iff.mp hr)]

/-- A right-hand side that is no rule's is found nowhere. -/
theorem filter_rhs_eq_nil {rhs : Rhs} (h : ¬ ∃ r ∈ g.rules, r.rhs = rhs) :
    g.rules.toList.filter (fun r => r.rhs = rhs) = [] := by
  rw [List.filter_eq_nil_iff]
  intro r hr hrhs
  exact h ⟨r, Array.mem_toList_iff.mp hr, of_decide_eq_true hrhs⟩

theorem rulesAt_lexicalRules (h : g.Indexed) (t : Symbol) :
    g.rulesAt (g.lexicalRules t) = .ok (g.rules.toList.filter fun r => r.rhs = .lexical t) := by
  unfold lexicalRules
  rw [h.lexicalByTerminal_eq, h.rulesAt_get, filter_key_eq]
  · intro r _
    rw [Rule.lexicalKey_eq_some]
    refine ⟨?_, ?_⟩
    · intro hx
      rcases hx with ⟨t', ht', hi⟩
      rw [ht', Symbol.index_inj.mp hi]
    · intro hr
      exact ⟨t, hr, rfl⟩
  · intro r hr k hk
    obtain ⟨t', ht', rfl⟩ := Rule.lexicalKey_eq_some.mp hk
    exact h.lexical_lt r hr t' ht'

theorem rulesAt_unaryRulesWithChild (h : g.Indexed) (y : Symbol) :
    g.rulesAt (g.unaryRulesWithChild y) =
      .ok (g.rules.toList.filter fun r => r.rhs = .unary y) := by
  unfold unaryRulesWithChild
  rw [h.unaryByChild_eq, h.rulesAt_get, filter_key_eq]
  · intro r _
    rw [Rule.unaryChildKey_eq_some]
    refine ⟨?_, ?_⟩
    · intro hx
      rcases hx with ⟨y', hy', hi⟩
      rw [hy', Symbol.index_inj.mp hi]
    · intro hr
      exact ⟨y, hr, rfl⟩
  · intro r hr k hk
    obtain ⟨y', hy', rfl⟩ := Rule.unaryChildKey_eq_some.mp hk
    exact h.unary_lt r hr y' hy'

/-- The binary rules with both children, over a grammar indexed by pair. -/
theorem binaryRulesWithChildren_eq (h : g.Indexed) (horder : g.loopOrder = .cartesianProduct)
    (y z : Symbol) :
    ∃ ids, g.binaryRulesWithChildren y z = .ok ids ∧
      g.rulesAt ids = .ok (g.rules.toList.filter fun r => r.rhs = .binary y z) := by
  have hbin := h.binary_eq
  rw [horder] at hbin
  unfold binaryRulesWithChildren
  rw [hbin, BinaryIndex.ofRules]
  by_cases hlt : y.index < g.nonterminalCount ∧ z.index < g.nonterminalCount
  case neg =>
    refine ⟨#[], if_neg hlt, h.rulesAt_eq ?_ fun r hr => Array.mem_toList_iff.mp
      (List.mem_filter.mp hr).1⟩
    rw [filter_rhs_eq_nil fun ⟨r, hr, hrhs⟩ => hlt (h.binary_lt r hr y z hrhs)]
    rfl
  obtain ⟨hy, hz⟩ := hlt
  refine ⟨_, if_pos ⟨hy, hz⟩, ?_⟩
  rw [h.rulesAt_get, filter_key_eq]
  · intro r hr
    rw [Rule.pairKey_eq_some]
    refine ⟨?_, ?_⟩
    · intro hx
      rcases hx with ⟨y', z', hr', hi⟩
      have hz' := (h.binary_lt r hr y' z' hr').2
      obtain ⟨hyy, hzz⟩ := (Rows.place_inj hz' hz).mp hi
      rw [hr', Symbol.index_inj.mp hyy, Symbol.index_inj.mp hzz]
    · intro hr'
      exact ⟨y, z, hr', rfl⟩
  · intro r hr k hk
    obtain ⟨y', z', hr', rfl⟩ := Rule.pairKey_eq_some.mp hk
    obtain ⟨hy', hz'⟩ := h.binary_lt r hr y' z' hr'
    exact (Rows.place_lt_iff hz').mpr hy'

/-- The binary rules with a left child, over a grammar indexed by it. -/
theorem binaryRulesWithLeftChild_eq (h : g.Indexed) (horder : g.loopOrder = .leftChild)
    (y : Symbol) :
    ∃ ids, g.binaryRulesWithLeftChild y = .ok ids ∧
      g.rulesAt ids = .ok (g.rules.toList.filter fun r => r.leftChildKey = some y.index) := by
  have hbin := h.binary_eq
  rw [horder] at hbin
  refine ⟨_, by rw [binaryRulesWithLeftChild, hbin, BinaryIndex.ofRules], h.rulesAt_get ?_⟩
  intro r hr k hk
  obtain ⟨y', z, hrhs, rfl⟩ := Rule.leftChildKey_eq_some.mp hk
  exact (h.binary_lt r hr y' z hrhs).1

/-- The binary rules with a right child, over a grammar indexed by it. -/
theorem binaryRulesWithRightChild_eq (h : g.Indexed) (horder : g.loopOrder = .rightChild)
    (z : Symbol) :
    ∃ ids, g.binaryRulesWithRightChild z = .ok ids ∧
      g.rulesAt ids = .ok (g.rules.toList.filter fun r => r.rightChildKey = some z.index) := by
  have hbin := h.binary_eq
  rw [horder] at hbin
  refine ⟨_, by rw [binaryRulesWithRightChild, hbin, BinaryIndex.ofRules], h.rulesAt_get ?_⟩
  intro r hr k hk
  obtain ⟨y, z', hrhs, rfl⟩ := Rule.rightChildKey_eq_some.mp hk
  exact (h.binary_lt r hr y z' hrhs).2

theorem isLeftChild_iff (h : g.Indexed) (y : Symbol) :
    g.isLeftChild y = true ↔ ∃ r ∈ g.rules, ∃ z, r.rhs = .binary y z := by
  unfold isLeftChild
  rw [h.leftChildren_eq, SymbolSet.contains_ofRules]
  refine ⟨?_, ?_⟩
  · intro hx
    rcases hx with ⟨_, r, hr, hp⟩
    refine ⟨r, hr, ?_⟩
    unfold Rule.isBinary Rule.leftChild at hp
    cases hrhs : r.rhs <;> simp_all
  · intro hx
    rcases hx with ⟨r, hr, z, hrhs⟩
    exact ⟨(h.binary_lt r hr y z hrhs).1, r, hr, by simp [Rule.isBinary, Rule.leftChild, hrhs]⟩

theorem isRightChild_iff (h : g.Indexed) (z : Symbol) :
    g.isRightChild z = true ↔ ∃ r ∈ g.rules, ∃ y, r.rhs = .binary y z := by
  unfold isRightChild
  rw [h.rightChildren_eq, SymbolSet.contains_ofRules]
  refine ⟨?_, ?_⟩
  · intro hx
    rcases hx with ⟨_, r, hr, hp⟩
    refine ⟨r, hr, ?_⟩
    unfold Rule.rightChild? at hp
    cases hrhs : r.rhs <;> simp_all
  · intro hx
    rcases hx with ⟨r, hr, y, hrhs⟩
    exact ⟨(h.binary_lt r hr y z hrhs).2, r, hr, by simp [Rule.rightChild?, hrhs]⟩

/-! ## The rank of unary rules -/

/-- Reading past missing rules reads the same rules if none is missing. -/
theorem filterMap_of_rulesAt {ids : Array RuleId} {rules : List (Rule S)}
    (h : g.rulesAt ids = .ok rules) :
    ids.toList.filterMap (fun id => g.rules[id.index]?) = rules := by
  unfold rulesAt at h
  generalize ids.toList = ids at h
  induction ids generalizing rules with
  | nil => cases h; rfl
  | cons id ids ih =>
    rw [List.mapM_cons] at h
    cases hid : g.rules[id.index]? with
    | none =>
      rw [show g.rule id = .error .noSlot by unfold rule; rw [hid]] at h
      cases h
    | some r =>
      rw [show g.rule id = .ok r by unfold rule; rw [hid]] at h
      cases hrest : ids.mapM g.rule with
      | error e =>
        simp only [bind, Except.bind, hrest] at h
        cases h
      | ok rest =>
        simp only [bind, Except.bind, hrest] at h
        cases h
        rw [List.filterMap_cons, hid, ih hrest]

theorem mem_unaryChildren (h : g.Indexed) {x y : Symbol} :
    y ∈ unaryChildren g.rules g.unaryByParent x ↔
      ∃ r ∈ g.rules, r.parent = x ∧ r.rhs = .unary y := by
  rw [h.unaryByParent_eq]
  refine mem_unaryChildren_ofRules ?_ fun r hr _ _ => h.parent_lt r hr
  intro r hr _ _
  obtain ⟨i, hi⟩ := Array.mem_iff_getElem?.mp hr
  rw [h.number i r hi, hi]

/-- What the order of the unary rules says: children come first, every symbol
with children is listed, and only symbols of the alphabet are. -/
theorem unaryOrder_spec (h : g.Indexed) :
    UnaryOrder.ChildrenFirst (unaryChildren g.rules g.unaryByParent) g.unaryOrder.toList ∧
      (∀ x, unaryChildren g.rules g.unaryByParent x ≠ [] → x ∈ g.unaryOrder) ∧
      ∀ x ∈ g.unaryOrder, x.index < g.nonterminalCount := by
  have hlt : ∀ x, unaryChildren g.rules g.unaryByParent x ≠ [] → x.index < g.nonterminalCount := by
    intro x hne
    obtain ⟨y, hy⟩ := List.exists_mem_of_ne_nil _ hne
    obtain ⟨r, hr, rfl, _⟩ := h.mem_unaryChildren.mp hy
    exact h.parent_lt r hr
  have hchild : ∀ x : Symbol, x.index < g.nonterminalCount →
      ∀ y ∈ unaryChildren g.rules g.unaryByParent x, y.index < g.nonterminalCount := by
    intro x _ y hy
    obtain ⟨r, hr, _, hrhs⟩ := h.mem_unaryChildren.mp hy
    exact h.unary_lt r hr y hrhs
  have hcount : g.nonterminals.symbols.length = g.nonterminalCount := by
    simp [Alphabet.symbols, nonterminalCount]
  obtain ⟨hfirst, hall, hreached⟩ :=
    unaryOrder_ok hchild (fun x hx => hcount ▸ hx) (fun x _ hne => hlt x hne) h.unaryOrder_eq
  refine ⟨hfirst, fun x hne => hall x ?_ hne, hreached⟩
  exact List.mem_map.mpr ⟨x.index, List.mem_range.mpr (hlt x hne), Symbol.ofNat_index x⟩

theorem parent_mem_unaryOrder (h : g.Indexed) {r : Rule S} (hr : r ∈ g.rules) {y : Symbol}
    (hy : r.rhs = .unary y) : r.parent ∈ g.unaryOrder := by
  refine h.unaryOrder_spec.2.1 _ ?_
  exact List.ne_nil_of_mem (h.mem_unaryChildren.mpr ⟨r, hr, rfl, hy⟩)

theorem child_mem_unaryOrder (h : g.Indexed) {r : Rule S} (hr : r ∈ g.rules) {y : Symbol}
    (hy : r.rhs = .unary y) : y ∈ g.unaryOrder := by
  have hp := Array.mem_toList_iff.mpr (h.parent_mem_unaryOrder hr hy)
  exact Array.mem_toList_iff.mp
    (h.unaryOrder_spec.1.closed hp (h.mem_unaryChildren.mpr ⟨r, hr, rfl, hy⟩))

theorem nodup_unaryOrder (h : g.Indexed) : g.unaryOrder.toList.Nodup := h.unaryOrder_spec.1.nodup

/-- A symbol that comes after another one is not derived from it by a unary
rule. -/
theorem pairwise_unaryOrder (h : g.Indexed) :
    g.unaryOrder.toList.Pairwise fun x y => ∀ r ∈ g.rules, r.rhs = .unary y → r.parent ≠ x := by
  refine h.unaryOrder_spec.1.pairwise.imp ?_
  intro x y hxy r hr hy hp
  exact hxy (h.mem_unaryChildren.mpr ⟨r, hr, hp, hy⟩)

/-- **A unary rule's child ranks below its parent.** -/
theorem unaryRank_lt (h : g.Indexed) {r : Rule S} (hr : r ∈ g.rules) {y : Symbol}
    (hy : r.rhs = .unary y) : g.unaryRank y < g.unaryRank r.parent := by
  have hp := Array.mem_toList_iff.mpr (h.parent_mem_unaryOrder hr hy)
  exact h.unaryOrder_spec.1.idxOf_lt hp (h.mem_unaryChildren.mpr ⟨r, hr, rfl, hy⟩)

theorem parent_ne_child (h : g.Indexed) {r : Rule S} (hr : r ∈ g.rules) {y : Symbol}
    (hy : r.rhs = .unary y) : r.parent ≠ y := by
  intro heq
  have := h.unaryRank_lt hr hy
  rw [heq] at this
  exact Nat.lt_irrefl _ this

/-- There are no more symbols in the order than in the alphabet. -/
theorem size_unaryOrder_le (h : g.Indexed) : g.unaryOrder.size ≤ g.nonterminalCount :=
  Symbol.length_le_of_nodup h.nodup_unaryOrder fun x hx =>
    h.unaryOrder_spec.2.2 x (Array.mem_toList_iff.mp hx)

end Indexed

end Grammar

end ChartParsing
