import ChartParsing.Grammar.Draft
import ChartParsing.Proofs.Grammar.Validation

/-!
# Dropping rules

A draft that can be built can still be built when rules are dropped. The others are as
valid as before, and no cycle of unary rules comes about. They are numbered anew, and
all indexes differ, but what is read off the rules alone is read off those that are
left.
-/

namespace ChartParsing

variable {S : Type}

namespace Grammar

/-- What is listed for each rule does not depend on how the rules are numbered. -/
theorem flatMap_numbered {α : Type} {f : Rule S → List α}
    (hf : ∀ (r : Rule S) (id : RuleId), f { r with id } = f r) (rules : Array (Rule S)) :
    (numbered rules).toList.flatMap f = rules.toList.flatMap f := by
  have hmap : (numbered rules).toList.map f = rules.toList.map f := by
    refine List.ext_getElem? fun i => ?_
    rw [List.getElem?_map, List.getElem?_map, Array.getElem?_toList, Array.getElem?_toList,
      getElem?_numbered]
    cases rules[i]? with
    | none => rfl
    | some r => exact congrArg some (hf r _)
  rw [List.flatMap_def, List.flatMap_def, hmap]

/-- A cycle of some of the rules is one of all. -/
theorem OnUnaryCycle.of_filter {rules : Array (Rule S)} {keep : Rule S → Bool} {sym : Symbol}
    (h : OnUnaryCycle (rules.filter keep) sym) : OnUnaryCycle rules sym := by
  refine Relation.TransGen.mono ?_ _ _ h
  rintro parent child ⟨r, hr, hedge⟩
  exact ⟨r, (Array.mem_filter.mp hr).1, hedge⟩

variable [Score S]

/-- **Some rules of a grammar make one.** -/
theorem ofRules_filter {nonterminals terminals : Alphabet} {root : Symbol}
    {rules : Array (Rule S)} (hsize : rules.size ≤ UInt32.size) {order : LoopOrder} {g : Grammar S}
    (h : ofRules nonterminals terminals root rules order = .ok g) (keep : Rule S → Bool)
    (order' : LoopOrder) :
    ∃ g', ofRules nonterminals terminals root (rules.filter keep) order' = .ok g' := by
  obtain ⟨hroot, hvalid, unaryOrder, hfound, -⟩ := ofRules_eq_ok_iff.mp h
  have hvalid' : ∀ r ∈ rules.filter keep, ValidRule nonterminals.size terminals.size r :=
    fun r hr => hvalid r (Array.mem_filter.mp hr).1
  have hsize' : (rules.filter keep).size ≤ UInt32.size :=
    Nat.le_trans Array.size_filter_le hsize
  cases hfound' : unaryOrderOf (numbered (rules.filter keep)) nonterminals.size with
  | ok unaryOrder' =>
    exact ⟨_, ofRules_eq_ok_iff.mpr ⟨hroot, hvalid', unaryOrder', hfound', rfl⟩⟩
  | error sym =>
    -- a cycle that stands in the way would have stood in the way before
    have hcycle := (unaryListed_numbered hsize' hvalid').unaryOrderOf_error hfound'
    rw [OnUnaryCycle, unaryEdge_numbered] at hcycle
    refine absurd (OnUnaryCycle.of_filter hcycle) ?_
    have hacyclic := (unaryListed_numbered hsize hvalid).not_onUnaryCycle hfound sym
    rwa [OnUnaryCycle, unaryEdge_numbered] at hacyclic

end Grammar

namespace GrammarDraft

variable [Score S] {d : GrammarDraft S} {g : Grammar S} {order : LoopOrder}

/-- Dropping rules does not keep a draft from being built. -/
theorem build_retain (hsize : d.rules.size ≤ UInt32.size) (h : d.build order = .ok g)
    (keep : Rule S → Bool) (order' : LoopOrder) : ∃ g', (d.retain keep).build order' = .ok g' := by
  cases hroot : d.root with
  | none =>
    rw [build, hroot] at h
    cases h
  | some root =>
    rw [build, hroot] at h
    obtain ⟨g', hg'⟩ := Grammar.ofRules_filter hsize h keep order'
    have hroot' : (d.retain keep).root = some root := hroot
    exact ⟨g', by rw [build, hroot']; exact hg'⟩

/-- The grammar is made of what the draft has, with the rules numbered. -/
structure Makes (d : GrammarDraft S) (order : LoopOrder) (g : Grammar S) : Prop where
  root_eq : d.root = some g.root
  terminals_eq : g.terminals = d.terminals
  rules_eq : g.rules = Grammar.numbered d.rules
  loopOrder_eq : g.loopOrder = order
  accepted : d.rules.size ≤ UInt32.size → g.Accepted

theorem makes_of_build (h : d.build order = .ok g) : d.Makes order g := by
  unfold build at h
  split at h
  · cases h
  rename_i root hroot
  obtain ⟨-, -, unaryOrder, -, hg⟩ := Grammar.ofRules_eq_ok_iff.mp h
  exact {
    root_eq := by rw [hroot, hg]; rfl
    terminals_eq := by rw [hg]; rfl
    rules_eq := by rw [hg]; rfl
    loopOrder_eq := by rw [hg]; exact Grammar.loopOrder_assemble
    accepted := fun hsize => ⟨_, _, _, _, _, hsize, h⟩ }

end GrammarDraft

end ChartParsing
