import ChartParsing.Proofs.Chart.Soundness
import ChartParsing.Proofs.LoopOrder.Gathering

/-!
# The same scores in every loop order

Grammars built from one list of rules for different loop orders differ in how they
have their binary rules laid out, and in nothing else. So the same applications are
made over a span, as long as what they are made to is the same. By induction on the
width of the span and, for unary rules, on the rank of the symbol it is, and each
symbol gets the same offers, if in another order.
-/

namespace ChartParsing

variable {S C J : Type} [Score S]

/-- **The loop order is a matter of the binary index alone.** Rules that make a grammar
for one loop order make one for any other. -/
theorem Grammar.ofRules_order {nonterminals terminals : Alphabet} {root : Symbol}
    {rules : Array (Rule S)} {order₁ : LoopOrder} {g₁ : Grammar S}
    (h₁ : ofRules nonterminals terminals root rules order₁ = .ok g₁) (order₂ : LoopOrder) :
    ∃ binary, ofRules nonterminals terminals root rules order₂ = .ok { g₁ with binary } := by
  unfold ofRules at h₁ ⊢
  by_cases hroot : nonterminals.contains root = true
  case neg =>
    simp only [hroot] at h₁
    cases h₁
  simp only [hroot] at h₁ ⊢
  obtain ⟨_, hchecks, h₁⟩ := bind_eq_ok h₁
  generalize ChartParsing.unaryOrder _ _ = unaryOrder at h₁
  cases unaryOrder with
  | error sym => cases h₁
  | ok unaryOrder =>
    cases h₁
    refine ⟨.ofRules (numbered rules) nonterminals.size order₂, ?_⟩
    show (checkRules nonterminals terminals 0 rules.toList >>= _ :
      Except (GrammarError S) (Grammar S)) = _
    rw [hchecks]
    simp only [bind, Except.bind]
    rfl

/-- Grammars made of the same rules differ in their binary index alone. -/
theorem Grammar.ofRules_binary {nonterminals terminals : Alphabet} {root : Symbol}
    {rules : Array (Rule S)} {order₁ order₂ : LoopOrder} {g₁ g₂ : Grammar S}
    (h₁ : ofRules nonterminals terminals root rules order₁ = .ok g₁)
    (h₂ : ofRules nonterminals terminals root rules order₂ = .ok g₂) :
    ∃ binary, g₂ = { g₁ with binary } := by
  obtain ⟨binary, h⟩ := ofRules_order h₁ order₂
  exact ⟨binary, by cases h.symm.trans h₂; rfl⟩

/-- What applies does not depend on the layout of the binary rules. -/
theorem applies_binary {g : Grammar S} {binary : BinaryIndex} {sentence : List Symbol}
    {V : Values S} {start stop : Nat} {a : Application S} :
    Applies { g with binary } sentence V start stop a ↔ Applies g sentence V start stop a := by
  rw [← mem_applications, ← mem_applications]
  rfl

/-- What applies over a span depends on the scores over narrower ones, and on those
of unary children. -/
theorem Applies.congr_rule {g : Grammar S} {sentence : List Symbol} {V W : Values S}
    {start stop : Nat} {a : Application S} (h : Applies g sentence V start stop a)
    (hunary : ∀ y, a.rule.rhs = .unary y → V y start stop = W y start stop)
    (hnarrow : ∀ sym s e, e - s < stop - start → V sym s e = W sym s e) :
    Applies g sentence W start stop a := by
  cases h with
  | lexical hr hrhs hstop ht => exact .lexical hr hrhs hstop ht
  | unary hr hrhs hv => exact .unary hr hrhs (by rw [← hunary _ hrhs]; exact hv)
  | binary hr hrhs h₁ h₂ hv hw =>
    exact .binary hr hrhs h₁ h₂ (by rw [← hnarrow _ _ _ (by omega)]; exact hv)
      (by rw [← hnarrow _ _ _ (by omega)]; exact hw)

/-- What applies for a symbol over a span depends on the scores over narrower spans, and
on those of the symbols that rank lower. -/
theorem Applies.congr_lower {g : Grammar S} (hg : g.Indexed) {sentence : List Symbol}
    {V W : Values S} {start stop : Nat} {a : Application S}
    (hnarrow : ∀ sym s e, e - s < stop - start → V sym s e = W sym s e)
    (hlower : ∀ sym, g.unaryRank sym < g.unaryRank a.rule.parent →
      V sym start stop = W sym start stop) :
    Applies g sentence V start stop a ↔ Applies g sentence W start stop a := by
  refine ⟨fun ha => ?_, fun ha => ?_⟩
  · exact ha.congr_rule (fun y hrhs => hlower y (hg.unaryRank_lt ha.rule_mem hrhs)) hnarrow
  · exact ha.congr_rule (fun y hrhs => (hlower y (hg.unaryRank_lt ha.rule_mem hrhs)).symm)
      fun sym s e hlt => (hnarrow sym s e hlt).symm

variable [CellConstraint C S]

/-- The offers for a symbol are those of the applications of its rules. -/
theorem entering_filter (scorer : Scorer S) (constraint : Option C) (start stop : Nat)
    (made : List (Application S)) (sym : Symbol) :
    (entering scorer constraint start stop made).filter (fun o => o.rule.parent = sym) =
      entering scorer constraint start stop (made.filter fun a => a.rule.parent = sym) := by
  unfold entering
  rw [List.filter_comm, List.filter_map]
  rfl

theorem entering_perm (scorer : Scorer S) (constraint : Option C) (start stop : Nat)
    {made made' : List (Application S)} (h : made.Perm made') :
    (entering scorer constraint start stop made).Perm
      (entering scorer constraint start stop made') :=
  (h.map _).filter _

namespace Chart

variable [JitterSource J] {chart filled chart₁ chart₂ filled₁ filled₂ : Chart S C}
  {sentence : List Symbol} {scorer : Scorer S}

/-- The scores over a span are gathered from the applications over it, each made
once. -/
theorem Parsed.values_eq_gather (h : chart.Parsed J sentence scorer filled)
    (hg : chart.grammar.Indexed) (htype : chart.config.cellType ≠ .tieBreaking) {start stop : Nat}
    (h₁ : start < stop) (h₂ : stop ≤ sentence.length) :
    ∃ made : List (Application S), made.Nodup ∧
      (∀ a, a ∈ made ↔ Applies chart.grammar sentence filled.values start stop a) ∧
      ∀ sym, filled.values sym start stop = (gather chart.config.aggregation
        (entering scorer filled.constraint start stop made) sym).map (·.score) := by
  have hlength : filled.length = sentence.length := h.length_eq
  obtain ⟨site, hsite, cell, made, rfl, hafter, hperm⟩ := h.complete start stop h₁ h₂
  rw [h.grammar_eq, h.sentence_eq] at hperm
  rw [h.config_eq] at hafter
  refine ⟨made, hperm.nodup_iff.mpr (nodup_applications hg.nodup_rules _ _ _ _), ?_, ?_⟩
  · intro a
    rw [hperm.mem_iff, mem_applications]
  · intro sym
    rw [values_eq hsite (hlength ▸ h₂)]
    exact congrArg (Option.map _) (hafter.find?_eq_gather htype sym)

/-- One sentence parsed with two charts whose grammars differ in the layout of their
binary rules, if scores may be aggregated in any order. -/
structure Reordered (J : Type) [JitterSource J] (sentence : List Symbol) (scorer : Scorer S)
    (chart₁ filled₁ chart₂ filled₂ : Chart S C) : Prop where
  parsed₁ : chart₁.Parsed J sentence scorer filled₁
  parsed₂ : chart₂.Parsed J sentence scorer filled₂
  indexed₁ : chart₁.grammar.Indexed
  indexed₂ : chart₂.grammar.Indexed
  grammar_eq : ∃ binary, chart₂.grammar = { chart₁.grammar with binary }
  aggregation_eq : chart₁.config.aggregation = chart₂.config.aggregation
  plain₁ : chart₁.config.cellType ≠ .tieBreaking
  plain₂ : chart₂.config.cellType ≠ .tieBreaking
  constraint_eq : chart₁.announced sentence = chart₂.announced sentence
  orderFree : chart₁.config.aggregation.OrderFree S

/-- **Charts for different loop orders hold the same scores.** -/
theorem Reordered.values_eq (h : Reordered J sentence scorer chart₁ filled₁ chart₂ filled₂)
    (sym : Symbol) (start stop : Nat) :
    filled₁.values sym start stop = filled₂.values sym start stop := by
  obtain ⟨binary, hgrammar⟩ := h.grammar_eq
  have hlength₁ : filled₁.length = sentence.length := by rw [length, h.parsed₁.sentence_eq]
  have hlength₂ : filled₂.length = sentence.length := by rw [length, h.parsed₂.sentence_eq]
  have hconstraint : filled₁.constraint = filled₂.constraint := Except.ok.inj
    (h.parsed₁.constraint_eq.symm.trans (h.constraint_eq.trans h.parsed₂.constraint_eq))
  induction sym, start, stop using chart₁.grammar.span_induction with
  | step sym start stop hnarrow hlower =>
    by_cases hspan : start < stop ∧ stop ≤ sentence.length
    case neg =>
      rw [values_eq_none (by rwa [hlength₁]), values_eq_none (by rwa [hlength₂])]
    obtain ⟨made₁, hnodup₁, hmem₁, hvalues₁⟩ :=
      h.parsed₁.values_eq_gather h.indexed₁ h.plain₁ hspan.1 hspan.2
    obtain ⟨made₂, hnodup₂, hmem₂, hvalues₂⟩ :=
      h.parsed₂.values_eq_gather h.indexed₂ h.plain₂ hspan.1 hspan.2
    rw [hvalues₁, hvalues₂, ← hconstraint, ← h.aggregation_eq]
    refine h.orderFree.gather_eq ?_
    rw [entering_filter, entering_filter]
    refine entering_perm _ _ _ _ ((List.perm_ext_iff_of_nodup (hnodup₁.filter _)
      (hnodup₂.filter _)).mpr fun a => ?_)
    simp only [List.mem_filter, hmem₁, hmem₂, decide_eq_true_eq]
    refine and_congr_left fun hparent => ?_
    subst hparent
    rw [hgrammar]
    exact (Applies.congr_lower h.indexed₁ hnarrow hlower).trans applies_binary.symm

end Chart

end ChartParsing
