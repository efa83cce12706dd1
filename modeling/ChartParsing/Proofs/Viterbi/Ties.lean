import ChartParsing.Proofs.Cell.BestScore
import ChartParsing.Proofs.LoopOrder.Agreement

/-!
# Ties do not change scores

A chart that breaks ties holds the same scores as one that does not, whatever is drawn,
as long as what ties is the same: no two real scores that are offered for a symbol over
a span may be different and still within the tolerance of each other. Over each span,
both charts hold the best of the scores offered. By induction on the width of the span
and the rank of the symbol the same scores are offered to both of them, so these are the
same as well.

Scores are weights, real numbers or minus infinity. Sums of weights are weights, so
nothing undefined comes about, and both charts are filled.
-/

namespace ChartParsing

/-! ## Scores on offer -/

section

variable {S C J : Type} [Score S] [CellConstraint C S]

/-- The scores that are offered for a symbol over a span, and admitted. -/
def scoresOffered (g : Grammar S) (sentence : List Symbol) (scorer : Scorer S)
    (constraint : Option C) (V : Values S) (sym : Symbol) (start stop : Nat) : Set S :=
  {x | ∃ a, Applies g sentence V start stop a ∧ a.rule.parent = sym ∧
    admits constraint start stop (a.offer scorer start stop) = true ∧ a.score scorer start stop = x}

variable {g : Grammar S} {sentence : List Symbol} {scorer : Scorer S} {constraint : Option C}
  {V W : Values S}

/-- The same is offered if the scores over narrower spans are the same, and those of symbols
that rank lower. -/
theorem scoresOffered_congr (hg : g.Indexed) {sym : Symbol} {start stop : Nat}
    (hnarrow : ∀ sym' s e, e - s < stop - start → V sym' s e = W sym' s e)
    (hlower : ∀ sym', g.unaryRank sym' < g.unaryRank sym → V sym' start stop = W sym' start stop) :
    scoresOffered g sentence scorer constraint V sym start stop =
      scoresOffered g sentence scorer constraint W sym start stop := by
  ext x
  refine exists_congr fun a => and_congr_left fun hrest => ?_
  obtain ⟨rfl, -⟩ := hrest
  exact Applies.congr_lower hg hnarrow hlower

/-- All scores that the rules of a grammar are given have the property. -/
def Scorer.Within (scorer : Scorer S) (g : Grammar S) (P : S → Prop) : Prop :=
  ∀ r ∈ g.rules, ∀ start mid stop, P (scorer.score r start mid stop)

section

variable {P : S → Prop} (hcombine : ∀ {x y : S}, P x → P y → P (Score.combine x y))
  (hscorer : scorer.Within g P)

include hcombine hscorer

omit [CellConstraint C S] in
/-- The score of an application has a property that is closed under combining, if the
scores that it is made from do. -/
theorem Applies.score_of_closed {start stop : Nat} {a : Application S}
    (h : Applies g sentence V start stop a)
    (hunary : ∀ y v, a.rule.rhs = .unary y → V y start stop = some v → P v)
    (hnarrow : ∀ y s e v, e - s < stop - start → V y s e = some v → P v) :
    P (a.score scorer start stop) := by
  cases h with
  | lexical hr _ _ _ => exact hscorer _ hr _ _ _
  | unary hr hrhs hv => exact hcombine (hunary _ _ hrhs hv) (hscorer _ hr _ _ _)
  | binary hr _ h₁ h₂ hv hw =>
    have hleft := hnarrow _ _ _ _ (by omega) hv
    have hright := hnarrow _ _ _ _ (by omega) hw
    exact hcombine (hcombine hleft hright) (hscorer _ hr _ _ _)

omit [CellConstraint C S] in
/-- So does the score of a derivation. -/
theorem Derivation.Valid.score_of_closed {d : Derivation S} (h : d.Valid g sentence) :
    P (d.score scorer) := by
  induction d with
  | lexical r position => exact hscorer r h.1 _ _ _
  | unary r child ih => exact hcombine (ih h.2.2) (hscorer r h.1 _ _ _)
  | binary r left right ihl ihr =>
    obtain ⟨hr, _, _, hleft, hright⟩ := h
    exact hcombine (hcombine (ihl hleft) (ihr hright)) (hscorer r hr _ _ _)

/-- Supported scores have every such property. -/
theorem Supported.of_closed (h : Supported g sentence scorer constraint V) (hg : g.Indexed)
    (sym : Symbol) (start stop : Nat) : ∀ v, V sym start stop = some v → P v := by
  induction sym, start, stop using g.span_induction with
  | step sym start stop hnarrow hlower =>
    intro v hv
    obtain ⟨a, happlies, rfl, -, rfl⟩ := h sym start stop v hv
    refine happlies.score_of_closed hcombine hscorer (fun y v hy hv => ?_)
      (fun y s e v hlt hv => hnarrow y s e hlt v hv)
    exact hlower y (hg.unaryRank_lt happlies.rule_mem hy) v hv

/-- Scores that are offered have it, too. -/
theorem Supported.offered_of_closed (h : Supported g sentence scorer constraint V)
    (hg : g.Indexed) {sym : Symbol} {start stop : Nat} {x : S}
    (hx : x ∈ scoresOffered g sentence scorer constraint V sym start stop) : P x := by
  have hvalues := h.of_closed hcombine hscorer hg
  obtain ⟨a, happlies, -, -, rfl⟩ := hx
  exact happlies.score_of_closed hcombine hscorer (fun y v _ hv => hvalues y start stop v hv)
    fun y s e v _ hv => hvalues y s e v hv

end

namespace Chart

variable [JitterSource J] {chart filled : Chart S C}

/-- **A complete cell has a history**, in whose turns the scores on offer were made. -/
theorem Complete.exists_history {start stop : Nat} {site : Site S}
    (h : chart.Complete J scorer V start stop site) :
    ∃ history : History S J,
      site.cell.Has J chart.config.cellType chart.config.aggregation chart.grammar.nonterminalCount
        history ∧
      ∀ sym, scoresOf (history.turnsOf sym) =
        scoresOffered chart.grammar chart.sentence scorer chart.constraint V sym start stop := by
  obtain ⟨cell, made, rfl, hafter, hperm⟩ := h
  obtain ⟨turns, hoffers, htook⟩ := hafter.exists_turns
  refine ⟨⟨turns, true⟩, ⟨cell, htook, rfl⟩, fun sym => ?_⟩
  ext x
  refine ⟨fun hx => ?_, fun hx => ?_⟩
  · obtain ⟨turn, hturn, rfl⟩ := hx
    obtain ⟨hturn, hparent⟩ := History.mem_turnsOf.mp hturn
    have hentered : turn.toOffer ∈ entering scorer chart.constraint start stop made := by
      rw [← hoffers]
      exact List.mem_map_of_mem hturn
    obtain ⟨a, ha, hadmits, hoffer⟩ := mem_entering.mp hentered
    refine ⟨a, mem_applications.mp (hperm.mem_iff.mp ha), ?_, hadmits, ?_⟩
    · exact (congrArg (fun o : Offer S => o.rule.parent) hoffer).trans hparent
    · exact congrArg Offer.score hoffer
  · obtain ⟨a, happlies, hparent, hadmits, rfl⟩ := hx
    have hentered : a.offer scorer start stop ∈ offersOf turns := by
      rw [hoffers]
      exact mem_entering.mpr ⟨a, hperm.mem_iff.mpr (mem_applications.mpr happlies), hadmits, rfl⟩
    obtain ⟨turn, hturn, hoffer⟩ := List.mem_map.mp hentered
    refine ⟨turn, History.mem_turnsOf.mpr ⟨hturn, ?_⟩, congrArg Offer.score hoffer⟩
    exact (congrArg (fun o : Offer S => o.rule.parent) hoffer).trans hparent

/-- The scores that are offered in a filled chart. -/
def onOffer (filled : Chart S C) (scorer : Scorer S) (sym : Symbol) (start stop : Nat) : Set S :=
  scoresOffered filled.grammar filled.sentence scorer filled.constraint filled.values sym start stop

/-- What combining keeps and all rules score within is true of the scores offered. -/
theorem Parsed.onOffer_of_closed (h : chart.Parsed J sentence scorer filled)
    (hg : chart.grammar.Indexed) (hagg : chart.config.aggregation = .viterbi) {P : S → Prop}
    (hcombine : ∀ {x y : S}, P x → P y → P (Score.combine x y))
    (hscorer : scorer.Within chart.grammar P) {sym : Symbol} {start stop : Nat} {x : S}
    (hx : x ∈ filled.onOffer scorer sym start stop) : P x := by
  rw [onOffer, h.grammar_eq, h.sentence_eq] at hx
  exact (h.supported hagg).offered_of_closed hcombine hscorer hg hx

end Chart

end

/-! ## Charts of weights -/

namespace Chart

variable {C J : Type} [CellConstraint C LogReal] [JitterSource J]
  {chart filled full ties filled₁ filled₂ : Chart LogReal C} {sentence : List Symbol}
  {scorer : Scorer LogReal}

/-- Scores of a filled chart that are offered for the same symbol over the same span are
equal or clearly different, if they are real. -/
def Separated (filled : Chart LogReal C) (scorer : Scorer LogReal) : Prop :=
  ∀ sym start stop, ∀ x ∈ filled.onOffer scorer sym start stop,
    ∀ y ∈ filled.onOffer scorer sym start stop, x.Discernible y

/-- **A parsed chart holds the best of the scores offered**, with ties or without. -/
theorem Parsed.isBest (h : chart.Parsed J sentence scorer filled) (hg : chart.grammar.Indexed)
    (hagg : chart.config.aggregation = .viterbi)
    (hweights : scorer.Within chart.grammar LogReal.IsWeight) {sym : Symbol} {start stop : Nat}
    (hdiscern : chart.config.cellType = .tieBreaking →
      ∀ x ∈ filled.onOffer scorer sym start stop, ∀ y ∈ filled.onOffer scorer sym start stop,
        x.Discernible y) :
    IsBest (filled.onOffer scorer sym start stop) (filled.values sym start stop) := by
  by_cases hwithin : start < stop ∧ stop ≤ filled.length
  case neg =>
    -- elsewhere there are neither scores nor offers
    have hnone : filled.values sym start stop = none :=
      Option.eq_none_iff_forall_not_mem.mpr fun v hv => hwithin (span_of_values hv)
    rw [hnone]
    refine Set.eq_empty_of_forall_notMem fun x hx => ?_
    obtain ⟨a, happlies, -⟩ := hx
    exact hwithin (happlies.span span_of_values)
  obtain ⟨site, hsite, hcomplete⟩ := h.complete start stop hwithin.1 (h.length_eq ▸ hwithin.2)
  obtain ⟨history, hhas, hscores⟩ := hcomplete.exists_history
  have hoffered : ∀ sym, scoresOf (history.turnsOf sym) = filled.onOffer scorer sym start stop :=
    hscores
  rw [h.config_eq, hagg] at hhas
  rw [values_eq hsite hwithin.2, ← hoffered sym]
  rw [← hoffered sym] at hdiscern
  refine hhas.isBest (fun turn hturn => ?_) hdiscern
  have hmem : turn.score ∈ filled.onOffer scorer turn.rule.parent start stop := by
    rw [← hoffered]
    exact ⟨turn, History.mem_turnsOf.mpr ⟨hturn, rfl⟩, rfl⟩
  exact h.onOffer_of_closed hg hagg LogReal.IsWeight.combine hweights hmem

/-- **Two charts for the same grammar, one of them with ties, hold the same scores.** -/
theorem Parsed.values_eq_of_separated (h₁ : full.Parsed J sentence scorer filled₁)
    (h₂ : ties.Parsed J sentence scorer filled₂) (hg : full.grammar.Indexed)
    (hgrammar : ties.grammar = full.grammar)
    (hconstraint : ties.announced sentence = full.announced sentence)
    (hagg₁ : full.config.aggregation = .viterbi) (hagg₂ : ties.config.aggregation = .viterbi)
    (hweights : scorer.Within full.grammar LogReal.IsWeight)
    (hseparated : filled₁.Separated scorer) (sym : Symbol) (start stop : Nat) :
    filled₁.values sym start stop = filled₂.values sym start stop := by
  induction sym, start, stop using full.grammar.span_induction with
  | step sym start stop hnarrow hlower =>
    have hoffered : filled₂.onOffer scorer sym start stop =
        filled₁.onOffer scorer sym start stop := by
      have htold : filled₂.constraint = filled₁.constraint := Except.ok.inj
        (h₂.constraint_eq.symm.trans (hconstraint.trans h₁.constraint_eq))
      rw [onOffer, onOffer, h₁.grammar_eq, h₁.sentence_eq, h₂.grammar_eq, h₂.sentence_eq, hgrammar,
        htold]
      exact (scoresOffered_congr hg hnarrow hlower).symm
    have hdiscern := hseparated sym start stop
    have hbest₁ := h₁.isBest hg hagg₁ hweights fun _ => hdiscern
    have hbest₂ : IsBest (filled₂.onOffer scorer sym start stop) (filled₂.values sym start stop) :=
      h₂.isBest (by rw [hgrammar]; exact hg) hagg₂ (by rw [hgrammar]; exact hweights)
        (by rw [hoffered]; exact fun _ => hdiscern)
    rw [hoffered] at hbest₂
    exact hbest₁.unique hbest₂ fun x hx =>
      h₁.onOffer_of_closed hg hagg₁ LogReal.IsWeight.combine hweights hx

/-- A parse for best derivations returns if all rules score weights. -/
theorem Reachable.parse_weights {g : Grammar LogReal} {config : ChartConfig}
    (h : chart.Reachable J g config) (hg : g.Accepted) (hagg : config.aggregation = .viterbi)
    (hsentence : ∀ token ∈ sentence, token.index < g.terminalCount) {p : CellPredicate LogReal}
    (hp : Follows (chart.announced sentence) sentence.length p)
    (hweights : scorer.Within g LogReal.IsWeight) (run : Run J LogReal) :
    ∃ filled run', (chart.parse sentence scorer).outcome run = (.ok (.ok filled), run') ∧
      chart.Parsed J sentence scorer filled := by
  obtain ⟨hshaped, rfl, rfl⟩ := h.shaped hg.indexed
  rcases hshaped.parse_parsed hg.indexed hsentence hp scorer run with
    hparsed | ⟨_, _, hmeets⟩
  · exact hparsed
  · -- derivations have weights, so their scores are not undefined
    obtain ⟨d, hvalid, -, hundef⟩ := hmeets.exists_derivation hg.indexed hagg hp
    rw [(hvalid.score_of_closed LogReal.IsWeight.combine hweights).isUndefined_eq] at hundef
    cases hundef

/-- **A chart with ties keeps the best scores.** A sentence is parsed for best derivations
with a grammar whose rules score weights, in a chart of cells of any type and in one with
ties, under the same constraint. Both parses return. If the scores offered in the first
chart are separated, both charts hold the same scores, whatever is drawn. -/
theorem parse_tieBreaking {g : Grammar LogReal} (hg : g.Accepted) {config : ChartConfig}
    (hagg : config.aggregation = .viterbi) (hfull : full.Reachable J g config)
    (hties : ties.Reachable J g { config with cellType := .tieBreaking })
    (hconstraint : ties.constraint = full.constraint)
    (hsentence : ∀ token ∈ sentence, token.index < g.terminalCount) {p : CellPredicate LogReal}
    (hp : Follows (full.announced sentence) sentence.length p)
    (hweights : scorer.Within g LogReal.IsWeight) (run : Run J LogReal) :
    ∃ filled run', (full.parse sentence scorer).outcome run = (.ok (.ok filled), run') ∧
      (filled.Separated scorer → ∀ run₁ : Run J LogReal, ∃ filled' run₁',
        (ties.parse sentence scorer).outcome run₁ = (.ok (.ok filled'), run₁') ∧
        filled.SameScores filled') := by
  have hannounced : ties.announced sentence = full.announced sentence := by
    rw [announced, announced, hconstraint]
  obtain ⟨-, hgrammar₁, hconfig₁⟩ := hfull.shaped hg.indexed
  obtain ⟨-, hgrammar₂, hconfig₂⟩ := hties.shaped hg.indexed
  have hgrammar : ties.grammar = full.grammar := hgrammar₂.trans hgrammar₁.symm
  obtain ⟨filled, run', hrun, h₁⟩ := hfull.parse_weights hg hagg hsentence hp hweights run
  refine ⟨filled, run', hrun, fun hseparated run₁ => ?_⟩
  obtain ⟨filled', run₁', hrun₁, h₂⟩ :=
    hties.parse_weights hg hagg hsentence (hannounced ▸ hp) hweights run₁
  refine ⟨filled', run₁', hrun₁, h₁.sameScores h₂ ?_ (by rw [hgrammar])⟩
  exact h₁.values_eq_of_separated h₂ (hgrammar₁ ▸ hg.indexed) hgrammar hannounced
    (by rw [hconfig₁, hagg]) (by rw [hconfig₂, hagg]) (hgrammar₁ ▸ hweights) hseparated

/-- Every rule costs one. -/
noncomputable def oneEach : Scorer LogReal := ⟨fun _ _ _ _ => .real (-1 : ℤ)⟩

/-- The small grammar over `a a a`, which can be split in two ways that cost the same. -/
theorem parse_tieBreaking_small :
    ∃ (g : Grammar LogReal) (full ties filled filled' : Chart LogReal (CellPredicate LogReal))
      (run' run₁' : Run Jitter LogReal), g.Accepted ∧ full.config.cellType = .full ∧
      ties.config.cellType = .tieBreaking ∧
      (full.parse [.ofNat 0, .ofNat 0, .ofNat 0] oneEach).outcome (.start (.ofSeed 0)) =
        (.ok (.ok filled), run') ∧
      filled.Separated oneEach ∧
      (ties.parse [.ofNat 0, .ofNat 0, .ofNat 0] oneEach).outcome (.start (.ofSeed 7)) =
        (.ok (.ok filled'), run₁') ∧
      filled.SameScores filled' := by
  obtain ⟨g, _, hg, hcount, horder, _⟩ := Grammar.Small.accepted LogReal rfl rfl .leftChild
  have hfull : (.vacant g ⟨.viterbi, .full, .leftChild⟩ :
      Chart LogReal (CellPredicate LogReal)).Reachable Jitter g ⟨.viterbi, .full, .leftChild⟩ :=
    reachable_new rfl horder
  have hties : (.vacant g ⟨.viterbi, .tieBreaking, .leftChild⟩ :
      Chart LogReal (CellPredicate LogReal)).Reachable Jitter g
        ⟨.viterbi, .tieBreaking, .leftChild⟩ := reachable_new rfl horder
  have htokens : ∀ token ∈ [Symbol.ofNat 0, .ofNat 0, .ofNat 0], token.index < g.terminalCount := by
    rw [hcount]
    decide
  have hwhole : oneEach.Within g LogReal.IsWhole := fun _ _ _ _ _ => ⟨-1, rfl⟩
  have hweights : oneEach.Within g LogReal.IsWeight := fun _ _ _ _ _ => LogReal.isWeight_real _
  obtain ⟨filled, run', hrun, hsame⟩ := parse_tieBreaking (p := ⟨fun _ _ _ _ _ => true⟩) hg rfl
    hfull hties rfl htokens (follows_of_none rfl _ _) hweights (.start (.ofSeed 0))
  have hseparated : filled.Separated oneEach := by
    have hindexed := hg.indexed
    obtain ⟨hshaped, -, -⟩ := hfull.shaped hindexed
    have hparsed := (parse_ends hshaped hindexed _ _ _).of_outcome hrun
    have hall : ∀ {sym start stop x}, x ∈ filled.onOffer oneEach sym start stop → x.IsWhole :=
      fun hx => hparsed.onOffer_of_closed hindexed rfl LogReal.IsWhole.combine hwhole hx
    exact fun sym start stop x hx y hy => (hall hx).discernible (hall hy)
  obtain ⟨filled', run₁', hrun₁, hscores⟩ := hsame hseparated (.start (.ofSeed 7))
  exact ⟨g, _, _, filled, filled', run', run₁', hg, rfl, rfl, hrun, hseparated, hrun₁, hscores⟩

end Chart

end ChartParsing
