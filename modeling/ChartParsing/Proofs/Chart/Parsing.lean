import ChartParsing.Proofs.Chart.Answers

/-!
# Parsing in step

A parse starts with emptying cells, so two charts that were made for the same
grammar parse a sentence in step whatever they were used for before: all that counts
of the past is what the constraint has become.

Making room is the one part that is not done in step. One chart may have the room
while the other has to allocate it, which the log tells.
-/

namespace ChartParsing.Chart

variable {S C J : Type} [Score S] [CellConstraint C S] [JitterSource J] {size : Nat}
  {stops : Fault → Prop} {past past' : List (Event S)} {T : Twinning S J size stops}
  {chart chart' : Chart S C} {sentence : List Symbol} {scorer : Scorer S}

omit [Score S] [JitterSource J] in
/-- Of constraints that will answer alike there are two or none. -/
theorem isSome_constraint_eq (h : Matched (fun _ => False) (AnswerAlike S)
      (chart.announced sentence) (chart'.announced sentence)) :
    chart.constraint.isSome = chart'.constraint.isSome := by
  -- only a constraint can be at fault
  have hfault : ∀ {c : Chart S C} {fault : Fault}, c.announced sentence = .error fault →
      c.constraint.isSome = true := by
    intro c fault hc
    unfold announced at hc
    split at hc
    · cases hc
    · rename_i hsome
      rw [hsome]
      rfl
  generalize he : chart.announced sentence = e at h
  generalize he' : chart'.announced sentence = e' at h
  cases h with
  | ok halike => rw [← isSome_of_announced he, ← isSome_of_announced he', halike.isSome_eq]
  | error fault => rw [hfault he, hfault he']
  | stop hstop => exact hstop.elim

omit [Score S] [JitterSource J] in
/-- Constraints that will answer alike are told the sentence in step. -/
theorem lockstep_announce (h : Matched (fun _ => False) (AnswerAlike S)
      (chart.announced sentence) (chart'.announced sentence)) :
    Effect.Lockstep (.since past past') stops (chart.announce sentence : Effect J S (Chart S C))
      (chart'.announce sentence) fun c c' => ∃ constraint constraint',
        AnswerAlike S constraint constraint' ∧
        constraint.isSome = chart.constraint.isSome ∧
        constraint'.isSome = chart'.constraint.isSome ∧
        c = { chart with constraint } ∧ c' = { chart' with constraint := constraint' } := by
  have hkind := isSome_constraint_eq h
  cases hc : chart.constraint with
  | none =>
    have hc' : chart'.constraint = none := by simpa [hc] using hkind
    rw [announce_of_none hc, announce_of_none hc']
    exact Effect.lockstep_pure
      ⟨none, none, .none, rfl, by rw [hc'], by rw [← hc], by rw [← hc']⟩
  | some c =>
    obtain ⟨c', hc'⟩ := Option.isSome_iff_exists.mp (hkind.symm.trans (by rw [hc]; rfl))
    rw [announce_of_some hc, announce_of_some hc']
    refine Effect.lockstep_bind_emit (Effect.lockstep_bind_lift h.known fun d d' hd => ?_)
    obtain ⟨halike, hok, hok'⟩ := hd
    exact Effect.lockstep_pure ⟨d, d', halike, by rw [isSome_of_announced hok, hc],
      isSome_of_announced hok', rfl, rfl⟩

/-- Two charts that were made alike, with empty cells that are twins, and with
constraints that answer alike once they have been told the sentence. -/
structure Akin (T : Twinning S J size stops) (sentence : List Symbol) (chart chart' : Chart S C) :
    Prop where
  indexed : chart.grammar.Indexed
  size_eq : chart.grammar.nonterminalCount = size
  grammar_eq : chart.grammar = chart'.grammar
  aggregation_eq : chart.config.aggregation = chart'.config.aggregation
  shaped : chart.Shaped
  shaped' : chart'.Shaped
  constraint : Matched (fun _ => False) (AnswerAlike S) (chart.announced sentence)
    (chart'.announced sentence)
  empty : T.Twins (.empty chart.config.cellType chart.config.aggregation size)
    (.empty chart'.config.cellType chart'.config.aggregation size)

namespace Akin

variable (h : Akin T sentence chart chart')

include h

/-- Blank charts are twins. -/
theorem twins_of_blank {sites sites' : Array (Option (Site S))} {capacity capacity' : Nat}
    (hblank : ({ chart with sites, capacity } : Chart S C).Blank sentence.length)
    (hblank' : ({ chart' with sites := sites', capacity := capacity' } : Chart S C).Blank
      sentence.length)
    {constraint constraint' : Option C} (halike : AnswerAlike S constraint constraint')
    (hkind : constraint.isSome = chart.constraint.isSome)
    (hkind' : constraint'.isSome = chart'.constraint.isSome) :
    Twins T { chart with sites, capacity, constraint, sentence }
      { chart' with
        sites := sites', capacity := capacity', constraint := constraint', sentence } := by
  have horder : chart.config.loopOrder = chart'.config.loopOrder := by
    rw [← h.shaped.loopOrder_eq, ← h.shaped'.loopOrder_eq, h.grammar_eq]
  refine ⟨h.grammar_eq, h.aggregation_eq, horder, rfl, halike, ?_⟩
  intro start stop h₁ h₂
  refine ⟨_, _, hblank.site start stop h₁ h₂, hblank'.site start stop h₁ h₂, rfl, rfl, rfl, rfl,
    (newFilter_congr _ hkind).symm, (newFilter_congr _ hkind').symm, ?_⟩
  show T.Twins (.empty _ _ chart.grammar.nonterminalCount)
    (.empty _ _ chart'.grammar.nonterminalCount)
  rw [← h.grammar_eq, h.size_eq]
  exact h.empty

/-- **Akin charts are reset in step**, to twins. -/
theorem reset :
    Effect.Lockstep (.since past past') stops
      (chart.reset sentence : Effect J S (Except ChartError (Chart S C)))
      (chart'.reset sentence)
      (Matched (fun _ => False) fun c c' => c.Twins T c' ∧ c.grammar = chart.grammar) := by
  have hunknown : chart.firstUnknown? sentence = chart'.firstUnknown? sentence := by
    unfold firstUnknown?
    rw [h.grammar_eq]
  unfold Chart.reset
  rw [← hunknown]
  split
  · rw [h.grammar_eq]
    exact Effect.lockstep_pure (.error _)
  refine Effect.lockstep_bind (Effect.lockstep_of_ends
    (fun run => (makeRoom_ends h.shaped _ run).and (makeRoom_quiet _ _ run))
    (fun run => (makeRoom_ends h.shaped' _ run).and (makeRoom_quiet _ _ run))) ?_
  intro c c' hrooms
  obtain ⟨⟨sites, capacity, rfl, _, hblank⟩, sites', capacity', rfl, _, hblank'⟩ := hrooms
  refine Effect.lockstep_bind (lockstep_announce h.constraint) fun d d' hd => ?_
  obtain ⟨constraint, constraint', halike, hkind, hkind', rfl, rfl⟩ := hd
  exact Effect.lockstep_pure
    (.ok ⟨h.twins_of_blank hblank hblank' halike hkind hkind', rfl⟩)

/-- **Akin charts parse a sentence in step.** -/
theorem parse [ScoreText S] (scorer : Scorer S) :
    Effect.Lockstep (.since past past') stops
      (chart.parse sentence scorer : Effect J S (Except ChartError (Chart S C)))
      (chart'.parse sentence scorer) (Matched (fun _ => False) (Twins T)) := by
  unfold Chart.parse
  refine Effect.lockstep_bind h.reset fun result result' hresult => ?_
  cases hresult with
  | error e => exact Effect.lockstep_pure (.error e)
  | stop hstop => exact hstop.elim
  | @ok c c' hc =>
    obtain ⟨htwins, hgrammar⟩ := hc
    have hindexed : c.grammar.Indexed := hgrammar ▸ h.indexed
    have hsize : c.grammar.nonterminalCount = size := hgrammar ▸ h.size_eq
    refine Effect.lockstep_bind (htwins.fillAll hindexed hsize) fun d d' hd => ?_
    have hread := hd.readAlike
    rw [← hread.rootScore?_eq]
    refine Effect.lockstep_bind_lift (.refl _) fun root _ heq => ?_
    subst heq
    rw [hd.aggregation_eq, hd.length_eq]
    exact Effect.lockstep_bind_emit (Effect.lockstep_pure (.ok hd))

end Akin

end ChartParsing.Chart
