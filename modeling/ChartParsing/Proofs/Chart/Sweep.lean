import ChartParsing.Proofs.Cell.Twin
import ChartParsing.Proofs.Chart.Applying
import ChartParsing.Proofs.Chart.Finding
import ChartParsing.Proofs.Chart.Safety
import ChartParsing.Proofs.Grammar.UnaryCycle
import ChartParsing.Proofs.LoopOrder.Gathering
import ChartParsing.Proofs.Score.Laws
import Mathlib.Tactic.NormNum

/-!
# One sweep is enough

The sweep over the unary rules reads and writes one cell. Whatever that cell held before,
children are visited before their parents, so a child's score is final when it is read:
what is offered afterwards goes to symbols that have not been visited. One sweep therefore
comes to what all unary rules make of the final scores, and a second one offers the same
again, which among best scores changes nothing.

A sweep ends early only where a dense cell comes to an undefined score, as it does when
plus infinity is pooled with itself.
-/

namespace ChartParsing

variable {S C J : Type} [Score S]

/-! ## Joined scores -/

namespace Aggregation

theorem isSome_foldl_join (aggregation : Aggregation) (scores : List S) (old : Option S) :
    (scores.foldl aggregation.join old).isSome = true ↔ old.isSome = true ∨ scores ≠ [] := by
  induction scores generalizing old with
  | nil => simp
  | cons x scores ih =>
    have hjoin : (aggregation.join old x).isSome = true := by
      cases old <;> cases aggregation <;> rfl
    simp [ih, hjoin]

/-- One more score: it does not exceed the best one then, and what did not exceed the best one
before does not either. -/
theorem exceeds_join [StrictScore S] {v y best : S}
    (h : Aggregation.viterbi.join (some v) y = some best) :
    Score.exceeds y best = false ∧
      ∀ x, Score.exceeds x v = false → Score.exceeds x best = false := by
  cases hy : Score.exceeds y v with
  | false =>
    obtain rfl : v = best := by simpa [join, hy] using h
    exact ⟨hy, fun _ hx => hx⟩
  | true =>
    obtain rfl : y = best := by simpa [join, hy] using h
    refine ⟨StrictScore.exceeds_self y, fun x hx => Bool.eq_false_iff.mpr fun hxy => ?_⟩
    -- what exceeds the newcomer exceeds what the newcomer replaces
    exact Bool.false_ne_true (hx.symm.trans (StrictScore.exceeds_trans hxy hy))

/-- **No score exceeds the best one** of those it was joined with. -/
theorem exceeds_foldl_join [StrictScore S] {scores : List S} {old : Option S} {best : S}
    (h : scores.foldl Aggregation.viterbi.join old = some best) :
    ∀ x ∈ scores, Score.exceeds x best = false := by
  induction scores using List.reverseRecOn generalizing best with
  | nil => exact fun x hx => absurd hx (by simp)
  | append_singleton scores y ih =>
    rw [List.foldl_append, List.foldl_cons, List.foldl_nil] at h
    intro x hx
    cases hbefore : scores.foldl Aggregation.viterbi.join old with
    | none =>
      -- only the first score of all finds none before it
      have hnil : scores = [] := by
        by_contra hne
        have hsome := (isSome_foldl_join .viterbi scores old).mpr (Or.inr hne)
        rw [hbefore] at hsome
        cases hsome
      rw [hnil, List.nil_append, List.mem_singleton] at hx
      rw [hbefore] at h
      cases h
      rw [hx]
      exact StrictScore.exceeds_self y
    | some v =>
      rw [hbefore] at h
      obtain ⟨hy, hkeep⟩ := exceeds_join h
      rcases List.mem_append.mp hx with hx | hx
      · exact hkeep x (ih hbefore x hx)
      · rw [List.mem_singleton.mp hx]
        exact hy

end Aggregation

/-! ## Cells that take offers -/

/-- An open cell of a type that breaks no ties, in order and with room for `size`
nonterminals. What it holds is arbitrary. That a dense cell holds no undefined score is
part of its being in order. -/
structure Cell.Ready (type : CellType) (size : Nat) (c : Cell S) : Prop where
  plain : type ≠ .tieBreaking
  present_eq : c.present = none
  tidy : c.store.Tidy
  clear_eq : c.store.clear = .empty size type

/-- New cells take offers. -/
theorem Cell.ready_empty {type : CellType} (htype : type ≠ .tieBreaking) (aggregation : Aggregation)
    (size : Nat) : (Cell.empty type aggregation size : Cell S).Ready type size where
  plain := htype
  present_eq := rfl
  tidy := CellStore.tidy_empty size type
  clear_eq := CellStore.clear_empty size type

/-- **Such a cell merges an offer into the entry of its symbol**, unless it is dense and the
merged score is undefined. -/
theorem Cell.Ready.offer [JitterSource J] {type : CellType} {size : Nat} {c : Cell S} {o : Offer S}
    (h : c.Ready type size) (hlt : o.rule.parent.index < size) (source : J) :
    (∃ c', c.offer o source = .ok (c', source) ∧ c'.Ready type size ∧
      c'.aggregation = c.aggregation ∧ ∀ sym, c'.find? sym =
        if o.rule.parent = sym then some (o.merge c.aggregation (c.find? sym)) else c.find? sym) ∨
    (c.offer o source = .error .undefinedScore ∧ type = .full ∧
      Score.isUndefined (o.merge c.aggregation (c.find? o.rule.parent)).score = true) := by
  have hopen : c.isClosed = false := by rw [isClosed, h.present_eq]; rfl
  have hties : ¬ c.store.BreaksTies := fun hb =>
    h.plain ((CellStore.breaksTies_iff h.clear_eq).mp hb)
  have hplain := CellStore.offer_plain h.plain c.aggregation h.tidy h.clear_eq hlt source
  split at hplain
  · rename_i hfault
    refine Or.inr ⟨?_, hfault⟩
    rw [Cell.offer, hopen, hplain]
    rfl
  · obtain ⟨store, hstore⟩ := hplain
    obtain ⟨htidy, hclear, hexact, -⟩ := CellStore.offer_ok hstore h.tidy
    exact Or.inl ⟨{ c with store }, by rw [Cell.offer, hopen, hstore]; rfl,
      ⟨h.plain, h.present_eq, htidy, hclear.trans h.clear_eq⟩, rfl, hexact hties⟩

/-- An offer that is taken leaves the cell ready for the next. -/
theorem Cell.Ready.of_offer_ok [JitterSource J] {type : CellType} {size : Nat} {c c' : Cell S}
    {o : Offer S} (h : c.Ready type size) (hlt : o.rule.parent.index < size) (source : J)
    {source' : J} (hoff : c.offer o source = .ok (c', source')) : c'.Ready type size := by
  rcases h.offer hlt source with ⟨_, htaken, hready, -⟩ | ⟨hrefused, -⟩
  · cases hoff.symm.trans htaken
    exact hready
  · cases hoff.symm.trans hrefused

/-! ## Sites that take applications -/

/-- What applications over a span score for a symbol, in order. -/
def scoresMade (scorer : Scorer S) (start stop : Nat) (made : List (Application S))
    (sym : Symbol) : List S :=
  (made.filter fun a => a.rule.parent = sym).map fun a => a.score scorer start stop

theorem scoresMade_append (scorer : Scorer S) (start stop : Nat)
    (made more : List (Application S)) (sym : Symbol) :
    scoresMade scorer start stop (made ++ more) sym =
      scoresMade scorer start stop made sym ++ scoresMade scorer start stop more sym := by
  unfold scoresMade
  rw [List.filter_append, List.map_append]

namespace Site

variable {type : CellType} {size : Nat} {scorer : Scorer S} {site site₁ site₂ : Site S}
  {made more : List (Application S)}

/-- What an application does to a site: it is merged into the entry of its parent. -/
structure Merged (type : CellType) (size : Nat) (scorer : Scorer S) (site : Site S)
    (a : Application S) (site' : Site S) : Prop where
  start_eq : site'.start = site.start
  stop_eq : site'.stop = site.stop
  aggregation_eq : site'.cell.aggregation = site.cell.aggregation
  ready : site'.cell.Ready type size
  find?_eq : ∀ sym, site'.cell.find? sym =
    if a.rule.parent = sym then
      some ((a.offer scorer site.start site.stop).merge site.cell.aggregation (site.cell.find? sym))
    else site.cell.find? sym

/-- Merged into what the site holds, the application leaves its parent with an undefined
score. -/
def Spoils (scorer : Scorer S) (site : Site S) (a : Application S) : Prop :=
  Score.isUndefined ((a.offer scorer site.start site.stop).merge site.cell.aggregation
    (site.cell.find? a.rule.parent)).score = true

/-- Without a constraint every application is merged, unless a dense cell refuses it. -/
theorem apply_merged [CellConstraint C S] [JitterSource J] (h : site.cell.Ready type size)
    {a : Application S} (hlt : a.rule.parent.index < size) (run : Run J S) :
    (site.apply scorer (none : Option C) a).Ends
      (fun fault _ => fault = .undefinedScore ∧ type = .full ∧ site.Spoils scorer a) run
      fun site' _ => site.Merged type size scorer a site' := by
  refine Effect.ends_bind_push (Effect.ends_bind (Q := fun accepted _ => accepted = true)
    (Effect.ends_pure rfl) ?_)
  intro accepted run₁ haccepted
  rw [if_pos haccepted]
  refine Effect.ends_bind (Q := fun cell _ => site.Merged type size scorer a { site with cell })
    (Effect.ends_offer ?_ ?_) fun _ _ hmerged => Effect.ends_pure hmerged
  · intro cell source hoffer
    rcases h.offer (o := a.offer scorer site.start site.stop) hlt run₁.source with
      ⟨cell', hok, hready, hagg, hfind⟩ | ⟨herror, -⟩
    · cases hok.symm.trans hoffer
      exact ⟨rfl, rfl, hagg, hready, hfind⟩
    · cases herror.symm.trans hoffer
  · intro fault hfault
    rcases h.offer (o := a.offer scorer site.start site.stop) hlt run₁.source with
      ⟨_, hok, -⟩ | ⟨herror, hspoils⟩
    · cases hok.symm.trans hfault
    · cases herror.symm.trans hfault
      exact ⟨rfl, hspoils⟩

/-- What applications do to a site, whatever its cell held: their scores are joined to those
of their parents. -/
structure Joined (type : CellType) (size : Nat) (scorer : Scorer S) (site : Site S)
    (made : List (Application S)) (site' : Site S) : Prop where
  start_eq : site'.start = site.start
  stop_eq : site'.stop = site.stop
  aggregation_eq : site'.cell.aggregation = site.cell.aggregation
  ready : site'.cell.Ready type size
  value?_eq : ∀ sym, site'.cell.value? sym =
    (scoresMade scorer site.start site.stop made sym).foldl site.cell.aggregation.join
      (site.cell.value? sym)

theorem Joined.refl (h : site.cell.Ready type size) : site.Joined type size scorer [] site :=
  ⟨rfl, rfl, rfl, h, fun _ => rfl⟩

theorem Joined.trans (h : site.Joined type size scorer made site₁)
    (h' : site₁.Joined type size scorer more site₂) :
    site.Joined type size scorer (made ++ more) site₂ where
  start_eq := h'.start_eq.trans h.start_eq
  stop_eq := h'.stop_eq.trans h.stop_eq
  aggregation_eq := h'.aggregation_eq.trans h.aggregation_eq
  ready := h'.ready
  value?_eq sym := by
    rw [h'.value?_eq, h.value?_eq, h.aggregation_eq, h.start_eq, h.stop_eq, scoresMade_append,
      List.foldl_append]

theorem Merged.joined {a : Application S} (h : site.Merged type size scorer a site₁) :
    site.Joined type size scorer [a] site₁ where
  start_eq := h.start_eq
  stop_eq := h.stop_eq
  aggregation_eq := h.aggregation_eq
  ready := h.ready
  value?_eq sym := by
    rw [Cell.value?, h.find?_eq, scoresMade]
    by_cases hparent : a.rule.parent = sym
    · rw [if_pos hparent, List.filter_cons_of_pos (by simpa using hparent), Option.map_some,
        Offer.merge_score]
      rfl
    · rw [if_neg hparent, List.filter_cons_of_neg (by simpa using hparent)]
      rfl

/-- A symbol that nothing was applied for keeps its score. -/
theorem Joined.value?_of_ne (h : site.Joined type size scorer made site₁) {sym : Symbol}
    (hsym : ∀ a ∈ made, a.rule.parent ≠ sym) : site₁.cell.value? sym = site.cell.value? sym := by
  rw [h.value?_eq, scoresMade, List.filter_eq_nil_iff.mpr fun a ha => by simpa using hsym a ha]
  rfl

/-- **Applications made in order are joined in order**, unless a dense cell refuses the one
whose turn it is. -/
theorem applyAll_joined [CellConstraint C S] [JitterSource J] (h : site.cell.Ready type size)
    (hlt : ∀ a ∈ more, a.rule.parent.index < size) (run : Run J S) :
    (site.applyAll scorer (none : Option C) more).Ends
      (fun fault _ => fault = .undefinedScore ∧ type = .full ∧
        ∃ made a rest site₁, ∃ run₁ : Run J S, more = made ++ a :: rest ∧
          (site.applyAll scorer (none : Option C) made).outcome run = (.ok site₁, run₁) ∧
          site₁.Spoils scorer a) run
      fun site' _ => site.Joined type size scorer more site' := by
  refine Effect.ends_foldlM_reached (fun done site' _ => site.Joined type size scorer done site')
    (.refl h) ?_
  intro done a rest site₁ run₁ hsplit hreached hjoined
  have ha : a ∈ more := by rw [hsplit]; simp
  refine ((apply_merged hjoined.ready (hlt a ha) run₁).allow fun _ _ hfault => ?_).imp
    fun site₂ _ hmerged => hjoined.trans hmerged.joined
  obtain ⟨hfault, hfull, hspoils⟩ := hfault
  exact ⟨hfault, hfull, done, a, rest, site₁, run₁, hsplit, hreached, hspoils⟩

/-! ### Applications that change nothing -/

/-- The site holds a score for the parent that the application does not exceed. -/
def Covers (scorer : Scorer S) (site : Site S) (a : Application S) : Prop :=
  ∃ e, site.cell.find? a.rule.parent = some e ∧
    Score.exceeds (a.score scorer site.start site.stop) e.score = false

/-- The site takes offers and holds what another one does. -/
structure Kept (type : CellType) (size : Nat) (site site' : Site S) : Prop where
  start_eq : site'.start = site.start
  stop_eq : site'.stop = site.stop
  aggregation_eq : site'.cell.aggregation = site.cell.aggregation
  ready : site'.cell.Ready type size
  find?_eq : ∀ sym, site'.cell.find? sym = site.cell.find? sym

theorem Kept.trans (h : site.Kept type size site₁) (h' : site₁.Kept type size site₂) :
    site.Kept type size site₂ where
  start_eq := h'.start_eq.trans h.start_eq
  stop_eq := h'.stop_eq.trans h.stop_eq
  aggregation_eq := h'.aggregation_eq.trans h.aggregation_eq
  ready := h'.ready
  find?_eq sym := (h'.find?_eq sym).trans (h.find?_eq sym)

theorem Kept.covers (h : site.Kept type size site₁) {a : Application S}
    (ha : site.Covers scorer a) : site₁.Covers scorer a := by
  unfold Covers
  rw [h.find?_eq, h.start_eq, h.stop_eq]
  exact ha

/-- A best score is kept if it is not exceeded. -/
theorem Covers.exists_entry {a : Application S} (h : site.Covers scorer a)
    (hagg : site.cell.aggregation = .viterbi) :
    ∃ e, site.cell.find? a.rule.parent = some e ∧
      (a.offer scorer site.start site.stop).merge site.cell.aggregation
        (site.cell.find? a.rule.parent) = e := by
  obtain ⟨e, he, hexceeds⟩ := h
  refine ⟨e, he, ?_⟩
  rw [hagg, he]
  exact if_neg (Bool.eq_false_iff.mp hexceeds)

theorem Merged.kept {a : Application S} (h : site.Merged type size scorer a site₁)
    (hagg : site.cell.aggregation = .viterbi) (ha : site.Covers scorer a) :
    site.Kept type size site₁ := by
  obtain ⟨e, he, hmerge⟩ := ha.exists_entry hagg
  refine ⟨h.start_eq, h.stop_eq, h.aggregation_eq, h.ready, fun sym => ?_⟩
  rw [h.find?_eq]
  split
  · rename_i hparent
    rw [← hparent, hmerge, he]
  · rfl

/-- **Applications that do not exceed the best scores change nothing.** -/
theorem applyAll_kept [CellConstraint C S] [JitterSource J] (h : site.cell.Ready type size)
    (hagg : site.cell.aggregation = .viterbi) (hlt : ∀ a ∈ more, a.rule.parent.index < size)
    (hcovers : ∀ a ∈ more, site.Covers scorer a) (run : Run J S) :
    (site.applyAll scorer (none : Option C) more).Ends (fun _ _ => False) run
      fun site' _ => site.Kept type size site' := by
  refine Effect.ends_foldlM (fun _ site' _ => site.Kept type size site')
    ⟨rfl, rfl, rfl, h, fun _ => rfl⟩ ?_
  intro done a rest site₁ run₁ hsplit hkept
  have ha : a ∈ more := by rw [hsplit]; simp
  have hcovers₁ := hkept.covers (hcovers a ha)
  have hagg₁ := hkept.aggregation_eq.trans hagg
  refine ((apply_merged hkept.ready (hlt a ha) run₁).allow fun _ _ hfault => ?_).imp
    fun site₂ _ hmerged => hkept.trans (hmerged.kept hagg₁ hcovers₁)
  -- what would be written is the entry that the cell holds, which is defined
  obtain ⟨-, rfl, hspoils⟩ := hfault
  obtain ⟨e, he, hmerge⟩ := hcovers₁.exists_entry hagg₁
  have hdefined := hkept.ready.tidy.defined hkept.ready.clear_eq rfl he
  rw [Spoils, hmerge, hdefined] at hspoils
  cases hspoils

end Site

/-! ## What unary rules make of a cell -/

namespace Grammar

/-- What the unary rules score for a symbol, from what a site holds of their children: the
child's score combined with the scorer's, for each rule whose child is present. -/
def unaryScores (g : Grammar S) (scorer : Scorer S) (site : Site S) (sym : Symbol) : List S :=
  g.rules.toList.filterMap fun r =>
    match r.rhs with
    | .unary y =>
      if r.parent = sym then (site.cell.value? y).map fun v =>
        Score.combine v (scorer.score r site.start site.stop site.stop)
      else none
    | _ => none

/-- The applications of the unary rules, in the order of the rules. -/
def unaryMade (g : Grammar S) (site : Site S) : List (Application S) :=
  g.rules.toList.filterMap fun r =>
    match r.rhs with
    | .unary y => (site.cell.value? y).map fun v => ⟨r, site.stop, some v⟩
    | _ => none

variable {g : Grammar S} {scorer : Scorer S} {site : Site S}

omit [Score S] in
theorem mem_unaryMade {a : Application S} :
    a ∈ g.unaryMade site ↔ ∃ r ∈ g.rules, ∃ y v, r.rhs = .unary y ∧
      site.cell.value? y = some v ∧ a = ⟨r, site.stop, some v⟩ := by
  simp only [unaryMade, List.mem_filterMap, Array.mem_toList_iff]
  refine exists_congr fun r => and_congr_right fun _ => ?_
  cases r.rhs <;> simp [eq_comm]

theorem scoresMade_unaryMade (sym : Symbol) :
    scoresMade scorer site.start site.stop (g.unaryMade site) sym =
      g.unaryScores scorer site sym := by
  unfold scoresMade unaryMade unaryScores
  rw [List.filter_filterMap, List.map_filterMap]
  refine List.filterMap_congr fun r _ => ?_
  cases r.rhs with
  | lexical t => rfl
  | binary y z => rfl
  | unary y =>
    cases hv : site.cell.value? y with
    | none => simp [hv]
    | some v => by_cases hparent : r.parent = sym <;> simp [hv, hparent, Application.score]

/-- What applications of unary rules score does not depend on the order in which children are
visited. -/
theorem Indexed.scoresMade_perm (h : g.Indexed) (scorer : Scorer S) (site : Site S)
    (sym : Symbol) :
    (scoresMade scorer site.start site.stop (g.unaryOrder.toList.flatMap (Chart.unaryRow g site))
      sym).Perm (g.unaryScores scorer site sym) := by
  have hnodup : (g.unaryOrder.toList.flatMap (Chart.unaryRow g site)).Nodup := by
    -- an application tells the child under which it is found
    refine nodup_flatMap_of_key (fun a => a.rule.leftChild) h.nodup_unaryOrder
      (fun y _ => Chart.nodup_unaryRow h site y) fun y _ a ha => ?_
    obtain ⟨r, _, v, hrhs, _, rfl⟩ := Chart.mem_unaryRow.mp ha
    simp [Rule.leftChild, hrhs]
  have hnodup' : (g.unaryMade site).Nodup := by
    refine nodup_filterMap_of_key (·.rule) h.nodup_rules fun r _ a ha => ?_
    cases hrhs : r.rhs with
    | lexical t => simp [hrhs] at ha
    | binary y z => simp [hrhs] at ha
    | unary y =>
      simp only [hrhs, Option.map_eq_some_iff] at ha
      obtain ⟨v, -, rfl⟩ := ha
      rfl
  have hperm : (g.unaryOrder.toList.flatMap (Chart.unaryRow g site)).Perm (g.unaryMade site) := by
    refine (List.perm_ext_iff_of_nodup hnodup hnodup').mpr fun a => ?_
    rw [List.mem_flatMap, mem_unaryMade]
    refine ⟨?_, ?_⟩
    · rintro ⟨y, -, ha⟩
      obtain ⟨r, hr, v, hrhs, hv, rfl⟩ := Chart.mem_unaryRow.mp ha
      exact ⟨r, hr, y, v, hrhs, hv, rfl⟩
    · rintro ⟨r, hr, y, v, hrhs, hv, rfl⟩
      exact ⟨y, Array.mem_toList_iff.mpr (h.child_mem_unaryOrder hr hrhs),
        Chart.mem_unaryRow.mpr ⟨r, hr, v, hrhs, hv, rfl⟩⟩
  rw [← scoresMade_unaryMade]
  exact (hperm.filter _).map _

theorem mem_unaryScores {sym : Symbol} {x : S} :
    x ∈ g.unaryScores scorer site sym ↔ ∃ r ∈ g.rules, r.parent = sym ∧ ∃ y v, r.rhs = .unary y ∧
      site.cell.value? y = some v ∧
      Score.combine v (scorer.score r site.start site.stop site.stop) = x := by
  simp only [← scoresMade_unaryMade, scoresMade, List.mem_map, List.mem_filter, mem_unaryMade,
    decide_eq_true_eq]
  refine ⟨?_, ?_⟩
  · rintro ⟨_, ⟨⟨r, hr, y, v, hrhs, hv, rfl⟩, hparent⟩, rfl⟩
    exact ⟨r, hr, hparent, y, v, hrhs, hv, rfl⟩
  · rintro ⟨r, hr, hparent, y, v, hrhs, hv, rfl⟩
    exact ⟨_, ⟨⟨r, hr, y, v, hrhs, hv, rfl⟩, hparent⟩, rfl⟩

end Grammar

/-! ## The sweep -/

namespace Chart

variable {chart : Chart S C} {scorer : Scorer S} {type : CellType} {site site₁ site' : Site S}

/-- The sweep has visited some children and come to a site. What it found for them is what it
would find for them now. -/
def Visited (chart : Chart S C) (scorer : Scorer S) (type : CellType) (site : Site S)
    (done : List Symbol) (site' : Site S) : Prop :=
  site.Joined type chart.grammar.nonterminalCount scorer
    (done.flatMap (unaryRow chart.grammar site')) site'

omit [Score S] in
/-- What is found for a child depends on the child's score. -/
theorem unaryRow_congr {g : Grammar S} {y : Symbol} (hstop : site'.stop = site.stop)
    (hvalue : site'.cell.value? y = site.cell.value? y) :
    unaryRow g site' y = unaryRow g site y := by
  unfold unaryRow
  rw [hstop, hvalue]

omit [Score S] in
theorem parent_lt_of_mem_unaryRow {g : Grammar S} (hg : g.Indexed) {child : Symbol}
    {a : Application S} (ha : a ∈ unaryRow g site child) :
    a.rule.parent.index < g.nonterminalCount := by
  obtain ⟨r, hr, v, -, -, rfl⟩ := mem_unaryRow.mp ha
  exact hg.parent_lt r hr

section

variable [CellConstraint C S] [JitterSource J]

/-- A sweep comes to an application that spoils the score of its parent: children have been
visited, and this is one of those found for the next child, after others were made. -/
def SweepSpoils (chart : Chart S C) (scorer : Scorer S) (site : Site S) (run : Run J S) : Prop :=
  ∃ done child rest made a more site₁ site₂, ∃ run₁ run₂ : Run J S,
    chart.grammar.unaryOrder.toList = done ++ child :: rest ∧
    (done.foldlM (chart.applyUnary scorer) site).outcome run = (.ok site₁, run₁) ∧
    unaryApplications chart.grammar site₁ child = .ok (made ++ a :: more) ∧
    (site₁.applyAll scorer chart.constraint made).outcome run₁ = (.ok site₂, run₂) ∧
    site₂.Spoils scorer a

/-- **One child is visited.** What is applied goes to symbols that are still to be visited, so
no score that was read changes. -/
theorem applyUnary_visited {done rest : List Symbol} {child : Symbol}
    (hg : chart.grammar.Indexed) (hnone : chart.constraint = none)
    (hsplit : chart.grammar.unaryOrder.toList = done ++ child :: rest)
    (h : chart.Visited scorer type site done site₁) (run : Run J S) :
    (chart.applyUnary scorer site₁ child).Ends
      (fun fault _ => fault = .undefinedScore ∧ type = .full ∧
        ∃ made a more site₂, ∃ run₂ : Run J S,
          unaryApplications chart.grammar site₁ child = .ok (made ++ a :: more) ∧
          (site₁.applyAll scorer chart.constraint made).outcome run = (.ok site₂, run₂) ∧
          site₂.Spoils scorer a) run
      fun site₂ _ => chart.Visited scorer type site (done ++ [child]) site₂ := by
  have hpair := hg.pairwise_unaryOrder
  rw [hsplit, List.pairwise_append] at hpair
  have hparent : ∀ a ∈ unaryRow chart.grammar site₁ child, ∀ y ∈ done ++ [child],
      a.rule.parent ≠ y := by
    intro a ha y hy
    obtain ⟨r, hr, v, hrhs, -, rfl⟩ := mem_unaryRow.mp ha
    rcases List.mem_append.mp hy with hy | hy
    · exact hpair.2.2 y hy child List.mem_cons_self r hr hrhs
    · rw [List.mem_singleton.mp hy]
      exact hg.parent_ne_child hr hrhs
  unfold applyUnary
  rw [hnone]
  refine Effect.ends_bind_ok (unaryApplications_eq hg site₁ child)
    (((Site.applyAll_joined h.ready (fun _ => parent_lt_of_mem_unaryRow hg) run).allow ?_).imp ?_)
  · rintro _ _ ⟨hfault, hfull, made, a, more, site₂, run₂, hrow, hreached, hspoils⟩
    exact ⟨hfault, hfull, made, a, more, site₂, run₂,
      (unaryApplications_eq hg site₁ child).trans (congrArg Except.ok hrow), hreached, hspoils⟩
  · intro site₂ _ hjoined
    have hrows : (done ++ [child]).flatMap (unaryRow chart.grammar site₂) =
        done.flatMap (unaryRow chart.grammar site₁) ++ unaryRow chart.grammar site₁ child := by
      rw [List.flatMap_congr fun y hy => unaryRow_congr hjoined.stop_eq
        (hjoined.value?_of_ne fun a ha => hparent a ha y hy), List.flatMap_append,
        List.flatMap_singleton]
    unfold Visited
    rw [hrows]
    exact Site.Joined.trans h hjoined

/-- **The sweep visits all children**, whatever the cell held before. -/
theorem sweepUnary_visited (hg : chart.grammar.Indexed) (hnone : chart.constraint = none)
    (h : site.cell.Ready type chart.grammar.nonterminalCount) (run : Run J S) :
    (chart.sweepUnary scorer site).Ends
      (fun fault _ => fault = .undefinedScore ∧ type = .full ∧ chart.SweepSpoils scorer site run)
      run
      fun site' _ => chart.Visited scorer type site chart.grammar.unaryOrder.toList site' := by
  refine Effect.ends_foldlM_reached
    (fun done site₁ _ => chart.Visited scorer type site done site₁) (Site.Joined.refl h) ?_
  intro done child rest site₁ run₁ hsplit hreached hvisited
  refine (applyUnary_visited hg hnone hsplit hvisited run₁).allow ?_
  rintro _ _ ⟨hfault, hfull, made, a, more, site₂, run₂, hfound, hmade, hspoils⟩
  exact ⟨hfault, hfull, done, child, rest, made, a, more, site₁, site₂, run₁, run₂, hsplit,
    hreached, hfound, hmade, hspoils⟩

end

/-! ## What it comes to -/

section

variable (hg : chart.grammar.Indexed)
  (h : chart.Visited scorer type site chart.grammar.unaryOrder.toList site')

include hg h

/-- Every score is the one before, joined to what the unary rules score from what the cell
holds now. -/
theorem Visited.value?_perm (sym : Symbol) :
    ∃ scores : List S, scores.Perm (chart.grammar.unaryScores scorer site' sym) ∧
      site'.cell.value? sym = scores.foldl site.cell.aggregation.join (site.cell.value? sym) := by
  refine ⟨_, hg.scoresMade_perm scorer site' sym, ?_⟩
  rw [h.value?_eq, h.start_eq, h.stop_eq]

/-- A symbol is present if it was so before, or is made by a unary rule from one that is. -/
theorem Visited.contains_iff (sym : Symbol) :
    site'.cell.contains sym = true ↔ site.cell.contains sym = true ∨
      ∃ y, Grammar.UnaryEdge chart.grammar.rules sym y ∧ site'.cell.contains y = true := by
  obtain ⟨scores, hperm, hvalue⟩ := h.value?_perm hg sym
  have hcontains : ∀ c : Cell S, c.contains sym = (c.value? sym).isSome := fun c =>
    (Option.isSome_map).symm
  rw [hcontains, hcontains, hvalue, Aggregation.isSome_foldl_join]
  refine or_congr_right ⟨fun hne => ?_, ?_⟩
  · obtain ⟨x, hx⟩ := List.exists_mem_of_ne_nil _ hne
    obtain ⟨r, hr, hparent, y, v, hrhs, hv, -⟩ := Grammar.mem_unaryScores.mp (hperm.mem_iff.mp hx)
    exact ⟨y, ⟨r, hr, hparent, hrhs⟩, Cell.contains_iff_value?.mpr ⟨v, hv⟩⟩
  · rintro ⟨y, ⟨r, hr, hparent, hrhs⟩, hy⟩
    obtain ⟨v, hv⟩ := Cell.contains_iff_value?.mp hy
    exact List.ne_nil_of_mem (hperm.mem_iff.mpr
      (Grammar.mem_unaryScores.mpr ⟨r, hr, hparent, y, v, hrhs, hv, rfl⟩))

/-- **A symbol is present if a chain of unary rules leads from it to one that was.** -/
theorem Visited.contains_iff_chain (sym : Symbol) :
    site'.cell.contains sym = true ↔ ∃ below, site.cell.contains below = true ∧
      Relation.ReflTransGen (Grammar.UnaryEdge chart.grammar.rules) sym below := by
  refine ⟨?_, ?_⟩
  -- rules lead down in rank, so the chain ends
  · induction hrank : chart.grammar.unaryRank sym using Nat.strong_induction_on
      generalizing sym with
    | h n ih =>
      intro hsym
      rcases (h.contains_iff hg sym).mp hsym with hbefore | ⟨y, hedge, hy⟩
      · exact ⟨sym, hbefore, .refl⟩
      · have hlt : chart.grammar.unaryRank y < n := by
          obtain ⟨r, hr, hparent, hrhs⟩ := hedge
          rw [← hrank, ← hparent]
          exact hg.unaryRank_lt hr hrhs
        obtain ⟨below, hbefore, hchain⟩ := ih _ hlt y rfl hy
        exact ⟨below, hbefore, .head hedge hchain⟩
  · rintro ⟨below, hbefore, hchain⟩
    induction hchain using Relation.ReflTransGen.head_induction_on with
    | refl => exact (h.contains_iff hg below).mpr (Or.inl hbefore)
    | head hedge _ ih => exact (h.contains_iff hg _).mpr (Or.inr ⟨_, hedge, ih⟩)

/-- After the sweep no unary rule makes a best score that would be better. -/
theorem Visited.covers [StrictScore S] (hagg : site.cell.aggregation = .viterbi) {child : Symbol}
    {a : Application S} (ha : a ∈ unaryRow chart.grammar site' child) : site'.Covers scorer a := by
  obtain ⟨scores, hperm, hvalue⟩ := h.value?_perm hg a.rule.parent
  rw [hagg] at hvalue
  have hscore : a.score scorer site'.start site'.stop ∈ scores := by
    obtain ⟨r, hr, v, hrhs, hv, rfl⟩ := mem_unaryRow.mp ha
    exact hperm.mem_iff.mpr
      (Grammar.mem_unaryScores.mpr ⟨r, hr, rfl, child, v, hrhs, hv, rfl⟩)
  obtain ⟨best, hbest⟩ := Option.isSome_iff_exists.mp
    ((Aggregation.isSome_foldl_join .viterbi scores (site.cell.value? a.rule.parent)).mpr
      (Or.inr (List.ne_nil_of_mem hscore)))
  obtain ⟨e, he, hscore'⟩ := Option.map_eq_some_iff.mp (hvalue.trans hbest)
  exact ⟨e, he, hscore' ▸ Aggregation.exceeds_foldl_join hbest _ hscore⟩

end

/-- **A sweep over a cell that no unary rule makes better changes nothing.** -/
theorem sweepUnary_kept [CellConstraint C S] [JitterSource J] (hg : chart.grammar.Indexed)
    (hnone : chart.constraint = none) (h : site.cell.Ready type chart.grammar.nonterminalCount)
    (hagg : site.cell.aggregation = .viterbi)
    (hcovers : ∀ child, ∀ a ∈ unaryRow chart.grammar site child, site.Covers scorer a)
    (run : Run J S) :
    (chart.sweepUnary scorer site).Ends (fun _ _ => False) run fun site' _ =>
      site.Kept type chart.grammar.nonterminalCount site' := by
  refine Effect.ends_foldlM
    (fun _ site' _ => site.Kept type chart.grammar.nonterminalCount site')
    ⟨rfl, rfl, rfl, h, fun _ => rfl⟩ ?_
  intro done child rest site₁ run₁ _ hkept
  have hrow : unaryRow chart.grammar site₁ child = unaryRow chart.grammar site child :=
    unaryRow_congr hkept.stop_eq (by rw [Cell.value?, Cell.value?, hkept.find?_eq])
  unfold applyUnary
  rw [hnone]
  refine Effect.ends_bind_ok (unaryApplications_eq hg site₁ child)
    ((Site.applyAll_kept hkept.ready (hkept.aggregation_eq.trans hagg)
      (fun _ => parent_lt_of_mem_unaryRow hg)
      (fun a ha => hkept.covers (hcovers child a (hrow ▸ ha))) run₁).imp
        fun _ _ hkept₂ => hkept.trans hkept₂)

/-- **One sweep reaches the fixpoint.** Over any accepted grammar, from an open cell that
breaks no ties and holds whatever it does, with any scorer: the sweep returns, unless it comes
to an application that would leave an undefined score in a dense cell. The score of a symbol
is then the one before, joined in some order to what each unary rule with a child that is
present scores from the child's final score; where the order is free, in the order of the
rules. The symbols present are those that a chain of unary rules leads from to one that was
present before. Among best scores that exceed each other in a strict order, a second sweep
returns and changes nothing that the cell holds. -/
theorem sweepUnary_fixpoint [CellConstraint C S] [JitterSource J]
    (hg : chart.grammar.Accepted) (hnone : chart.constraint = none)
    (hready : site.cell.Ready type chart.grammar.nonterminalCount) (scorer : Scorer S)
    (run : Run J S) :
    (∃ run', (chart.sweepUnary scorer site).outcome run = (.error .undefinedScore, run') ∧
      type = .full ∧ chart.SweepSpoils scorer site run) ∨
    ∃ site' run', (chart.sweepUnary scorer site).outcome run = (.ok site', run') ∧
      site'.start = site.start ∧ site'.stop = site.stop ∧
      (∀ sym, ∃ scores : List S, scores.Perm (chart.grammar.unaryScores scorer site' sym) ∧
        site'.cell.value? sym = scores.foldl site.cell.aggregation.join (site.cell.value? sym)) ∧
      (site.cell.aggregation.OrderFree S → ∀ sym, site'.cell.value? sym =
        (chart.grammar.unaryScores scorer site' sym).foldl site.cell.aggregation.join
          (site.cell.value? sym)) ∧
      (∀ sym, site'.cell.contains sym = true ↔ ∃ below, site.cell.contains below = true ∧
        Relation.ReflTransGen (Grammar.UnaryEdge chart.grammar.rules) sym below) ∧
      (site.cell.aggregation = .viterbi → StrictScore S → ∀ run₂ : Run J S, ∃ site'' run₂',
        (chart.sweepUnary scorer site').outcome run₂ = (.ok site'', run₂') ∧
          ∀ sym, site''.cell.find? sym = site'.cell.find? sym) := by
  have hvisited : (chart.sweepUnary scorer site).Ends _ run _ :=
    sweepUnary_visited hg.indexed hnone hready run
  cases hsweep : (chart.sweepUnary scorer site).outcome run with
  | mk result run' =>
  match result with
  | .error fault =>
    obtain ⟨rfl, hspoils⟩ := hvisited.of_outcome_error hsweep
    exact Or.inl ⟨run', rfl, hspoils⟩
  | .ok site' =>
    have h := hvisited.of_outcome hsweep
    refine Or.inr ⟨site', run', rfl, h.start_eq, h.stop_eq, h.value?_perm hg.indexed,
      fun hfree sym => ?_, h.contains_iff_chain hg.indexed, fun hagg _ run₂ => ?_⟩
    · obtain ⟨scores, hperm, hvalue⟩ := h.value?_perm hg.indexed sym
      rw [hvalue]
      exact hperm.foldl_eq' (fun a _ b _ old => hfree.join_comm old a b) _
    · obtain ⟨site'', run₂', hsweep₂, hkept⟩ := (sweepUnary_kept hg.indexed hnone h.ready
        (h.aggregation_eq.trans hagg) (fun _ _ => h.covers hg.indexed hagg) run₂).returns
      exact ⟨site'', run₂', hsweep₂, hkept.find?_eq⟩

/-- A dense cell that holds `A` at 5, swept over the small grammar with 2 for every rule: `S`
comes to 7, and stays there. -/
theorem sweepUnary_fixpoint_small :
    ∃ (chart : Chart (WithBot ℚ) (CellPredicate (WithBot ℚ)))
      (site site' site'' : Site (WithBot ℚ)) (run' run'' : Run Jitter (WithBot ℚ)),
      chart.grammar.Accepted ∧ chart.constraint = none ∧
      site.cell.Ready .full chart.grammar.nonterminalCount ∧
      site.cell.value? (.ofNat 0) = none ∧
      (chart.sweepUnary ⟨fun _ _ _ _ => 2⟩ site).outcome (.start (.ofSeed 0)) =
        (.ok site', run') ∧
      site'.cell.value? (.ofNat 1) = some 5 ∧ site'.cell.value? (.ofNat 0) = some 7 ∧
      (chart.sweepUnary ⟨fun _ _ _ _ => 2⟩ site').outcome run' = (.ok site'', run'') ∧
      site''.cell.value? (.ofNat 0) = some 7 := by
  obtain ⟨g, _, hg, _, _, _, hrules⟩ := Grammar.Small.accepted (WithBot ℚ) rfl rfl .leftChild
  have hlist : g.rules.toList = [⟨.ofNat 0, .ofNat 0, .binary (.ofNat 0) (.ofNat 0), 0⟩,
      ⟨.ofNat 1, .ofNat 0, .unary (.ofNat 1), 0⟩,
      ⟨.ofNat 2, .ofNat 1, .lexical (.ofNat 0), 0⟩] := by
    rw [hrules]
    rfl
  have hlt : (Symbol.ofNat 1).index < g.nonterminalCount :=
    hg.indexed.parent_lt ⟨.ofNat 2, .ofNat 1, .lexical (.ofNat 0), 0⟩
      (Array.mem_toList_iff.mp (by rw [hlist]; simp))
  have hempty : (Cell.empty .full .viterbi g.nonterminalCount : Cell (WithBot ℚ)).Ready .full
      g.nonterminalCount := Cell.ready_empty (by decide) _ _
  -- a new cell takes an offer for `A`
  obtain ⟨cell, -, hready, hagg, hfind⟩ | ⟨-, -, hundef⟩ :=
    hempty.offer (o := ⟨0, .ofRhs (.ofNat 1) (.lexical (.ofNat 0)) 0, 5⟩) hlt (Jitter.ofSeed 0)
  case inr => cases hundef
  have hne : Symbol.ofNat 0 ≠ Symbol.ofNat 1 := by decide
  have hnone : ∀ sym, (Cell.empty .full .viterbi g.nonterminalCount : Cell (WithBot ℚ)).find? sym =
      none := fun sym => by rw [Cell.find?, Cell.empty, CellStore.find?_empty]
  have hA : cell.value? (.ofNat 1) = some 5 := by
    simp [Cell.value?, hfind, hnone, Offer.entry, Rule.ofRhs]
  have hS : cell.value? (.ofNat 0) = none := by
    simp [Cell.value?, hfind, hnone, Rule.ofRhs, hne.symm]
  obtain ⟨_, _, _, _, _, _, _, a, _, _, _, _, _, _, _, _, _, hundef⟩ |
      ⟨site', run', hsweep, -, -, -, hvalue, -, hagain⟩ :=
    sweepUnary_fixpoint (C := CellPredicate (WithBot ℚ)) (J := Jitter)
      (show (.vacant g ⟨.viterbi, .full, .leftChild⟩ :
        Chart (WithBot ℚ) (CellPredicate (WithBot ℚ))).grammar.Accepted from hg) rfl
      (show (⟨0, 1, cell, none⟩ : Site (WithBot ℚ)).cell.Ready .full g.nonterminalCount from hready)
      ⟨fun _ _ _ _ => 2⟩ (.start (.ofSeed 0))
  case inl => cases hundef
  have hfree : Aggregation.viterbi.OrderFree (WithBot ℚ) :=
    ⟨inferInstance, fun _ _ => decide_eq_true_iff⟩
  have hvalue : ∀ sym, site'.cell.value? sym =
      (g.unaryScores ⟨fun _ _ _ _ => 2⟩ site' sym).foldl cell.aggregation.join
        (cell.value? sym) := hvalue (hagg ▸ hfree)
  rw [show cell.aggregation = .viterbi from hagg] at hvalue
  have hA' : site'.cell.value? (.ofNat 1) = some 5 := by
    rw [hvalue]
    simp [Grammar.unaryScores, hlist, hA, hne]
  have hS' : site'.cell.value? (.ofNat 0) = some 7 := by
    have hsum : (Score.combine 5 2 : WithBot ℚ) = 7 := show (5 + 2 : WithBot ℚ) = 7 by norm_num
    rw [hvalue]
    simp [Grammar.unaryScores, hlist, hA', hS, Aggregation.join, hsum]
  obtain ⟨site'', run'', hsweep', hkept⟩ := hagain hagg inferInstance run'
  exact ⟨_, _, site', site'', run', run'', hg, rfl, hready, hS, hsweep, hA', hS', hsweep',
    by rw [Cell.value?, hkept]; exact hS'⟩

end Chart

/-! ## A sweep over plus infinity -/

namespace WholeLog

/-- The small grammar over these scores. -/
def small : Grammar WholeLog :=
  .assemble Grammar.Small.nonterminals Grammar.Small.terminals (.ofNat 0)
    (Grammar.numbered (Grammar.Small.rules WholeLog)) .leftChild #[.ofNat 1, .ofNat 0]

theorem accepted_small : small.Accepted := by
  obtain ⟨_, hg, -⟩ := Grammar.Small.accepted WholeLog rfl rfl .leftChild
  obtain ⟨hroot, hvalid, -⟩ := Grammar.ofRules_eq_ok_iff.mp hg
  exact ⟨_, _, _, _, _, by decide,
    Grammar.ofRules_eq_ok_iff.mpr ⟨hroot, hvalid, _, Grammar.Small.unaryOrder_eq WholeLog, rfl⟩⟩

/-- Plus infinity for a symbol. -/
def infinite (sym : Symbol) : Offer WholeLog :=
  ⟨0, .ofRhs sym (.lexical (.ofNat 0)) (whole 0), posInfinity⟩

/-- **A sweep may pool plus infinity with itself.** A dense cell has taken plus infinity for
`A` and for `S`, and holds it for both. The rule from `A` to `S` offers it to `S` once more,
and the cell refuses the sum. -/
theorem sweepUnary_unbounded (jitter : Jitter) :
    small.Accepted ∧ ∃ (cell cell' : Cell WholeLog) (run' : Run Jitter WholeLog),
      (Cell.empty .full .inside small.nonterminalCount).offer (infinite (.ofNat 1)) jitter =
        .ok (cell, jitter) ∧
      cell.offer (infinite (.ofNat 0)) jitter = .ok (cell', jitter) ∧
      cell'.Ready .full small.nonterminalCount ∧
      cell'.value? (.ofNat 1) = some posInfinity ∧ cell'.value? (.ofNat 0) = some posInfinity ∧
      ((Chart.vacant small ⟨.inside, .full, .leftChild⟩ :
        Chart WholeLog (CellPredicate WholeLog)).sweepUnary unbounded ⟨0, 1, cell', none⟩).outcome
          (.start jitter) = (.error .undefinedScore, run') := by
  have hempty : (Cell.empty .full .inside small.nonterminalCount : Cell WholeLog).Ready .full
      small.nonterminalCount := Cell.ready_empty (by decide) _ _
  have hA : (infinite (.ofNat 1)).rule.parent.index < small.nonterminalCount := by decide
  have hS : (infinite (.ofNat 0)).rule.parent.index < small.nonterminalCount := by decide
  have hcell := hempty.of_offer_ok hA jitter rfl
  exact ⟨accepted_small, _, _, _, rfl, rfl, hcell.of_offer_ok hS jitter rfl, rfl, rfl, rfl⟩

end WholeLog

end ChartParsing
