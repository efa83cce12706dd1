import ChartParsing.Chart.Site
import ChartParsing.Proofs.Cell.History

/-!
# Applications reach the cell

An application that is made at a site is scored, the constraint is asked, and
what it accepts is offered to the cell. So the cell of a site is at any time an
empty cell after the accepted offers of the applications made so far, in order.
Only two things can end this early: a score that is undefined, and a constraint
that has no answer.

Each application makes its own calls and no others: the scorer is asked once, and
after it the constraint, where there is one.
-/

namespace ChartParsing

variable {S C J : Type}

section

variable [CellConstraint C S]

/-- The offer may enter: nothing constrains it, or the constraint accepts it. -/
def admits (constraint : Option C) (start stop : Nat) (o : Offer S) : Bool :=
  match constraint with
  | none => true
  | some c =>
    match CellConstraint.accepts c start stop o.mid o.rule o.score with
    | .ok accepted => accepted
    | .error _ => false

/-- The constraint answers like a predicate over the spans of a sentence. No
constraint at all is the predicate that is always true. -/
def AnswersAs (constraint : Option C) (length : Nat) (p : CellPredicate S) : Prop :=
  ∀ start stop, start < stop → stop ≤ length → ∀ mid rule score,
    match constraint with
    | none => p.test start stop mid rule score = true
    | some c => CellConstraint.accepts c start stop mid rule score =
        .ok (p.test start stop mid rule score)

/-- The constraint has taken note of a sentence, and answers like a predicate over the
spans of it. -/
def Follows (announced : Except Fault (Option C)) (length : Nat) (p : CellPredicate S) : Prop :=
  ∃ constraint, announced = .ok constraint ∧ AnswersAs constraint length p

theorem Follows.answersAs {announced : Except Fault (Option C)} {length : Nat}
    {p : CellPredicate S} (h : Follows announced length p) {constraint : Option C}
    (hok : announced = .ok constraint) : AnswersAs constraint length p := by
  obtain ⟨_, h, hanswers⟩ := h
  cases hok.symm.trans h
  exact hanswers

theorem AnswersAs.admits_eq {constraint : Option C} {length : Nat} {p : CellPredicate S}
    (h : AnswersAs constraint length p) {start stop : Nat} (h₁ : start < stop) (h₂ : stop ≤ length)
    (o : Offer S) : admits constraint start stop o = p.test start stop o.mid o.rule o.score := by
  have hp := h start stop h₁ h₂ o.mid o.rule o.score
  unfold admits
  cases constraint with
  | none => exact hp.symm
  | some c =>
    simp only at hp ⊢
    rw [hp]

end

variable [Score S] [CellConstraint C S]

/-- The offer that an application makes over a span. -/
def Application.offer (scorer : Scorer S) (start stop : Nat) (a : Application S) : Offer S :=
  ⟨a.mid, a.rule, a.score scorer start stop⟩

/-- The offers that enter, of the applications made over a span. -/
def entering (scorer : Scorer S) (constraint : Option C) (start stop : Nat)
    (made : List (Application S)) : List (Offer S) :=
  (made.map (Application.offer scorer start stop)).filter (admits constraint start stop)

theorem entering_append (scorer : Scorer S) (constraint : Option C) (start stop : Nat)
    (made more : List (Application S)) :
    entering scorer constraint start stop (made ++ more) =
      entering scorer constraint start stop made ++ entering scorer constraint start stop more := by
  unfold entering
  rw [List.map_append, List.filter_append]

/-- What a constraint is asked about an offer over a span, with its answer. -/
def Offer.questions (constraint : Option C) (start stop : Nat) (o : Offer S) : List (Event S) :=
  match constraint with
  | none => []
  | some _ => [.consulted start stop o.mid o.rule.id o.score (admits constraint start stop o)]

/-- The calls made for an application over a span. -/
def Application.calls (scorer : Scorer S) (constraint : Option C) (start stop : Nat)
    (a : Application S) : List (Event S) :=
  .scored a.rule.id start a.mid stop ::
    (a.offer scorer start stop).questions constraint start stop

theorem mem_entering {scorer : Scorer S} {constraint : Option C} {start stop : Nat}
    {made : List (Application S)} {o : Offer S} :
    o ∈ entering scorer constraint start stop made ↔
      ∃ a ∈ made, admits constraint start stop (a.offer scorer start stop) = true ∧
        a.offer scorer start stop = o := by
  simp only [entering, List.mem_filter, List.mem_map]
  refine ⟨?_, ?_⟩
  · intro h
    rcases h with ⟨⟨a, ha, rfl⟩, hadmits⟩
    exact ⟨a, ha, hadmits, rfl⟩
  · intro h
    rcases h with ⟨a, ha, hadmits, rfl⟩
    exact ⟨⟨a, ha, rfl⟩, hadmits⟩

namespace Site

/-- The cell of the site refuses an application: it is dense, the application may enter,
and it brings its symbol an undefined score. -/
structure Refuses (type : CellType) (aggregation : Aggregation) (scorer : Scorer S)
    (constraint : Option C) (site : Site S) (a : Application S) : Prop where
  dense : type.isDense = true
  admits : admits constraint site.start site.stop (a.offer scorer site.start site.stop) = true
  spoils : (a.offer scorer site.start site.stop).Spoils aggregation
    (site.cell.find? a.rule.parent)

/-- The fault at which an application ends, and the run it ends in. -/
inductive Stops (type : CellType) (aggregation : Aggregation) (scorer : Scorer S)
    (constraint : Option C) (site : Site S) (a : Application S) (run : Run J S) :
    Fault → Run J S → Prop where
  /-- The cell refuses the application. -/
  | refused {run' : Run J S} : site.Refuses type aggregation scorer constraint a →
      run'.calls = run.calls ++ a.calls scorer constraint site.start site.stop →
      Stops type aggregation scorer constraint site a run .undefinedScore run'
  /-- The constraint has no answer. -/
  | unanswered {c : C} {fault : Fault} {run' : Run J S} : constraint = some c →
      CellConstraint.accepts c site.start site.stop a.mid a.rule
        (a.score scorer site.start site.stop) = .error fault →
      run'.calls = run.calls ++ [.scored a.rule.id site.start a.mid site.stop] →
      Stops type aggregation scorer constraint site a run fault run'

omit [Score S] in
theorem consult_ends (site : Site S) (constraint : Option C) (o : Offer S) (run : Run J S) :
    (site.consult constraint o).Ends
      (fun fault run' => ∃ c, constraint = some c ∧
        CellConstraint.accepts c site.start site.stop o.mid o.rule o.score = .error fault ∧
          run' = run) run
      fun accepted run' => accepted = admits constraint site.start site.stop o ∧
        run'.calls = run.calls ++ o.questions constraint site.start site.stop := by
  cases constraint with
  | none => exact Effect.ends_pure ⟨rfl, (List.append_nil _).symm⟩
  | some c =>
    refine Effect.ends_bind (Q := fun b run' => run' = run ∧
        CellConstraint.accepts c site.start site.stop o.mid o.rule o.score = .ok b)
      (Effect.ends_lift (fun _ h => ⟨rfl, h⟩) fun _ h => ⟨c, rfl, h, rfl⟩) ?_
    intro accepted run' h
    rcases h with ⟨rfl, haccepts⟩
    have hadmits : accepted = admits (some c) site.start site.stop o := by
      simp only [admits, haccepts]
    refine Effect.ends_bind_push (Effect.ends_pure ⟨hadmits, ?_⟩)
    rw [Run.calls_push, Offer.questions, ← hadmits]
    rfl

variable [JitterSource J] {type : CellType} {aggregation : Aggregation} {size : Nat}
  {scorer : Scorer S} {constraint : Option C}

/-- The cell of the site is an empty one after what entered of the applications
made. -/
def Made (J : Type) [JitterSource J] (type : CellType) (aggregation : Aggregation) (size : Nat)
    (scorer : Scorer S) (constraint : Option C) (made : List (Application S)) (site : Site S) :
    Prop :=
  site.cell.After J type aggregation size
    (entering scorer constraint site.start site.stop made)

/-- What making applications at a site leads to: they are made, the span and the filter
are the same, and only the symbols of their parents may have changed. -/
structure Grown (J : Type) [JitterSource J] (type : CellType) (aggregation : Aggregation)
    (size : Nat) (scorer : Scorer S) (constraint : Option C) (site : Site S)
    (made more : List (Application S)) (site' : Site S) : Prop where
  start_eq : site'.start = site.start
  stop_eq : site'.stop = site.stop
  filter_eq : site'.filter = site.filter
  made : site'.Made J type aggregation size scorer constraint (made ++ more)
  find?_eq : ∀ sym, (∀ a ∈ more, a.rule.parent ≠ sym) → site'.cell.find? sym = site.cell.find? sym

/-- What one application, made after others, adds to what enters. -/
theorem entering_concat (scorer : Scorer S) (constraint : Option C) (start stop : Nat)
    (made : List (Application S)) (a : Application S) :
    entering scorer constraint start stop (made ++ [a]) =
      entering scorer constraint start stop made ++
        if admits constraint start stop (a.offer scorer start stop) = true
          then [a.offer scorer start stop] else [] := by
  rw [entering_append]
  congr 1
  unfold entering
  rw [List.map_cons, List.map_nil, List.filter_cons, List.filter_nil]

/-- One application, made after others, with its calls. -/
theorem apply_ends {site : Site S} {made : List (Application S)}
    (h : site.Made J type aggregation size scorer constraint made) {a : Application S}
    (hlt : a.rule.parent.index < size) (run : Run J S) :
    (site.apply scorer constraint a).Ends (site.Stops type aggregation scorer constraint a run) run
      fun site' run' => site.Grown J type aggregation size scorer constraint made [a] site' ∧
        run'.calls = run.calls ++ a.calls scorer constraint site.start site.stop := by
  have henter := entering_concat scorer constraint site.start site.stop made a
  have hopen : site.cell.isClosed = false := by rw [Cell.isClosed, h.shape.1]; rfl
  have hscored : (run.push (.scored a.rule.id site.start a.mid site.stop)).calls =
      run.calls ++ [.scored a.rule.id site.start a.mid site.stop] := run.calls_push _
  refine Effect.ends_bind_push (Effect.ends_bind ((consult_ends site constraint
    (a.offer scorer site.start site.stop) _).allow ?_) ?_)
  · rintro fault _ ⟨c, hc, herror, rfl⟩
    exact .unanswered hc herror hscored
  intro accepted run₂ h
  obtain ⟨haccepted, hcalls⟩ := h
  rw [hscored, List.append_assoc] at hcalls
  cases accepted with
  | false =>
    -- turned away: the cell is open, so there is no fault and no change
    rw [if_neg (by simp), if_neg (by simp [hopen])]
    refine Effect.ends_pure ⟨⟨rfl, rfl, rfl, ?_, fun _ _ => rfl⟩, hcalls⟩
    unfold Made
    rw [henter, ← haccepted, if_neg (by simp), List.append_nil]
    exact h
  | true =>
    rw [if_pos rfl]
    refine Effect.ends_bind (Q := fun cell run' => site.Grown J type aggregation size scorer
      constraint made [a] { site with cell } ∧ run'.calls = run₂.calls)
      (Effect.ends_offer ?_ ?_) fun cell run' hgrown =>
        Effect.ends_pure ⟨hgrown.1, hgrown.2.trans hcalls⟩
    · intro cell source hoffer
      refine ⟨⟨rfl, rfl, rfl, ?_, ?_⟩, rfl⟩
      · unfold Made
        rw [henter, ← haccepted, if_pos rfl]
        exact Cell.After.offer h hoffer
      · intro sym hsym
        exact (h.find?_offer hoffer).2 sym (hsym a (by simp))
    · intro fault hfault
      rcases h.offer_ends (o := a.offer scorer site.start site.stop) hlt run₂.source with
        ⟨_, _, hok⟩ | ⟨hundef, hdense, hspoils⟩
      · cases hok.symm.trans hfault
      · cases hundef.symm.trans hfault
        exact .refused ⟨hdense, haccepted.symm, hspoils⟩ hcalls

/-- **Applications made in order enter in order**, and make their calls in order. Those
made before one that ends at a fault are made all the same. -/
theorem applyAll_ends {site : Site S} {made more : List (Application S)}
    (h : site.Made J type aggregation size scorer constraint made)
    (hlt : ∀ a ∈ more, a.rule.parent.index < size) (run : Run J S) :
    (site.applyAll scorer constraint more).Ends
      (fun fault run' => ∃ done a rest site₁, ∃ run₁ : Run J S, more = done ++ a :: rest ∧
        site.Grown J type aggregation size scorer constraint made done site₁ ∧
        run₁.calls =
          run.calls ++ done.flatMap (Application.calls scorer constraint site.start site.stop) ∧
        site₁.Stops type aggregation scorer constraint a run₁ fault run') run
      fun site' run' => site.Grown J type aggregation size scorer constraint made more site' ∧
        run'.calls =
          run.calls ++ more.flatMap (Application.calls scorer constraint site.start site.stop) := by
  refine Effect.ends_foldlM
    (fun done site' run' => site.Grown J type aggregation size scorer constraint made done site' ∧
      run'.calls =
        run.calls ++ done.flatMap (Application.calls scorer constraint site.start site.stop))
    ⟨⟨rfl, rfl, rfl, by rw [List.append_nil]; exact h, fun _ _ => rfl⟩,
      (List.append_nil _).symm⟩ ?_
  intro done a rest site₁ run₁ hsplit hinv
  obtain ⟨hgrown, hcalls⟩ := hinv
  have hends := apply_ends hgrown.made (hlt a (by rw [hsplit]; simp)) run₁
  refine (hends.allow fun fault run' hstops =>
    ⟨done, a, rest, site₁, run₁, hsplit, hgrown, hcalls, hstops⟩).imp ?_
  intro site₂ run₂ hinv₂
  obtain ⟨hgrown₂, hcalls₂⟩ := hinv₂
  rw [hgrown.start_eq, hgrown.stop_eq] at hcalls₂
  refine ⟨⟨hgrown₂.start_eq.trans hgrown.start_eq, hgrown₂.stop_eq.trans hgrown.stop_eq,
    hgrown₂.filter_eq.trans hgrown.filter_eq, ?_, ?_⟩, ?_⟩
  · rw [← List.append_assoc]
    exact hgrown₂.made
  · intro sym hsym
    rw [hgrown₂.find?_eq sym fun b hb => hsym b (List.mem_append_right _ hb),
      hgrown.find?_eq sym fun b hb => hsym b (List.mem_append_left _ hb)]
  · rw [hcalls₂, hcalls, List.append_assoc, List.flatMap_append, List.flatMap_singleton]

end Site

end ChartParsing
