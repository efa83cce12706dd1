import ChartParsing.Proofs.Outcome

/-!
# Two effects in step

Two computations are in step if they start in runs that are near each other and
come to the same end: both return, with results that are related and in runs that
are near again, or both stop at the same fault. What counts as near is a choice. It
may be that the same things have happened, that the same calls have been made,
log lines aside, or nothing at all.

The first computation may be the more cautious of the two: it may stop at some
faults that the second knows nothing of, and then nothing is said of the second.
-/

namespace ChartParsing

variable {J S α β γ δ : Type}

namespace Run

/-- What counts as two runs being near: an event that happens in both keeps them
so. -/
structure Nearness (J S : Type) where
  Near : Run J S → Run J S → Prop
  push : ∀ {run run' : Run J S} (event : Event S), Near run run' →
    Near (run.push event) (run'.push event)

namespace Nearness

/-- The same has happened in both runs. -/
def same : Nearness J S where
  Near run run' := run = run'
  push event h := by rw [h]

/-- The sources are the same, and since the calls `past` of the one run and `past'`
of the other the same calls have been made in both. -/
def since (past past' : List (Event S)) : Nearness J S where
  Near run run' := run.source = run'.source ∧
    ∃ new, run.calls = past ++ new ∧ run'.calls = past' ++ new
  push event h := by
    obtain ⟨hsource, new, hcalls, hcalls'⟩ := h
    refine ⟨hsource, new ++ event.calls, ?_, ?_⟩
    · rw [calls_push, hcalls, List.append_assoc]
    · rw [calls_push, hcalls', List.append_assoc]

/-- Anything may have happened. -/
def any : Nearness J S where
  Near _ _ := True
  push _ _ := trivial

/-- Any two runs are near at first if their sources are the same. -/
theorem since_start {run run' : Run J S} (h : run.source = run'.source) :
    (since run.calls run'.calls).Near run run' :=
  ⟨h, [], (List.append_nil _).symm, (List.append_nil _).symm⟩

end Nearness

end Run

section

variable {ε : Type} {stops : ε → Prop}

/-- Two results in step: both values, and related, or the same error; or the first
is an error that only the first may stop at. -/
inductive Matched (stops : ε → Prop) (post : α → β → Prop) : Except ε α → Except ε β → Prop where
  | ok {a : α} {b : β} : post a b → Matched stops post (.ok a) (.ok b)
  | error (e : ε) : Matched stops post (.error e) (.error e)
  | stop {e : ε} {result : Except ε β} : stops e → Matched stops post (.error e) result

namespace Matched

variable {R : α → β → Prop} {e : Except ε α} {e' : Except ε β}

theorem bind {post : γ → δ → Prop} {f : α → Except ε γ} {f' : β → Except ε δ}
    (he : Matched stops R e e') (hf : ∀ a b, R a b → Matched stops post (f a) (f' b)) :
    Matched stops post (e >>= f) (e' >>= f') := by
  cases he with
  | ok hab => exact hf _ _ hab
  | error e => exact .error e
  | stop hstop => exact .stop hstop

theorem imp {post : α → β → Prop} (h : Matched stops R e e') (himp : ∀ a b, R a b → post a b) :
    Matched stops post e e' := by
  cases h with
  | ok hab => exact .ok (himp _ _ hab)
  | error e => exact .error e
  | stop hstop => exact .stop hstop

theorem refl (e : Except ε α) : Matched stops Eq e e := by
  cases e with
  | ok a => exact .ok rfl
  | error e => exact .error e

/-- A result is in step with itself, and keeps what is known of it. -/
theorem of_forall {P : α → Prop} {e : Except ε α} (h : ∀ a, e = .ok a → P a) :
    Matched stops (fun a b => a = b ∧ P a) e e := by
  cases e with
  | ok a => exact .ok ⟨rfl, h a rfl⟩
  | error e => exact .error e

/-- Results in step that have no errors of their own are so with any, and it is known what
they are. -/
theorem known (h : Matched (fun _ => False) R e e') :
    Matched stops (fun a b => R a b ∧ e = .ok a ∧ e' = .ok b) e e' := by
  cases h with
  | ok hab => exact .ok ⟨hab, rfl, rfl⟩
  | error e => exact .error e
  | stop hstop => exact hstop.elim

/-- With no errors of its own, the first result is the second. -/
theorem eq {e e' : Except ε α} (h : Matched (fun _ => False) Eq e e') : e = e' := by
  cases h with
  | ok h => rw [h]
  | error e => rfl
  | stop hstop => exact hstop.elim

/-- A result that is in step with one that succeeds is an error of its own or
succeeds too. -/
theorem of_ok {a : α} (h : Matched stops R (.ok a) e') : ∃ b, e' = .ok b ∧ R a b := by
  cases h with
  | ok hab => exact ⟨_, rfl, hab⟩

/-- Two results in step with one that none of them may stop at are in step with each
other. -/
theorem join {R' : α → γ → Prop} {e'' : Except ε γ} (h : Matched stops R e e')
    (h' : Matched stops R' e e'') (hstops : ∀ error, e = .error error → ¬ stops error) :
    Matched (fun _ => False) (fun b c => ∃ a, R a b ∧ R' a c) e' e'' := by
  cases h with
  | ok hab =>
    cases h' with
    | ok hac => exact .ok ⟨_, hab, hac⟩
  | error e =>
    cases h' with
    | error => exact .error e
    | stop hstop => exact absurd hstop (hstops e rfl)
  | stop hstop => exact absurd hstop (hstops _ rfl)

end Matched

end

namespace Effect

/-- Two ends in step: related values in near runs, or the same fault in near runs.
The first alone may be a fault among `stops`. -/
inductive Ended (near : Run.Nearness J S) (stops : Fault → Prop) (post : α → β → Prop) :
    Except Fault α × Run J S → Except Fault β × Run J S → Prop where
  | ok {a : α} {b : β} {run run' : Run J S} : post a b → near.Near run run' →
      Ended near stops post (.ok a, run) (.ok b, run')
  | error (fault : Fault) {run run' : Run J S} : near.Near run run' →
      Ended near stops post (.error fault, run) (.error fault, run')
  | stop {fault : Fault} {run : Run J S} {result : Except Fault β × Run J S} : stops fault →
      Ended near stops post (.error fault, run) result

/-- Two ends in step with one that none of them may stop at are in step with each
other, as far as the calls go. -/
theorem Ended.join {stops : Fault → Prop} {past₀ past₁ past₂ : List (Event S)} {R : α → β → Prop}
    {R' : α → γ → Prop} {end₀ : Except Fault α × Run J S} {end₁ : Except Fault β × Run J S}
    {end₂ : Except Fault γ × Run J S} (h₁ : Ended (.since past₀ past₁) stops R end₀ end₁)
    (h₂ : Ended (.since past₀ past₂) stops R' end₀ end₂)
    (hstops : ∀ fault, end₀.1 = .error fault → ¬ stops fault) :
    Ended (.since past₁ past₂) (fun _ => False) (fun b c => ∃ a, R a b ∧ R' a c) end₁ end₂ := by
  have hnear : ∀ {run₀ run₁ run₂ : Run J S}, (Run.Nearness.since past₀ past₁).Near run₀ run₁ →
      (Run.Nearness.since past₀ past₂).Near run₀ run₂ →
      (Run.Nearness.since past₁ past₂).Near run₁ run₂ := by
    intro run₀ run₁ run₂ hn hn'
    obtain ⟨hsource, new, hcalls, hcalls₁⟩ := hn
    obtain ⟨hsource', new', hcalls', hcalls₂⟩ := hn'
    have hnew : new = new' := List.append_cancel_left (hcalls.symm.trans hcalls')
    exact ⟨hsource.symm.trans hsource', new, hcalls₁, hnew ▸ hcalls₂⟩
  cases h₁ with
  | ok hab hrun =>
    cases h₂ with
    | ok hac hrun' => exact .ok ⟨_, hab, hac⟩ (hnear hrun hrun')
  | error fault hrun =>
    cases h₂ with
    | error _ hrun' => exact .error fault (hnear hrun hrun')
    | stop hstop => exact absurd hstop (hstops fault rfl)
  | stop hstop => exact absurd hstop (hstops _ rfl)

/-- With no faults of its own, the first end says what the second is. -/
theorem Ended.results {near : Run.Nearness J S} {R : α → β → Prop} {r : Except Fault α}
    {r' : Except Fault β} {run run' : Run J S}
    (h : Ended near (fun _ => False) R (r, run) (r', run')) :
    Matched (fun _ => False) R r r' ∧ near.Near run run' := by
  cases h with
  | ok hab hrun => exact ⟨.ok hab, hrun⟩
  | error fault hrun => exact ⟨.error fault, hrun⟩
  | stop hstop => exact hstop.elim

/-- From near runs, two effects end in step. -/
def Lockstep (near : Run.Nearness J S) (stops : Fault → Prop) (x : Effect J S α)
    (y : Effect J S β) (post : α → β → Prop) : Prop :=
  ∀ run run', near.Near run run' → Ended near stops post (x.outcome run) (y.outcome run')

section

variable {near : Run.Nearness J S} {stops : Fault → Prop} {x : Effect J S α} {y : Effect J S β}
  {post : α → β → Prop}

theorem Lockstep.imp {post' : α → β → Prop} (h : Lockstep near stops x y post)
    (himp : ∀ a b, post a b → post' a b) : Lockstep near stops x y post' := by
  intro run run' hnear
  have hend := h run run' hnear
  generalize x.outcome run = r at hend
  generalize y.outcome run' = r' at hend
  cases hend with
  | ok hab hnear => exact .ok (himp _ _ hab) hnear
  | error fault hnear => exact .error fault hnear
  | stop hstop => exact .stop hstop

/-- Effects in step from one and the same run end alike. -/
theorem Lockstep.outcome_eq {x y : Effect J S α} (h : Lockstep .same (fun _ => False) x y Eq)
    (run : Run J S) : x.outcome run = y.outcome run := by
  have hend := h run run rfl
  generalize x.outcome run = r at hend
  generalize y.outcome run = r' at hend
  cases hend with
  | ok hab hrun =>
    subst hab
    cases hrun
    rfl
  | error fault hrun =>
    cases hrun
    rfl
  | stop hstop => exact hstop.elim

theorem lockstep_pure {a : α} {b : β} (h : post a b) :
    Lockstep near stops (pure a) (pure b) post :=
  fun _ _ hnear => .ok h hnear

theorem lockstep_throw (fault : Fault) :
    Lockstep near stops (throw fault : Effect J S α) (throw fault : Effect J S β) post :=
  fun _ _ hnear => .error fault hnear

theorem lockstep_emit (event : Event S) :
    Lockstep near stops (emit event) (emit event) fun _ _ => True :=
  fun _ _ hnear => .ok trivial (near.push event hnear)

theorem lockstep_lift {e : Except Fault α} {e' : Except Fault β} (h : Matched stops post e e') :
    Lockstep near stops (liftM e) (liftM e') post := by
  intro run run' hnear
  rw [outcome_lift, outcome_lift]
  cases h with
  | ok hab => exact .ok hab hnear
  | error fault => exact .error fault hnear
  | stop hstop => exact .stop hstop

theorem lockstep_bind {R : α → β → Prop} {f : α → Effect J S γ} {f' : β → Effect J S δ}
    {post : γ → δ → Prop} (hx : Lockstep near stops x y R)
    (hf : ∀ a b, R a b → Lockstep near stops (f a) (f' b) post) :
    Lockstep near stops (x >>= f) (y >>= f') post := by
  intro run run' hnear
  have hend := hx run run' hnear
  rw [outcome_bind, outcome_bind]
  generalize x.outcome run = r at hend
  generalize y.outcome run' = r' at hend
  cases hend with
  | ok hab hnear => exact hf _ _ hab _ _ hnear
  | error fault hnear => exact .error fault hnear
  | stop hstop => exact .stop hstop

/-- A read that both make, and what they do with it. -/
theorem lockstep_bind_lift {R : α → β → Prop} {e : Except Fault α} {e' : Except Fault β}
    {f : α → Effect J S γ} {f' : β → Effect J S δ} {post : γ → δ → Prop}
    (he : Matched stops R e e') (hf : ∀ a b, R a b → Lockstep near stops (f a) (f' b) post) :
    Lockstep near stops ((liftM e : Effect J S α) >>= f) ((liftM e' : Effect J S β) >>= f') post :=
  lockstep_bind (lockstep_lift he) hf

/-- An event that happens in both, and what follows it. -/
theorem lockstep_bind_emit {event : Event S} {f : Unit → Effect J S γ} {f' : Unit → Effect J S δ}
    {post : γ → δ → Prop} (hf : Lockstep near stops (f ()) (f' ()) post) :
    Lockstep near stops ((emit event : Effect J S Unit) >>= f)
      ((emit event : Effect J S Unit) >>= f') post :=
  lockstep_bind (lockstep_emit event) fun _ _ _ => hf

/-- Loops in step: their states stay related. -/
theorem lockstep_foldlM {R : α → β → Prop} {f : α → γ → Effect J S α} {f' : β → γ → Effect J S β}
    {xs : List γ} (hf : ∀ x ∈ xs, ∀ a b, R a b → Lockstep near stops (f a x) (f' b x) R) {a : α}
    {b : β} (hab : R a b) : Lockstep near stops (xs.foldlM f a) (xs.foldlM f' b) R := by
  induction xs generalizing a b with
  | nil => exact lockstep_pure hab
  | cons x xs ih =>
    rw [List.foldlM_cons, List.foldlM_cons]
    refine lockstep_bind (hf x List.mem_cons_self a b hab) fun a' b' hab' => ?_
    exact ih (fun y hy => hf y (List.mem_cons_of_mem _ hy)) hab'

/-- Effects that are sure to return, and make no calls, are in step with one another,
whatever they log. -/
theorem lockstep_of_ends {past past' : List (Event S)} {P : α → Prop} {Q : β → Prop}
    (hx : ∀ run, x.Ends (fun _ _ => False) run fun a run' => P a ∧ run.Quiet run')
    (hy : ∀ run, y.Ends (fun _ _ => False) run fun b run' => Q b ∧ run.Quiet run') :
    Lockstep (.since past past') stops x y fun a b => P a ∧ Q b := by
  intro run run' hnear
  obtain ⟨hsource, new, hcalls, hcalls'⟩ := hnear
  obtain ⟨a, run₁, hoa, ha, hsource₁, hcalls₁⟩ := (hx run).returns
  obtain ⟨b, run₁', hob, hb, hsource₁', hcalls₁'⟩ := (hy run').returns
  rw [hoa, hob]
  refine .ok ⟨ha, hb⟩ ⟨?_, new, hcalls₁.trans hcalls, hcalls₁'.trans hcalls'⟩
  rw [hsource₁, hsource₁', hsource]

/-- Effects that are sure to return are in step if nothing is asked of their runs. -/
theorem lockstep_any_of_ends {P : α → Prop} {Q : β → Prop}
    (hx : ∀ run, x.Ends (fun _ _ => False) run fun a _ => P a)
    (hy : ∀ run, y.Ends (fun _ _ => False) run fun b _ => Q b) :
    Lockstep .any stops x y fun a b => P a ∧ Q b := by
  intro run run' _
  obtain ⟨a, _, hoa, ha⟩ := (hx run).returns
  obtain ⟨b, _, hob, hb⟩ := (hy run').returns
  rw [hoa, hob]
  exact .ok ⟨ha, hb⟩ trivial

/-- An offer draws from the run's source, and leaves the source behind. -/
theorem outcome_offer [Score S] [JitterSource J] (cell : Cell S) (o : Offer S) (run : Run J S) :
    (Effect.offer cell o : Effect J S (Cell S)).outcome run =
      match cell.offer o run.source with
      | .ok (cell', source) => (.ok cell', { run with source })
      | .error fault => (.error fault, run) := by
  show outcome (do
    let result ← (liftM (cell.offer o run.source) : Effect J S (Cell S × J))
    set { run with source := result.2 }
    return result.1) run = _
  rw [outcome_bind, outcome_lift]
  cases cell.offer o run.source <;> rfl

/-- An offer that two cells take alike, from the same source. -/
theorem lockstep_offer [Score S] [JitterSource J] {past past' : List (Event S)} {c d : Cell S}
    {o : Offer S} {R : Cell S → Cell S → Prop}
    (h : ∀ source : J, Matched stops (fun a b => R a.1 b.1 ∧ a.2 = b.2) (c.offer o source)
      (d.offer o source)) :
    Lockstep (.since past past') stops (Effect.offer c o : Effect J S (Cell S)) (Effect.offer d o)
      R := by
  intro run run' hnear
  have hoffer := h run.source
  rw [outcome_offer, outcome_offer, ← hnear.1]
  generalize c.offer o run.source = r at hoffer
  generalize d.offer o run.source = r' at hoffer
  cases hoffer with
  | ok hab => exact .ok hab.1 ⟨hab.2, hnear.2⟩
  | error fault => exact .error fault hnear
  | stop hstop => exact .stop hstop

end

end Effect

end ChartParsing
