import ChartParsing.Run

/-!
# How effects end

An effect takes a run and ends, with a value or at a fault, and with the run
after it. `outcome` reads that off, and `Ends` states it: the effect ends with a
value and a run that satisfy a postcondition, or at one of the faults that are
allowed, in a run that it is allowed in. With no fault allowed it says that the effect
returns.

The rules below take an effect apart along its binds. A loop is gone through with
an invariant on the part of the list that is done.

Of what happens in a run the calls to scorers and constraints count. Log lines may be
written in between.
-/

namespace ChartParsing

variable {J S α β : Type}

/-- A log line is no call. -/
def Event.calls : Event S → List (Event S)
  | .logged _ => []
  | event => [event]

namespace Run

/-- The run with one more event. -/
def push (run : Run J S) (event : Event S) : Run J S :=
  { run with events := run.events.push event }

/-- The calls a run has made to scorers and constraints: its events without the
log lines. -/
def calls (run : Run J S) : List (Event S) :=
  run.events.toList.filter fun
    | .logged _ => false
    | _ => true

theorem calls_push (run : Run J S) (event : Event S) :
    (run.push event).calls = run.calls ++ event.calls := by
  unfold calls push
  rw [Array.toList_push, List.filter_append]
  cases event <;> rfl

/-- The run has the source of another, and has made the same calls. -/
def Quiet (run run' : Run J S) : Prop := run'.source = run.source ∧ run'.calls = run.calls

/-- Log lines are no calls. -/
theorem quiet_logged (run : Run J S) (line : LogLine) : run.Quiet (run.push (.logged line)) :=
  ⟨rfl, by rw [calls_push]; exact List.append_nil _⟩

end Run

/-- A computation followed by another succeeds only if both do. -/
theorem bind_eq_ok {ε : Type} {x : Except ε α} {f : α → Except ε β} {b : β}
    (h : x >>= f = .ok b) : ∃ a, x = .ok a ∧ f a = .ok b := by
  cases x with
  | error e => cases h
  | ok a => exact ⟨a, rfl, h⟩

/-- A loop in `Except` whose reads all succeed gives the values read. -/
theorem mapM_eq_ok {ε : Type} {f : α → Except ε β} {g : α → β} {xs : List α}
    (h : ∀ x ∈ xs, f x = .ok (g x)) : xs.mapM f = .ok (xs.map g) := by
  induction xs with
  | nil => rfl
  | cons x xs ih =>
    rw [List.mapM_cons, h x List.mem_cons_self, ih fun y hy => h y (List.mem_cons_of_mem _ hy)]
    rfl

/-- An invariant carried through a loop in `Except` whose steps all succeed. -/
theorem foldlM_eq_ok {ε : Type} {f : β → α → Except ε β} {xs : List α} {b : β}
    (inv : List α → β → Prop) (h0 : inv [] b)
    (hstep : ∀ done x rest b, xs = done ++ x :: rest → inv done b →
      ∃ b', f b x = .ok b' ∧ inv (done ++ [x]) b') :
    ∃ b', xs.foldlM f b = .ok b' ∧ inv xs b' := by
  suffices h : ∀ todo done b, xs = done ++ todo → inv done b →
      ∃ b', todo.foldlM f b = .ok b' ∧ inv xs b' from h xs [] b rfl h0
  -- by induction on what is still to do, from any state that what is done has led to
  intro todo
  induction todo with
  | nil =>
    intro done b hxs hb
    exact ⟨b, rfl, by rw [hxs, List.append_nil]; exact hb⟩
  | cons x todo ih =>
    intro done b hxs hb
    obtain ⟨b₁, hf, hb₁⟩ := hstep done x todo b hxs hb
    obtain ⟨b₂, hfold, hb₂⟩ := ih (done ++ [x]) b₁ (by rw [hxs, List.append_assoc]; rfl) hb₁
    refine ⟨b₂, ?_, hb₂⟩
    rw [List.foldlM_cons, hf]
    exact hfold

/-- An invariant carried through a loop in `Except` that has succeeded. -/
theorem of_foldlM_eq_ok {ε : Type} {f : β → α → Except ε β} {xs : List α} {b b' : β}
    (inv : List α → β → Prop) (h : xs.foldlM f b = .ok b') (h0 : inv [] b)
    (hstep : ∀ done x rest b b', xs = done ++ x :: rest → inv done b → f b x = .ok b' →
      inv (done ++ [x]) b') : inv xs b' := by
  suffices hall : ∀ todo done b, xs = done ++ todo → inv done b → todo.foldlM f b = .ok b' →
      inv xs b' from hall xs [] b rfl h0 h
  intro todo
  induction todo with
  | nil =>
    intro done b hxs hb heq
    cases heq
    rw [hxs, List.append_nil]
    exact hb
  | cons x todo ih =>
    intro done b hxs hb heq
    rw [List.foldlM_cons] at heq
    cases hf : f b x with
    | error e =>
      rw [hf] at heq
      cases heq
    | ok b₁ =>
      rw [hf] at heq
      exact ih (done ++ [x]) b₁ (by rw [hxs, List.append_assoc]; rfl)
        (hstep done x todo b b₁ hxs hb hf) heq

/-- A loop in `Except` fails at one of its steps, and up to there an invariant was
carried. -/
theorem of_foldlM_eq_error {ε : Type} {f : β → α → Except ε β} {e : ε} {xs : List α}
    (inv : β → Prop) (hstep : ∀ x ∈ xs, ∀ b b', inv b → f b x = .ok b' → inv b') :
    ∀ {b : β}, xs.foldlM f b = .error e → inv b → ∃ x ∈ xs, ∃ b', inv b' ∧ f b' x = .error e := by
  induction xs with
  | nil => intro b h; cases h
  | cons x xs ih =>
    intro b h hb
    rw [List.foldlM_cons] at h
    cases hf : f b x with
    | error e' =>
      rw [hf] at h
      cases h
      exact ⟨x, List.mem_cons_self, b, hb, hf⟩
    | ok b₁ =>
      rw [hf] at h
      obtain ⟨y, hy, b', hb'⟩ := ih (fun y hy => hstep y (List.mem_cons_of_mem _ hy)) h
        (hstep x List.mem_cons_self b b₁ hb hf)
      exact ⟨y, List.mem_cons_of_mem _ hy, b', hb'⟩

/-- How a computation ends that has a state: with a value or an error, and in either
case with the state it leaves. -/
def endOf {ε σ : Type} (x : ExceptT ε (StateM σ) α) (s : σ) : Except ε α × σ :=
  StateT.run (ExceptT.run x) s

section

variable {ε σ : Type} {x : ExceptT ε (StateM σ) α} {f : α → ExceptT ε (StateM σ) β} {s s' : σ}

/-- What follows a value starts in the state left with it. -/
theorem endOf_bind_ok {a : α} (h : endOf x s = (.ok a, s')) :
    endOf (x >>= f) s = endOf (f a) s' := by
  unfold endOf at h
  simp only [endOf, ExceptT.run_bind, StateT.run_bind]
  rw [show StateT.run (ExceptT.run x) s = pure (Except.ok a, s') from h]
  rfl

/-- Nothing follows an error. -/
theorem endOf_bind_error {e : ε} (h : endOf x s = (.error e, s')) :
    endOf (x >>= f) s = (.error e, s') := by
  unfold endOf at h
  simp only [endOf, ExceptT.run_bind, StateT.run_bind]
  rw [show StateT.run (ExceptT.run x) s = pure (Except.error e, s') from h]
  rfl

end

namespace Effect

/-- How an effect ends from a run: with a value or at a fault, and in which run. -/
def outcome (x : Effect J S α) (run : Run J S) : Except Fault α × Run J S :=
  StateT.run (ExceptT.run x) run

/-- Effects are the same that end alike from every run. -/
theorem ext {x y : Effect J S α} (h : ∀ run, x.outcome run = y.outcome run) : x = y := funext h

@[simp]
theorem outcome_pure (a : α) (run : Run J S) : (pure a : Effect J S α).outcome run = (.ok a, run) :=
  rfl

@[simp]
theorem outcome_throw (f : Fault) (run : Run J S) :
    (throw f : Effect J S α).outcome run = (.error f, run) := rfl

@[simp]
theorem outcome_lift (e : Except Fault α) (run : Run J S) :
    (liftM e : Effect J S α).outcome run = (e, run) := rfl

@[simp]
theorem outcome_emit (event : Event S) (run : Run J S) :
    (emit event : Effect J S Unit).outcome run =
      (.ok (), { run with events := run.events.push event }) := rfl

/-- An effect followed by another: the second starts in the run that the first
one leaves, unless the first ends at a fault. -/
theorem outcome_bind (x : Effect J S α) (f : α → Effect J S β) (run : Run J S) :
    (x >>= f).outcome run =
      match x.outcome run with
      | (.ok a, run') => (f a).outcome run'
      | (.error fault, run') => (.error fault, run') := by
  cases h : x.outcome run with
  | mk r run' =>
    cases r with
    | ok a => exact endOf_bind_ok h
    | error fault => exact endOf_bind_error h

/-- From `run`, the effect ends with a value and a run that satisfy `post`, or with a
fault and a run that satisfy `faults`. -/
def Ends (faults : Fault → Run J S → Prop) (x : Effect J S α) (run : Run J S)
    (post : α → Run J S → Prop) : Prop :=
  match x.outcome run with
  | (.ok a, run') => post a run'
  | (.error fault, run') => faults fault run'

section

variable {faults : Fault → Run J S → Prop} {x : Effect J S α} {run : Run J S}
  {post : α → Run J S → Prop}

theorem ends_pure {a : α} (h : post a run) : (pure a : Effect J S α).Ends faults run post := h

theorem ends_emit {event : Event S} {post : Unit → Run J S → Prop}
    (h : post () { run with events := run.events.push event }) :
    (emit event : Effect J S Unit).Ends faults run post := h

theorem ends_lift {e : Except Fault α} (hok : ∀ a, e = .ok a → post a run)
    (herror : ∀ fault, e = .error fault → faults fault run) :
    (liftM e : Effect J S α).Ends faults run post := by
  cases e with
  | ok a => exact hok a rfl
  | error fault => exact herror fault rfl

theorem ends_lift_ok {e : Except Fault α} {a : α} (he : e = .ok a) (h : post a run) :
    (liftM e : Effect J S α).Ends faults run post := by
  subst he
  exact h

/-- What follows an effect starts where the effect ends. -/
theorem ends_bind_reached {f : α → Effect J S β} {Q : α → Run J S → Prop}
    {post : β → Run J S → Prop} (hx : x.Ends faults run Q)
    (hf : ∀ a run', x.outcome run = (.ok a, run') → Q a run' → (f a).Ends faults run' post) :
    (x >>= f).Ends faults run post := by
  unfold Ends at hx ⊢
  rw [outcome_bind]
  cases h : x.outcome run with
  | mk r run' =>
    rw [h] at hx
    cases r with
    | ok a => exact hf a run' h hx
    | error fault => exact hx

theorem ends_bind {f : α → Effect J S β} {Q : α → Run J S → Prop}
    {post : β → Run J S → Prop} (hx : x.Ends faults run Q)
    (hf : ∀ a run', Q a run' → (f a).Ends faults run' post) :
    (x >>= f).Ends faults run post :=
  ends_bind_reached hx fun a run' _ => hf a run'

/-- A computation that is known to succeed goes on with its value. -/
theorem ends_bind_ok {e : Except Fault α} {a : α} {f : α → Effect J S β}
    {post : β → Run J S → Prop} (he : e = .ok a) (hf : (f a).Ends faults run post) :
    ((liftM e : Effect J S α) >>= f).Ends faults run post := by
  refine ends_bind (Q := fun a' run' => a' = a ∧ run' = run) (ends_lift_ok he ⟨rfl, rfl⟩) ?_
  intro a' run' h
  rcases h with ⟨rfl, rfl⟩
  exact hf

/-- What follows an event starts in the run with the event. -/
theorem ends_bind_push {event : Event S} {f : Unit → Effect J S β} {post : β → Run J S → Prop}
    (hf : (f ()).Ends faults (run.push event) post) :
    ((emit event : Effect J S Unit) >>= f).Ends faults run post := by
  refine ends_bind (Q := fun _ run' => run' = run.push event) (ends_emit rfl) ?_
  intro _ run' heq
  rw [heq]
  exact hf

/-- What follows an event may start in any run. -/
theorem ends_bind_emit {event : Event S} {f : Unit → Effect J S β} {post : β → Run J S → Prop}
    (hf : ∀ run', (f ()).Ends faults run' post) :
    ((emit event : Effect J S Unit) >>= f).Ends faults run post :=
  ends_bind_push (hf _)

theorem Ends.imp {post' : α → Run J S → Prop} (h : x.Ends faults run post)
    (himp : ∀ a run', post a run' → post' a run') : x.Ends faults run post' := by
  unfold Ends at h ⊢
  cases hx : x.outcome run with
  | mk r run' =>
    rw [hx] at h
    cases r with
    | ok a => exact himp a run' h
    | error fault => exact h

/-- More faults may be allowed. -/
theorem Ends.allow {faults' : Fault → Run J S → Prop} (h : x.Ends faults run post)
    (himp : ∀ fault run', faults fault run' → faults' fault run') : x.Ends faults' run post := by
  unfold Ends at h ⊢
  cases hx : x.outcome run with
  | mk r run' =>
    rw [hx] at h
    cases r with
    | ok a => exact h
    | error fault => exact himp fault run' h

/-- An offer draws from the run's source, and leaves the source behind. -/
theorem ends_offer [Score S] [JitterSource J] {cell : Cell S} {o : Offer S}
    {post : Cell S → Run J S → Prop}
    (hok : ∀ cell' source, cell.offer o run.source = .ok (cell', source) →
      post cell' { run with source })
    (herror : ∀ fault, cell.offer o run.source = .error fault → faults fault run) :
    (Effect.offer cell o : Effect J S (Cell S)).Ends faults run post := by
  -- reading the run gives `run` itself, so the source drawn from is its own
  show Ends faults (do
    let result ← (liftM (cell.offer o run.source) : Effect J S (Cell S × J))
    set { run with source := result.2 }
    return result.1) run post
  refine ends_bind (Q := fun result run' => run' = run ∧
    cell.offer o run.source = .ok result) (ends_lift (fun _ h => ⟨rfl, h⟩) herror) ?_
  intro result run' hresult
  rcases result with ⟨cell', source⟩
  rcases hresult with ⟨rfl, h⟩
  exact hok cell' source h

/-- A loop goes on from where its first part has come to. -/
theorem outcome_foldlM_concat {f : β → α → Effect J S β} {xs : List α} {x : α} {b b' b'' : β}
    {run' run'' : Run J S} (hxs : (xs.foldlM f b).outcome run = (.ok b', run'))
    (hx : (f b' x).outcome run' = (.ok b'', run'')) :
    ((xs ++ [x]).foldlM f b).outcome run = (.ok b'', run'') := by
  rw [List.foldlM_append, outcome_bind, hxs]
  simp only [List.foldlM_cons, List.foldlM_nil, bind_pure, hx]

/-- An invariant carried through a loop. Each step starts where the steps before it have
come to. -/
theorem ends_foldlM_reached {f : β → α → Effect J S β} {xs : List α} {b : β}
    (inv : List α → β → Run J S → Prop) (h0 : inv [] b run)
    (hstep : ∀ done x rest b₁ run₁, xs = done ++ x :: rest →
      (done.foldlM f b).outcome run = (.ok b₁, run₁) → inv done b₁ run₁ →
      (f b₁ x).Ends faults run₁ fun b₂ run₂ => inv (done ++ [x]) b₂ run₂) :
    (xs.foldlM f b).Ends faults run fun b' run' => inv xs b' run' := by
  suffices h : ∀ todo done b₁ run₁, xs = done ++ todo →
      (done.foldlM f b).outcome run = (.ok b₁, run₁) → inv done b₁ run₁ →
      (todo.foldlM f b₁).Ends faults run₁ fun b' run' => inv xs b' run' from
    h xs [] b run rfl rfl h0
  -- as for loops in `Except`, by induction on what is still to do
  intro todo
  induction todo with
  | nil =>
    intro done b₁ run₁ hxs _ hb
    rw [hxs, List.append_nil]
    exact hb
  | cons x todo ih =>
    intro done b₁ run₁ hxs hdone hb
    rw [List.foldlM_cons]
    have hend := hstep done x todo b₁ run₁ hxs hdone hb
    unfold Ends at hend ⊢
    rw [outcome_bind]
    cases hx : (f b₁ x).outcome run₁ with
    | mk r run₂ =>
      rw [hx] at hend
      cases r with
      | error fault => exact hend
      | ok b₂ =>
        exact ih (done ++ [x]) b₂ run₂ (by rw [hxs, List.append_assoc]; rfl)
          (outcome_foldlM_concat hdone hx) hend

/-- An invariant carried through a loop. -/
theorem ends_foldlM {f : β → α → Effect J S β} {xs : List α} {b : β}
    (inv : List α → β → Run J S → Prop) (h0 : inv [] b run)
    (hstep : ∀ done x rest b run, xs = done ++ x :: rest → inv done b run →
      (f b x).Ends faults run fun b' run' => inv (done ++ [x]) b' run') :
    (xs.foldlM f b).Ends faults run fun b' run' => inv xs b' run' :=
  ends_foldlM_reached inv h0 fun done x rest b run hxs _ => hstep done x rest b run hxs

/-- Loops end alike if their steps are the same at all states that they come to. -/
theorem outcome_foldlM_congr {f g : β → α → Effect J S β} {xs : List α} (inv : β → Prop)
    (hfg : ∀ x ∈ xs, ∀ b, inv b → f b x = g b x)
    (hinv : ∀ x ∈ xs, ∀ b run, inv b → (g b x).Ends (fun _ _ => True) run fun b' _ => inv b') :
    ∀ {b : β} (run : Run J S), inv b →
      (xs.foldlM f b).outcome run = (xs.foldlM g b).outcome run := by
  induction xs with
  | nil => intro b run _; rfl
  | cons x xs ih =>
    intro b run hb
    have hend := hinv x List.mem_cons_self b run hb
    rw [List.foldlM_cons, List.foldlM_cons, hfg x List.mem_cons_self b hb, outcome_bind,
      outcome_bind]
    unfold Ends at hend
    cases hx : (g b x).outcome run with
    | mk r run' =>
      rw [hx] at hend
      cases r with
      | error fault => rfl
      | ok b' =>
        exact ih (fun y hy => hfg y (List.mem_cons_of_mem _ hy))
          (fun y hy => hinv y (List.mem_cons_of_mem _ hy)) run' hend

/-- With no fault allowed, the effect returns. -/
theorem Ends.returns (h : x.Ends (fun _ _ => False) run post) :
    ∃ a run', x.outcome run = (.ok a, run') ∧ post a run' := by
  unfold Ends at h
  cases hx : x.outcome run with
  | mk r run' =>
    rw [hx] at h
    cases r with
    | ok a => exact ⟨a, run', rfl, h⟩
    | error fault => exact h.elim

/-- What holds of every value an effect ends with holds of the one it returned. -/
theorem Ends.of_outcome {a : α} {run' : Run J S} (h : x.Ends faults run post)
    (hx : x.outcome run = (.ok a, run')) : post a run' := by
  unfold Ends at h
  rw [hx] at h
  exact h

/-- An effect that ended at a fault ended at one that is allowed. -/
theorem Ends.of_outcome_error {fault : Fault} {run' : Run J S} (h : x.Ends faults run post)
    (hx : x.outcome run = (.error fault, run')) : faults fault run' := by
  unfold Ends at h
  rw [hx] at h
  exact h

/-- Every effect ends in some way. -/
theorem ends_trivial (x : Effect J S α) (run : Run J S) :
    x.Ends (fun _ _ => True) run fun _ _ => True := by
  unfold Ends
  cases x.outcome run with
  | mk r _ => cases r <;> trivial

/-- What is known of an end on two grounds. -/
theorem Ends.and {faults' : Fault → Run J S → Prop} {post' : α → Run J S → Prop}
    (h : x.Ends faults run post) (h' : x.Ends faults' run post') :
    x.Ends faults run fun a run' => post a run' ∧ post' a run' := by
  unfold Ends at h h' ⊢
  cases hx : x.outcome run with
  | mk r run' =>
    rw [hx] at h h'
    cases r with
    | ok a => exact ⟨h, h'⟩
    | error fault => exact h

end

end Effect

end ChartParsing
