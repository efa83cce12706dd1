import ChartParsing.Chart.Site
import ChartParsing.Grammar
import ChartParsing.Span

/-!
# Steps

A step is a rule at a place: the span it makes and where it splits it. Over one
span a lexical rule has a step if the token is its terminal, a unary rule has
one, and a binary rule has one for each split. `Grammar.steps` lists each of them
once.

A step can be made when the symbols it is made from have scores. `Applies` says
which applications the finished scores allow, and `applications` lists them.
-/

namespace ChartParsing

variable {S : Type}

/-- A rule at a place. A lexical step is split at its start, a unary one at its
end. -/
structure Step (S : Type) where
  rule : Rule S
  start : Nat
  mid : Nat
  stop : Nat

/-- Where a right-hand side splits a span: nowhere, if it does not fit. -/
def Rhs.mids (sentence : List Symbol) (start stop : Nat) : Rhs → List Nat
  | .lexical t => if stop = start + 1 ∧ sentence[start]? = some t then [start] else []
  | .unary _ => [stop]
  | .binary _ _ => Span.splits start stop

/-- The steps that make a span. -/
def Grammar.steps (g : Grammar S) (sentence : List Symbol) (start stop : Nat) : List (Step S) :=
  g.rules.toList.flatMap fun r =>
    (r.rhs.mids sentence start stop).map fun mid => ⟨r, start, mid, stop⟩

theorem Grammar.mem_steps {g : Grammar S} {sentence : List Symbol} {start stop : Nat}
    {st : Step S} :
    st ∈ g.steps sentence start stop ↔
      st.rule ∈ g.rules ∧ st.start = start ∧ st.stop = stop ∧
        st.mid ∈ st.rule.rhs.mids sentence start stop := by
  simp only [steps, List.mem_flatMap, List.mem_map, Array.mem_toList_iff]
  refine ⟨?_, ?_⟩
  · intro h
    rcases h with ⟨r, hr, mid, hmid, rfl⟩
    exact ⟨hr, rfl, rfl, hmid⟩
  · intro h
    rcases h with ⟨hr, rfl, rfl, hmid⟩
    exact ⟨st.rule, hr, st.mid, hmid, rfl⟩

theorem Rhs.nodup_mids (rhs : Rhs) (sentence : List Symbol) (start stop : Nat) :
    (rhs.mids sentence start stop).Nodup := by
  cases rhs with
  | lexical t =>
    rw [mids]
    split
    · exact List.nodup_cons.mpr ⟨by simp, List.nodup_nil⟩
    · exact List.nodup_nil
  | unary y => exact List.nodup_cons.mpr ⟨by simp, List.nodup_nil⟩
  | binary y z => exact List.nodup_range'

/-- Lists that are made one after another from different elements hold nothing
twice, if each holds nothing twice and its elements tell where they come from. -/
theorem nodup_flatMap_of_key {α β : Type} {xs : List α} {f : α → List β} (key : β → α)
    (hxs : xs.Nodup) (hf : ∀ x ∈ xs, (f x).Nodup) (hkey : ∀ x ∈ xs, ∀ y ∈ f x, key y = x) :
    (xs.flatMap f).Nodup := by
  -- an element of two of the lists would have two keys
  refine List.pairwise_flatMap.mpr ⟨hf, hxs.imp_of_mem ?_⟩
  intro a b ha hb hab x hx y hy heq
  subst heq
  exact hab ((hkey a ha x hx).symm.trans (hkey b hb x hy))

theorem nodup_map_of_key {α β : Type} {xs : List α} {f : α → β} (key : β → α) (hxs : xs.Nodup)
    (hkey : ∀ x, key (f x) = x) : (xs.map f).Nodup := by
  refine List.Pairwise.map _ ?_ hxs
  intro a b hab heq
  exact hab (by rw [← hkey a, heq, hkey b])

theorem nodup_filterMap_of_key {α β : Type} {xs : List α} {f : α → Option β} (key : β → α)
    (hxs : xs.Nodup) (hkey : ∀ x ∈ xs, ∀ y, f x = some y → key y = x) :
    (xs.filterMap f).Nodup := by
  refine List.pairwise_filterMap.mpr (hxs.imp_of_mem ?_)
  intro a b ha hb hab x hx y hy heq
  subst heq
  exact hab ((hkey a ha x hx).symm.trans (hkey b hb x hy))

/-- No step is listed twice. -/
theorem Grammar.nodup_steps {g : Grammar S} (h : g.rules.toList.Nodup) (sentence : List Symbol)
    (start stop : Nat) : (g.steps sentence start stop).Nodup := by
  refine nodup_flatMap_of_key Step.rule h ?_ ?_
  · intro r _
    exact nodup_map_of_key Step.mid (r.rhs.nodup_mids sentence start stop) fun _ => rfl
  · intro r _ st hst
    obtain ⟨mid, _, rfl⟩ := List.mem_map.mp hst
    rfl

/-! ## What finished scores allow -/

/-- The score of a symbol over a span, if it is present there. -/
abbrev Values (S : Type) := Symbol → Nat → Nat → Option S

variable [Score S]

/-- The application of a step, if the symbols it is made from are present. -/
def Step.application? (V : Values S) (st : Step S) : Option (Application S) :=
  match st.rule.rhs with
  | .lexical _ => some ⟨st.rule, st.mid, none⟩
  | .unary y => (V y st.start st.stop).map fun v => ⟨st.rule, st.mid, some v⟩
  | .binary y z =>
    (V y st.start st.mid).bind fun v =>
      (V z st.mid st.stop).map fun w => ⟨st.rule, st.mid, some (Score.combine v w)⟩

/-- The applications over a span. -/
def applications (g : Grammar S) (sentence : List Symbol) (V : Values S) (start stop : Nat) :
    List (Application S) :=
  (g.steps sentence start stop).filterMap (Step.application? V)

/-- The rule applies over the span: its terminal is the token, or the symbols on
its right-hand side are present, and `children` is their score. -/
inductive Applies (g : Grammar S) (sentence : List Symbol) (V : Values S) (start stop : Nat) :
    Application S → Prop where
  | lexical {r : Rule S} {t : Symbol} : r ∈ g.rules → r.rhs = .lexical t → stop = start + 1 →
      sentence[start]? = some t → Applies g sentence V start stop ⟨r, start, none⟩
  | unary {r : Rule S} {y : Symbol} {v : S} : r ∈ g.rules → r.rhs = .unary y →
      V y start stop = some v → Applies g sentence V start stop ⟨r, stop, some v⟩
  | binary {r : Rule S} {y z : Symbol} {v w : S} {mid : Nat} : r ∈ g.rules →
      r.rhs = .binary y z → start < mid → mid < stop → V y start mid = some v →
      V z mid stop = some w → Applies g sentence V start stop ⟨r, mid, some (Score.combine v w)⟩

section

variable {g : Grammar S} {sentence : List Symbol} {V : Values S} {start stop : Nat}
  {a b : Application S}

theorem Applies.rule_mem (h : Applies g sentence V start stop a) : a.rule ∈ g.rules := by
  cases h <;> assumption

/-- What applies is the application of the step with its rule and its split. -/
theorem Applies.application?_eq (h : Applies g sentence V start stop a) :
    (⟨a.rule, start, a.mid, stop⟩ : Step S).application? V = some a := by
  cases h with
  | lexical _ hrhs _ _ => simp [Step.application?, hrhs]
  | unary _ hrhs hv => simp [Step.application?, hrhs, hv]
  | binary _ hrhs _ _ hv hw => simp [Step.application?, hrhs, hv, hw]

/-- An application is known by its rule and its split. -/
theorem Applies.eq_of_split (ha : Applies g sentence V start stop a)
    (hb : Applies g sentence V start stop b) (hrule : a.rule = b.rule) (hmid : a.mid = b.mid) :
    a = b := by
  have hstep := ha.application?_eq
  rw [hrule, hmid, hb.application?_eq] at hstep
  exact (Option.some.inj hstep).symm

/-- What applies is over a span of the sentence, if what is present is. -/
theorem Applies.span (h : Applies g sentence V start stop a)
    (hV : ∀ {sym start stop v}, V sym start stop = some v →
      start < stop ∧ stop ≤ sentence.length) :
    start < stop ∧ stop ≤ sentence.length := by
  cases h with
  | lexical _ _ hstop ht =>
    obtain ⟨hlt, _⟩ := List.getElem?_eq_some_iff.mp ht
    omega
  | unary _ _ hv => exact hV hv
  | binary _ _ h₁ h₂ _ hw =>
    have hspan := hV hw
    omega

end

theorem Step.application?_eq_some {V : Values S} {st : Step S} {a : Application S}
    (h : st.application? V = some a) : a.rule = st.rule ∧ a.mid = st.mid := by
  unfold application? at h
  split at h
  · cases h
    exact ⟨rfl, rfl⟩
  · obtain ⟨v, _, rfl⟩ := Option.map_eq_some_iff.mp h
    exact ⟨rfl, rfl⟩
  · obtain ⟨v, _, hw⟩ := Option.bind_eq_some_iff.mp h
    obtain ⟨w, _, rfl⟩ := Option.map_eq_some_iff.mp hw
    exact ⟨rfl, rfl⟩

/-- A step applies if all it is made from is present. -/
theorem Step.isSome_application? {V : Values S} {st : Step S} :
    (st.application? V).isSome = match st.rule.rhs with
      | .lexical _ => true
      | .unary y => (V y st.start st.stop).isSome
      | .binary y z => (V y st.start st.mid).isSome && (V z st.mid st.stop).isSome := by
  unfold application?
  cases st.rule.rhs with
  | lexical t => rfl
  | unary y => exact Option.isSome_map
  | binary y z =>
    cases hv : V y st.start st.mid with
    | none => simp [hv]
    | some v => simp [hv]

/-- The list is what the rules allow. -/
theorem mem_applications {g : Grammar S} {sentence : List Symbol} {V : Values S}
    {start stop : Nat} {a : Application S} :
    a ∈ applications g sentence V start stop ↔ Applies g sentence V start stop a := by
  simp only [applications, List.mem_filterMap, Grammar.mem_steps]
  refine ⟨?_, ?_⟩
  · intro hx
    rcases hx with ⟨⟨r, _, mid, _⟩, ⟨hr, rfl, rfl, hmid⟩, ha⟩
    cases hrhs : r.rhs with
    | lexical t =>
      simp only [Step.application?, hrhs, Rhs.mids] at ha hmid
      split at hmid
      · rename_i hfit
        rw [List.mem_singleton.mp hmid] at ha
        cases ha
        exact .lexical hr hrhs hfit.1 hfit.2
      · exact absurd hmid (by simp)
    | unary y =>
      simp only [Step.application?, hrhs, Rhs.mids, List.mem_singleton] at ha hmid
      obtain ⟨v, hv, rfl⟩ := Option.map_eq_some_iff.mp ha
      rw [hmid]
      exact .unary hr hrhs hv
    | binary y z =>
      simp only [Step.application?, hrhs, Rhs.mids] at ha hmid
      obtain ⟨v, hv, hrest⟩ := Option.bind_eq_some_iff.mp ha
      obtain ⟨w, hw, rfl⟩ := Option.map_eq_some_iff.mp hrest
      obtain ⟨h₁, h₂⟩ := Span.mem_splits.mp hmid
      exact .binary hr hrhs h₁ h₂ hv hw
  · intro h
    refine ⟨⟨a.rule, start, a.mid, stop⟩, ⟨h.rule_mem, rfl, rfl, ?_⟩, h.application?_eq⟩
    cases h with
    | lexical _ hrhs hstop ht => simp [Rhs.mids, hrhs, hstop, ht]
    | unary _ hrhs _ => simp [Rhs.mids, hrhs]
    | binary _ hrhs h₁ h₂ _ _ =>
      simp only [Rhs.mids, hrhs]
      exact Span.mem_splits.mpr ⟨h₁, h₂⟩

/-- A step that applies is over a span of the sentence, if what is present is. -/
theorem Step.span_of_isSome_application? {g : Grammar S} {sentence : List Symbol} {V : Values S}
    (hV : ∀ {sym start stop v}, V sym start stop = some v →
      start < stop ∧ stop ≤ sentence.length) {st : Step S}
    (hst : st ∈ g.steps sentence st.start st.stop) (happ : (st.application? V).isSome = true) :
    st.start < st.stop ∧ st.stop ≤ sentence.length := by
  obtain ⟨a, ha⟩ := Option.isSome_iff_exists.mp happ
  exact (mem_applications.mp (List.mem_filterMap.mpr ⟨st, hst, ha⟩)).span hV

/-- No application is listed twice. -/
theorem nodup_applications {g : Grammar S} (h : g.rules.toList.Nodup) (sentence : List Symbol)
    (V : Values S) (start stop : Nat) : (applications g sentence V start stop).Nodup := by
  refine nodup_filterMap_of_key (fun a => ⟨a.rule, start, a.mid, stop⟩)
    (g.nodup_steps h sentence start stop) ?_
  intro st hst a ha
  rcases st with ⟨r, _, mid, _⟩
  obtain ⟨_, rfl, rfl, _⟩ := Grammar.mem_steps.mp hst
  obtain ⟨hrule, hmid⟩ := Step.application?_eq_some ha
  rw [hrule, hmid]

/-- What applies over a span depends on the scores within it. -/
theorem Applies.congr {g : Grammar S} {sentence : List Symbol} {V W : Values S}
    {start stop : Nat} (hV : ∀ sym s e, start ≤ s → e ≤ stop → V sym s e = W sym s e)
    {a : Application S} (h : Applies g sentence V start stop a) :
    Applies g sentence W start stop a := by
  cases h with
  | lexical hr hrhs hstop ht => exact .lexical hr hrhs hstop ht
  | unary hr hrhs hv => exact .unary hr hrhs (by rw [← hV _ _ _ (by omega) (by omega)]; exact hv)
  | binary hr hrhs h₁ h₂ hv hw =>
    exact .binary hr hrhs h₁ h₂ (by rw [← hV _ _ _ (by omega) (by omega)]; exact hv)
      (by rw [← hV _ _ _ (by omega) (by omega)]; exact hw)

end ChartParsing
