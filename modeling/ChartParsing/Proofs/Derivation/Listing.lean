import ChartParsing.Proofs.Derivation
import Mathlib.Data.Set.Finite.Basic
import Mathlib.Data.Finset.Dedup

/-!
# Listing derivations

If a predicate looks at no scores, whether it admits a derivation can be said step
by step. Then the derivations of a symbol over a span are those with one of the
admitted steps at the top and derivations of its children below: a list of them is
made from lists of the children's, each derivation coming once. By induction over
spans and ranks there are finitely many, although the grammar is recursive, because
unary rules have no cycles.
-/

namespace ChartParsing

variable {S : Type} [Score S]

/-- The predicate looks at no score. -/
def CellPredicate.ScoreFree (p : CellPredicate S) : Prop :=
  ∀ start stop mid rule (x y : S), p.test start stop mid rule x = p.test start stop mid rule y

/-- What the predicate says of a step, whatever its score. -/
def CellPredicate.admitsStep (p : CellPredicate S) (st : Step S) : Bool :=
  p.test st.start st.stop st.mid st.rule Score.certain

theorem CellPredicate.ScoreFree.topAdmitted_iff {p : CellPredicate S} (h : p.ScoreFree)
    (scorer : Scorer S) (d : Derivation S) :
    d.TopAdmitted scorer p ↔ p.admitsStep d.top = true := by
  unfold Derivation.TopAdmitted admitsStep
  rw [h _ _ _ _ (d.score scorer) Score.certain]
  rfl

/-- The admitted steps that make a symbol over a span. -/
def Grammar.stepsFor (g : Grammar S) (sentence : List Symbol) (p : CellPredicate S) (sym : Symbol)
    (start stop : Nat) : List (Step S) :=
  (g.steps sentence start stop).filter fun st => st.rule.parent = sym ∧ p.admitsStep st = true

theorem Grammar.mem_stepsFor {g : Grammar S} {sentence : List Symbol} {p : CellPredicate S}
    {sym : Symbol} {start stop : Nat} {st : Step S} :
    st ∈ g.stepsFor sentence p sym start stop ↔
      st ∈ g.steps sentence start stop ∧ st.rule.parent = sym ∧ p.admitsStep st = true := by
  rw [stepsFor, List.mem_filter, decide_eq_true_iff]

omit [Score S] in
/-- The derivations with a step at the top, made from those listed for its
children. -/
def Step.expansions (below : Symbol → Nat → Nat → List (Derivation S)) (st : Step S) :
    List (Derivation S) :=
  match st.rule.rhs with
  | .lexical _ => [.lexical st.rule st.start]
  | .unary y => (below y st.start st.stop).map (.unary st.rule)
  | .binary y z =>
    (below y st.start st.mid).flatMap fun left =>
      (below z st.mid st.stop).map (.binary st.rule left)

section

variable {g : Grammar S} {sentence : List Symbol} {scorer : Scorer S} {p : CellPredicate S}

/-- A derivation made below a step has that step at the top. -/
theorem Step.top_of_mem_expansions {below : Symbol → Nat → Nat → List (Derivation S)}
    (hbelow : ∀ y s e, ∀ d ∈ below y s e, d ∈ derivations g sentence scorer p y s e)
    {start stop : Nat} {st : Step S} (hst : st ∈ g.steps sentence start stop) {d : Derivation S}
    (hd : d ∈ st.expansions below) : d.top = st := by
  obtain ⟨r, s, mid, e⟩ := st
  obtain ⟨_, rfl, rfl, hmid⟩ := Grammar.mem_steps.mp hst
  unfold expansions at hd
  simp only at hd hmid
  cases hrhs : r.rhs with
  | lexical t =>
    simp only [hrhs, List.mem_singleton, Rhs.mids] at hd hmid
    split at hmid
    · rename_i hfit
      rw [hd, List.mem_singleton.mp hmid, hfit.1]
      rfl
    · exact absurd hmid (by simp)
  | unary y =>
    simp only [hrhs, List.mem_map, Rhs.mids, List.mem_singleton] at hd hmid
    obtain ⟨c, hc, rfl⟩ := hd
    obtain ⟨_, _, _, hs, he⟩ := hbelow _ _ _ c hc
    rw [hmid, Derivation.top, Derivation.rule, Derivation.start, Derivation.mid, Derivation.stop,
      hs, he]
  | binary y z =>
    simp only [hrhs, List.mem_flatMap, List.mem_map] at hd
    obtain ⟨l, hl, r', hr', rfl⟩ := hd
    obtain ⟨_, _, _, hls, hle⟩ := hbelow _ _ _ l hl
    obtain ⟨_, _, _, _, hre⟩ := hbelow _ _ _ r' hr'
    rw [Derivation.top, Derivation.rule, Derivation.start, Derivation.mid, Derivation.stop,
      hls, hle, hre]

omit [Score S] in
theorem Step.nodup_expansions {below : Symbol → Nat → Nat → List (Derivation S)}
    (hbelow : ∀ y s e, (below y s e).Nodup) (st : Step S) : (st.expansions below).Nodup := by
  unfold expansions
  cases st.rule.rhs with
  | lexical t => exact List.nodup_singleton _
  | unary y =>
    refine List.Pairwise.map _ ?_ (hbelow y st.start st.stop)
    intro a b hab heq
    exact hab (Derivation.unary.inj heq).2
  | binary y z =>
    -- the left side tells from which list a derivation comes
    refine nodup_flatMap_of_key (fun d => match d with
      | .binary _ left _ => left
      | d => d) (hbelow y st.start st.mid) ?_ ?_
    · intro l _
      refine List.Pairwise.map _ ?_ (hbelow z st.mid st.stop)
      intro a b hab heq
      exact hab (Derivation.binary.inj heq).2.2
    · intro l _ d hd
      obtain ⟨r, _, rfl⟩ := List.mem_map.mp hd
      rfl

/-- A derivation made below a step fits the sentence, and all of it but the top is
admitted. -/
theorem Step.valid_of_mem_expansions {below : Symbol → Nat → Nat → List (Derivation S)}
    (hbelow : ∀ y s e, ∀ d ∈ below y s e, d ∈ derivations g sentence scorer p y s e)
    {start stop : Nat} {st : Step S} (hst : st ∈ g.steps sentence start stop) {d : Derivation S}
    (hd : d ∈ st.expansions below) : d.Valid g sentence ∧ d.PartsAdmitted scorer p := by
  obtain ⟨hr, hs, he, hmid⟩ := Grammar.mem_steps.mp hst
  unfold Step.expansions at hd
  cases hrhs : st.rule.rhs with
  | lexical t =>
    simp only [hrhs, List.mem_singleton, Rhs.mids] at hd hmid
    split at hmid
    · rename_i hfit
      rw [hd]
      exact ⟨⟨hr, t, hrhs, by rw [hs]; exact hfit.2⟩, trivial⟩
    · exact absurd hmid (by simp)
  | unary y =>
    simp only [hrhs, List.mem_map] at hd
    obtain ⟨c, hc, rfl⟩ := hd
    obtain ⟨hvalid, hadmitted, rfl, _, _⟩ := hbelow _ _ _ c hc
    exact ⟨⟨hr, hrhs, hvalid⟩, hadmitted⟩
  | binary y z =>
    simp only [hrhs, List.mem_flatMap, List.mem_map] at hd
    obtain ⟨l, hl, r, hr', rfl⟩ := hd
    obtain ⟨hlvalid, hladmitted, rfl, _, hle⟩ := hbelow _ _ _ l hl
    obtain ⟨hrvalid, hradmitted, rfl, hrs, _⟩ := hbelow _ _ _ r hr'
    exact ⟨⟨hr, hrhs, hle.trans hrs.symm, hlvalid, hrvalid⟩, hladmitted, hradmitted⟩

omit [Score S] in
/-- The top of a derivation is a step over its span. -/
theorem Derivation.Valid.top_mem_steps {d : Derivation S} (h : d.Valid g sentence) :
    d.top ∈ g.steps sentence d.start d.stop := by
  refine Grammar.mem_steps.mpr ⟨h.rule_mem, rfl, rfl, ?_⟩
  cases d with
  | lexical r position =>
    obtain ⟨_, t, hrhs, ht⟩ := h
    simp [Derivation.top, Derivation.rule, hrhs, Rhs.mids, Derivation.start, Derivation.stop,
      Derivation.mid, ht]
  | unary r c =>
    simp [Derivation.top, Derivation.rule, h.2.1, Rhs.mids, Derivation.stop, Derivation.mid]
  | binary r left right =>
    obtain ⟨_, hrhs, hmid, hl, hr⟩ := h
    simp only [Derivation.top, Derivation.rule, hrhs, Rhs.mids]
    exact Span.mem_splits.mpr ⟨hl.span.1, by
      have := hr.span.1
      simp only [Derivation.mid, Derivation.stop, hmid]
      omega⟩

/-- A derivation of which all but the top is admitted is made below its top. `below` has
to list the derivations of lower symbols and over narrower spans. -/
theorem Derivation.Valid.mem_expansions (hg : g.Indexed)
    {below : Symbol → Nat → Nat → List (Derivation S)} {d : Derivation S}
    (h : d.Valid g sentence) (hparts : d.PartsAdmitted scorer p)
    (hnarrow : ∀ y s e, e - s < d.stop - d.start →
      ∀ d' ∈ derivations g sentence scorer p y s e, d' ∈ below y s e)
    (hlower : ∀ y, g.unaryRank y < g.unaryRank d.symbol →
      ∀ d' ∈ derivations g sentence scorer p y d.start d.stop, d' ∈ below y d.start d.stop) :
    d ∈ d.top.expansions below := by
  unfold Step.expansions
  cases d with
  | lexical r position =>
    obtain ⟨_, t, hrhs, _⟩ := h
    simp [Derivation.top, Derivation.rule, hrhs, Derivation.start]
  | unary r c =>
    obtain ⟨hr, hrhs, hc⟩ := h
    simp only [Derivation.top, Derivation.rule, hrhs, List.mem_map]
    exact ⟨c, hlower _ (hg.unaryRank_lt hr hrhs) c ⟨hc, hparts, rfl, rfl, rfl⟩, rfl⟩
  | binary r left right =>
    obtain ⟨hr, hrhs, hmid, hl, hrv⟩ := h
    have h₁ := hl.span.1
    have h₂ := hrv.span.1
    simp only [Derivation.top, Derivation.rule, hrhs, List.mem_flatMap, List.mem_map]
    refine ⟨left, hnarrow _ _ _ ?_ left ⟨hl, hparts.1, rfl, rfl, rfl⟩, right,
      hnarrow _ _ _ ?_ right ⟨hrv, hparts.2, rfl, hmid.symm, rfl⟩, rfl⟩
    · simp only [Derivation.start, Derivation.mid, Derivation.stop]
      omega
    · simp only [Derivation.start, Derivation.mid, Derivation.stop]
      omega

/-- The derivations of a symbol over a span, step by step at the top. `below` has to
list the derivations of lower symbols and over narrower spans. -/
theorem mem_flatMap_expansions (hg : g.Indexed) (hp : p.ScoreFree)
    {below : Symbol → Nat → Nat → List (Derivation S)}
    (hsound : ∀ y s e, ∀ d ∈ below y s e, d ∈ derivations g sentence scorer p y s e)
    {sym : Symbol} {start stop : Nat}
    (hnarrow : ∀ y s e, e - s < stop - start →
      ∀ d ∈ derivations g sentence scorer p y s e, d ∈ below y s e)
    (hlower : ∀ y, g.unaryRank y < g.unaryRank sym →
      ∀ d ∈ derivations g sentence scorer p y start stop, d ∈ below y start stop)
    {d : Derivation S} :
    d ∈ (g.stepsFor sentence p sym start stop).flatMap (Step.expansions below) ↔
      d ∈ derivations g sentence scorer p sym start stop := by
  rw [List.mem_flatMap]
  refine ⟨?_, ?_⟩
  · intro hx
    rcases hx with ⟨st, hst, hd⟩
    obtain ⟨hmem, rfl, hadmits⟩ := Grammar.mem_stepsFor.mp hst
    have htop := Step.top_of_mem_expansions hsound hmem hd
    obtain ⟨_, hs, he, _⟩ := Grammar.mem_steps.mp hmem
    obtain ⟨hvalid, hparts⟩ := Step.valid_of_mem_expansions hsound hmem hd
    rw [← htop] at hadmits
    refine ⟨hvalid, ⟨(hp.topAdmitted_iff scorer d).mpr hadmits, hparts⟩, ?_, ?_, ?_⟩
    · exact congrArg (fun st : Step S => st.rule.parent) htop
    · exact (congrArg Step.start htop).trans hs
    · exact (congrArg Step.stop htop).trans he
  · intro hx
    rcases hx with ⟨hvalid, ⟨htop, hparts⟩, rfl, rfl, rfl⟩
    have hadmits := (hp.topAdmitted_iff scorer d).mp htop
    exact ⟨d.top, Grammar.mem_stepsFor.mpr ⟨hvalid.top_mem_steps, rfl, hadmits⟩,
      hvalid.mem_expansions hg hparts hnarrow hlower⟩

/-! ## The list -/

open Classical in
/-- The elements of a set, in some order, if there are finitely many. -/
noncomputable def listing {α : Type} (D : Set α) : List α :=
  if h : D.Finite then h.toFinset.toList else []

theorem mem_listing {α : Type} {D : Set α} (h : D.Finite) {a : α} : a ∈ listing D ↔ a ∈ D := by
  rw [listing, dif_pos h, Finset.mem_toList, Set.Finite.mem_toFinset]

theorem nodup_listing {α : Type} (D : Set α) : (listing D).Nodup := by
  unfold listing
  split
  · exact Finset.nodup_toList _
  · exact List.nodup_nil

theorem mem_of_mem_listing {α : Type} {D : Set α} {a : α} (h : a ∈ listing D) : a ∈ D := by
  unfold listing at h
  split at h
  · rwa [Finset.mem_toList, Set.Finite.mem_toFinset] at h
  · exact absurd h (by simp)

/-- **A symbol has finitely many derivations over a span.** -/
theorem finite_derivations (hg : g.Indexed) (hp : p.ScoreFree) (sentence : List Symbol)
    (scorer : Scorer S) (sym : Symbol) (start stop : Nat) :
    (derivations g sentence scorer p sym start stop).Finite := by
  induction sym, start, stop using g.span_induction with
  | step sym start stop hnarrow hlower =>
    -- the parts have finitely many derivations by the induction, so these can be listed
    have hsub : derivations g sentence scorer p sym start stop ⊆
        { d | d ∈ (g.stepsFor sentence p sym start stop).flatMap (Step.expansions fun y s e =>
          listing (derivations g sentence scorer p y s e)) } := fun d hd =>
      (mem_flatMap_expansions hg hp (fun y s e d hd => mem_of_mem_listing hd)
        (fun y s e hlt d hd => (mem_listing (hnarrow y s e hlt)).mpr hd)
        (fun y hlt d hd => (mem_listing (hlower y hlt)).mpr hd)).mpr hd
    exact (List.finite_toSet _).subset hsub

/-- The derivations of a symbol over a span in a list. -/
noncomputable abbrev derivationList (g : Grammar S) (sentence : List Symbol) (scorer : Scorer S)
    (p : CellPredicate S) (sym : Symbol) (start stop : Nat) : List (Derivation S) :=
  listing (derivations g sentence scorer p sym start stop)

/-- Without a derivation there is nothing to list. -/
theorem derivationList_eq_nil {sym : Symbol} {start stop : Nat}
    (h : ¬ (derivations g sentence scorer p sym start stop).Nonempty) :
    derivationList g sentence scorer p sym start stop = [] :=
  List.eq_nil_iff_forall_not_mem.mpr fun d hd => h ⟨d, mem_of_mem_listing hd⟩

/-- **The derivations of a symbol over a span, by the step at their top.** -/
theorem derivationList_perm (hg : g.Indexed) (hp : p.ScoreFree) (sentence : List Symbol)
    (scorer : Scorer S) (sym : Symbol) (start stop : Nat) :
    (derivationList g sentence scorer p sym start stop).Perm
      ((g.stepsFor sentence p sym start stop).flatMap
        (Step.expansions (derivationList g sentence scorer p))) := by
  have hfinite := finite_derivations (p := p) hg hp sentence scorer
  refine (List.perm_ext_iff_of_nodup (nodup_listing _) ?_).mpr fun d => ?_
  · refine nodup_flatMap_of_key Derivation.top ((g.nodup_steps hg.nodup_rules _ _ _).filter _) ?_ ?_
    · intro st _
      exact Step.nodup_expansions (fun y s e => nodup_listing _) st
    · intro st hst d hd
      exact Step.top_of_mem_expansions (fun y s e d hd => mem_of_mem_listing hd)
        (Grammar.mem_stepsFor.mp hst).1 hd
  · rw [mem_listing (hfinite _ _ _), mem_flatMap_expansions hg hp
      (fun y s e d hd => mem_of_mem_listing hd)
      (fun y s e _ d hd => (mem_listing (hfinite _ _ _)).mpr hd)
      (fun y _ d hd => (mem_listing (hfinite _ _ _)).mpr hd)]

/-- A symbol that has a derivation has one below some step. -/
theorem derivations_nonempty_iff (hg : g.Indexed) (hp : p.ScoreFree) (sym : Symbol)
    (start stop : Nat) :
    (derivations g sentence scorer p sym start stop).Nonempty ↔
      ∃ st ∈ g.stepsFor sentence p sym start stop,
        ∃ d, d ∈ st.expansions (derivationList g sentence scorer p) := by
  have hperm := derivationList_perm hg hp sentence scorer sym start stop
  have hmem : ∀ d, d ∈ derivations g sentence scorer p sym start stop ↔
      d ∈ derivationList g sentence scorer p sym start stop := fun d =>
    (mem_listing (finite_derivations hg hp sentence scorer sym start stop)).symm
  refine ⟨?_, ?_⟩
  · intro h
    rcases h with ⟨d, hd⟩
    obtain ⟨st, hst, hd⟩ := List.mem_flatMap.mp (hperm.mem_iff.mp ((hmem d).mp hd))
    exact ⟨st, hst, d, hd⟩
  · intro h
    rcases h with ⟨st, hst, d, hd⟩
    exact ⟨d, (hmem d).mpr (hperm.mem_iff.mpr (List.mem_flatMap.mpr ⟨st, hst, hd⟩))⟩

end

end ChartParsing
