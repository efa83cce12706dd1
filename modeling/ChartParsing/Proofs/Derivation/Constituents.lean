import ChartParsing.Proofs.Derivation
import Mathlib.Algebra.BigOperators.Ring.List
import Mathlib.Algebra.Ring.Nat
import Mathlib.Data.List.Nodup

/-!
# Constituents

A constituent is a symbol over a span. A step makes one constituent out of others:
none for a lexical rule, one for a unary rule, and two side by side for a binary
one. What a step is made from is narrower than what it makes, or of the same width
and of a symbol that ranks lower.

It follows that no constituent comes twice in a derivation. A derivation has a
constituent or has it not, and summing over the steps that make it counts every
derivation at most once.
-/

namespace ChartParsing

variable {S : Type}

/-- A symbol over a span. -/
structure Constituent where
  symbol : Symbol
  start : Nat
  stop : Nat
  deriving DecidableEq

/-- The constituent that a step makes. -/
def Step.made (st : Step S) : Constituent := ⟨st.rule.parent, st.start, st.stop⟩

/-- The constituents that a step is made from. -/
def Step.children (st : Step S) : List Constituent :=
  match st.rule.rhs with
  | .lexical _ => []
  | .unary y => [⟨y, st.start, st.stop⟩]
  | .binary y z => [⟨y, st.start, st.mid⟩, ⟨z, st.mid, st.stop⟩]

/-- Whether the step reads the token at a position. -/
def Step.reads (st : Step S) (position : Nat) : Bool :=
  match st.rule.rhs with
  | .lexical _ => st.start == position
  | .unary _ | .binary _ _ => false

/-- Children over the span of their parent are those of unary rules. -/
theorem Step.unary_of_mem_children {g : Grammar S} {sentence : List Symbol} {st : Step S}
    (hst : st ∈ g.steps sentence st.start st.stop) {c : Constituent} (hc : c ∈ st.children)
    (hwidth : st.stop - st.start ≤ c.stop - c.start) :
    st.rule.rhs = .unary c.symbol ∧ c.start = st.start ∧ c.stop = st.stop := by
  obtain ⟨_, _, _, hmid⟩ := Grammar.mem_steps.mp hst
  unfold children at hc
  cases hrhs : st.rule.rhs with
  | lexical t =>
    rw [hrhs] at hc
    cases hc
  | unary y =>
    simp only [hrhs, List.mem_singleton] at hc
    subst hc
    exact ⟨rfl, rfl, rfl⟩
  | binary y z =>
    simp only [hrhs, List.mem_cons, List.not_mem_nil, or_false] at hc
    rw [hrhs] at hmid
    obtain ⟨h₁, h₂⟩ := Span.mem_splits.mp hmid
    rcases hc with rfl | rfl
    · simp only at hwidth
      omega
    · simp only at hwidth
      omega

/-- A step does not make what it is made from. -/
theorem Step.made_notMem_children {g : Grammar S} (hg : g.Indexed) {sentence : List Symbol}
    {st : Step S} (hst : st ∈ g.steps sentence st.start st.stop) : st.made ∉ st.children := by
  intro hmem
  obtain ⟨hrhs, _, _⟩ := st.unary_of_mem_children hst hmem (Nat.le_refl _)
  exact hg.parent_ne_child (Grammar.mem_steps.mp hst).1 hrhs rfl

namespace Derivation

/-- The constituent is one of those that the steps make. -/
def Has (d : Derivation S) (c : Constituent) : Prop := c ∈ d.steps.map Step.made

instance (d : Derivation S) (c : Constituent) : Decidable (d.Has c) :=
  inferInstanceAs (Decidable (c ∈ d.steps.map Step.made))

/-- How often a rule is applied. -/
def applications (d : Derivation S) (id : RuleId) : Nat :=
  d.steps.countP fun st => st.rule.id = id

/-- What is in a derivation lies within its span, and over the whole span ranks no
higher than the symbol at the top. -/
theorem Valid.has {g : Grammar S} (hg : g.Indexed) {sentence : List Symbol} {d : Derivation S}
    (h : d.Valid g sentence) {c : Constituent} (hc : d.Has c) :
    d.start ≤ c.start ∧ c.start < c.stop ∧ c.stop ≤ d.stop ∧
      (c.start = d.start → c.stop = d.stop → g.unaryRank c.symbol ≤ g.unaryRank d.symbol) := by
  have hspan := h.span
  induction d with
  | lexical r position =>
    rw [List.mem_singleton.mp hc]
    exact ⟨Nat.le_refl _, hspan.1, Nat.le_refl _, fun _ _ => Nat.le_refl _⟩
  | unary r child ih =>
    obtain ⟨hr, hrhs, hchild⟩ := h
    rcases List.mem_cons.mp hc with rfl | hc
    · exact ⟨Nat.le_refl _, hspan.1, Nat.le_refl _, fun _ _ => Nat.le_refl _⟩
    · obtain ⟨h₁, h₂, h₃, h₄⟩ := ih hchild hc hchild.span
      refine ⟨h₁, h₂, h₃, fun hs he => (h₄ hs he).trans ?_⟩
      exact Nat.le_of_lt (hg.unaryRank_lt hr hrhs)
  | binary r left right ihl ihr =>
    obtain ⟨_, _, hmid, hl, hr⟩ := h
    rcases List.mem_cons.mp hc with rfl | hc
    · exact ⟨Nat.le_refl _, hspan.1, Nat.le_refl _, fun _ _ => Nat.le_refl _⟩
    have hlspan := hl.span
    have hrspan := hr.span
    rw [List.map_append, List.mem_append] at hc
    simp only [start, stop]
    rcases hc with hc | hc
    · obtain ⟨h₁, h₂, h₃, _⟩ := ihl hl hc hlspan
      exact ⟨h₁, h₂, by omega, fun _ _ => by omega⟩
    · obtain ⟨h₁, h₂, h₃, _⟩ := ihr hr hc hrspan
      exact ⟨by omega, h₂, h₃, fun _ _ => by omega⟩

/-- **No constituent comes twice in a derivation.** -/
theorem Valid.nodup_made {g : Grammar S} (hg : g.Indexed) {sentence : List Symbol}
    {d : Derivation S} (h : d.Valid g sentence) : (d.steps.map Step.made).Nodup := by
  induction d with
  | lexical r position => exact List.nodup_cons.mpr ⟨List.not_mem_nil, List.nodup_nil⟩
  | unary r child ih =>
    obtain ⟨hr, hrhs, hchild⟩ := h
    refine List.nodup_cons.mpr ⟨fun hmem => ?_, ih hchild⟩
    -- over the span of the child nothing ranks higher than the child
    have hrank := (hchild.has hg hmem).2.2.2 rfl rfl
    exact absurd (hg.unaryRank_lt hr hrhs) (Nat.not_lt.mpr hrank)
  | binary r left right ihl ihr =>
    obtain ⟨_, _, hmid, hl, hr⟩ := h
    -- both sides are narrower than the whole, and they have no token in common
    have hlspan := hl.span
    have hrspan := hr.span
    show List.Nodup (_ :: (left.steps ++ right.steps).map Step.made)
    rw [List.map_append]
    refine List.nodup_cons.mpr ⟨fun hmem => ?_, List.nodup_append'.mpr ⟨ihl hl, ihr hr, ?_⟩⟩
    · simp only [Step.made, top, start, stop] at hmem
      rcases List.mem_append.mp hmem with hmem | hmem
      · have := hl.has hg hmem
        simp only at this
        omega
      · have := hr.has hg hmem
        simp only at this
        omega
    · intro c hcl hcr
      have h₁ := hl.has hg hcl
      have h₂ := hr.has hg hcr
      omega

end Derivation

/-! ## Sums over steps -/

/-- Leaving out elements that fail a test counts them as zero. -/
theorem sum_map_filter {α M : Type} [AddCommMonoid M] (xs : List α) (P : α → Prop)
    [DecidablePred P] (f : α → M) :
    ((xs.filter fun x => P x).map f).sum = (xs.map fun x => if P x then f x else 0).sum := by
  rw [List.sum_map_ite, List.sum_eq_zero (l := List.map (fun _ => 0) _) (by simp), add_zero]

/-- Elements that count as zero may be left out. -/
theorem sum_map_filter_of_zero {α M : Type} [AddCommMonoid M] (xs : List α) (P : α → Prop)
    [DecidablePred P] (f : α → M) (h : ∀ x, ¬ P x → f x = 0) :
    ((xs.filter fun x => P x).map f).sum = (xs.map f).sum := by
  rw [sum_map_filter]
  refine congrArg List.sum (List.map_congr_left fun x _ => ?_)
  split
  · rfl
  · rename_i hx
    rw [h x hx]

/-- The sum of ones over the elements that pass a test counts them. -/
theorem sum_ite_one {α : Type} [Semiring S] (xs : List α) (P : α → Prop) [DecidablePred P] :
    (xs.map fun x => if P x then (1 : S) else 0).sum = (xs.countP fun x => P x : S) := by
  rw [← sum_map_filter, List.countP_eq_length_filter]
  simp

/-- Summing over the steps that make a constituent tells whether the derivation has
it. -/
theorem Derivation.Valid.sum_made [Semiring S] {g : Grammar S} (hg : g.Indexed)
    {sentence : List Symbol} {d : Derivation S} (h : d.Valid g sentence) (c : Constituent) :
    (d.steps.map fun st => if st.made = c then (1 : S) else 0).sum = if d.Has c then 1 else 0 := by
  have hcount : (d.steps.countP fun st => st.made = c) = (d.steps.map Step.made).count c := by
    rw [List.count, List.countP_map]
    refine List.countP_congr fun st _ => ?_
    simp
  rw [sum_ite_one, hcount]
  by_cases hc : d.Has c
  · rw [if_pos hc, List.count_eq_one_of_mem (h.nodup_made hg) hc, Nat.cast_one]
  · rw [if_neg hc, List.count_eq_zero_of_not_mem hc, Nat.cast_zero]

/-- **A derivation reads every token of its span once**, and no others. -/
theorem Derivation.Valid.sum_reads [Semiring S] {g : Grammar S} {sentence : List Symbol}
    {d : Derivation S} (h : d.Valid g sentence) (position : Nat) :
    (d.steps.map fun st => if st.reads position then (1 : S) else 0).sum =
      if d.start ≤ position ∧ position < d.stop then 1 else 0 := by
  induction d with
  | lexical r start =>
    obtain ⟨_, t, hrhs, _⟩ := h
    simp only [steps, List.map_cons, List.map_nil, List.sum_cons, List.sum_nil, add_zero,
      Step.reads, top, rule, hrhs, Derivation.start, stop, beq_iff_eq]
    exact if_congr (by omega) rfl rfl
  | unary r child ih =>
    obtain ⟨_, hrhs, hchild⟩ := h
    rw [steps, List.map_cons, List.sum_cons, ih hchild]
    simp only [Step.reads, top, rule, hrhs, Bool.false_eq_true, if_false, zero_add]
    rfl
  | binary r left right ihl ihr =>
    obtain ⟨_, hrhs, hmid, hl, hr⟩ := h
    have hlspan := hl.span
    have hrspan := hr.span
    rw [steps, List.map_cons, List.sum_cons, List.map_append, List.sum_append, ihl hl, ihr hr]
    simp only [Step.reads, top, rule, hrhs, Derivation.start, stop, Bool.false_eq_true, if_false,
      zero_add]
    -- the token is on one side only
    by_cases hleft : position < left.stop
    · rw [if_neg (c := right.start ≤ position ∧ _) (by omega), add_zero]
      exact if_congr (by omega) rfl rfl
    · rw [if_neg (c := left.start ≤ position ∧ position < left.stop) (by omega), zero_add]
      exact if_congr (by omega) rfl rfl

/-! ## Steps of one kind -/

namespace Derivation

variable {g : Grammar S} {sentence : List Symbol} {d : Derivation S}

theorem Valid.rule_mem_of_mem_steps (h : d.Valid g sentence) {st : Step S} (hst : st ∈ d.steps) :
    st.rule ∈ g.rules := by
  induction d with
  | lexical r position =>
    rw [List.mem_singleton.mp hst]
    exact h.1
  | unary r child ih =>
    rcases List.mem_cons.mp hst with rfl | hst
    · exact h.1
    · exact ih h.2.2 hst
  | binary r left right ihl ihr =>
    obtain ⟨hr, _, _, hl, hr'⟩ := h
    rcases List.mem_cons.mp hst with rfl | hst
    · exact hr
    · rcases List.mem_append.mp hst with hst | hst
      · exact ihl hl hst
      · exact ihr hr' hst

/-- **There is a lexical step for each token**, whatever unary steps are in between. -/
theorem Valid.countP_isLexical (h : d.Valid g sentence) :
    d.start + d.steps.countP (fun st => st.rule.isLexical) = d.stop := by
  induction d with
  | lexical r position =>
    obtain ⟨_, t, hrhs, _⟩ := h
    have hlexical : r.isLexical = true := by rw [Rule.isLexical, hrhs]
    simp [steps, top, rule, hlexical, start, stop]
  | unary r child ih =>
    obtain ⟨_, hrhs, hchild⟩ := h
    have hlexical : r.isLexical = false := by rw [Rule.isLexical, hrhs]
    have := ih hchild
    simpa [steps, top, rule, hlexical, start, stop] using this
  | binary r left right ihl ihr =>
    obtain ⟨_, hrhs, hmid, hl, hr⟩ := h
    have hlexical : r.isLexical = false := by rw [Rule.isLexical, hrhs]
    have := ihl hl
    have := ihr hr
    simp only [steps, List.countP_cons, List.countP_append, top, rule, hlexical, start, stop,
      Bool.false_eq_true, if_false]
    omega

/-- **There is a binary step less than there are tokens.** -/
theorem Valid.countP_isBinary (h : d.Valid g sentence) :
    d.start + d.steps.countP (fun st => st.rule.isBinary) + 1 = d.stop := by
  induction d with
  | lexical r position =>
    obtain ⟨_, t, hrhs, _⟩ := h
    have hbinary : r.isBinary = false := by rw [Rule.isBinary, hrhs]
    simp [steps, top, rule, hbinary, start, stop]
  | unary r child ih =>
    obtain ⟨_, hrhs, hchild⟩ := h
    have hbinary : r.isBinary = false := by rw [Rule.isBinary, hrhs]
    have := ih hchild
    simpa [steps, top, rule, hbinary, start, stop] using this
  | binary r left right ihl ihr =>
    obtain ⟨_, hrhs, hmid, hl, hr⟩ := h
    have hbinary : r.isBinary = true := by rw [Rule.isBinary, hrhs]
    have := ihl hl
    have := ihr hr
    simp only [steps, List.countP_cons, List.countP_append, top, rule, hbinary, start, stop,
      if_true]
    omega

end Derivation

/-- Rules have different numbers. -/
theorem Grammar.Indexed.countP_id {g : Grammar S} (hg : g.Indexed) (kind : Rule S → Bool)
    {r : Rule S} (hr : r ∈ g.rules) :
    ((g.rules.toList.filter kind).countP fun r' => r.id = r'.id) = if kind r then 1 else 0 := by
  have hids : ((g.rules.toList.filter kind).map Rule.id).Nodup := by
    refine (hg.nodup_rules.filter kind).map_on fun x hx y hy hid => ?_
    exact hg.eq_of_id_eq (Array.mem_toList_iff.mp (List.mem_of_mem_filter hx))
      (Array.mem_toList_iff.mp (List.mem_of_mem_filter hy)) hid
  have hmem : r.id ∈ (g.rules.toList.filter kind).map Rule.id ↔ kind r = true := by
    refine ⟨fun h => ?_, fun h => ?_⟩
    · obtain ⟨r', hr', hid⟩ := List.mem_map.mp h
      obtain ⟨hrules, hkind⟩ := List.mem_filter.mp hr'
      rw [← hg.eq_of_id_eq (Array.mem_toList_iff.mp hrules) hr hid]
      exact hkind
    · exact List.mem_map_of_mem (List.mem_filter.mpr ⟨Array.mem_toList_iff.mpr hr, h⟩)
  have hcount : ((g.rules.toList.filter kind).countP fun r' => r.id = r'.id) =
      ((g.rules.toList.filter kind).map Rule.id).count r.id := by
    rw [List.count, List.countP_map]
    refine List.countP_congr fun r' _ => ?_
    rw [Function.comp_apply, decide_eq_true_eq, beq_iff_eq]
    exact eq_comm
  rw [hcount, hids.count]
  exact if_congr hmem rfl rfl

/-- **The steps of one kind are the applications of its rules.** -/
theorem sum_countP_id {g : Grammar S} (hg : g.Indexed) (kind : Rule S → Bool)
    {steps : List (Step S)} (h : ∀ st ∈ steps, st.rule ∈ g.rules) :
    ((g.rules.toList.filter kind).map fun r => steps.countP fun st => st.rule.id = r.id).sum =
      steps.countP fun st => kind st.rule := by
  induction steps with
  | nil => simp
  | cons st steps ih =>
    obtain ⟨hst, hsteps⟩ := List.forall_mem_cons.mp h
    have hone : ((g.rules.toList.filter kind).map fun r =>
        if st.rule.id = r.id then 1 else 0).sum = if kind st.rule then 1 else 0 := by
      rw [← hg.countP_id kind hst]
      exact sum_ite_one (S := ℕ) _ _
    simp only [List.countP_cons, decide_eq_true_eq, List.sum_map_add]
    rw [ih hsteps, hone]

end ChartParsing
